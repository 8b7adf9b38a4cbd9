import BlockLowering.Proofs.Composition
import BlockLowering.Proofs.Points
/-!
Disciplines that are stated for one function. A regime says what holds of the function at the cursor and
of what its open scopes have gathered, and which facts the function bears out. A step of construction then
has only to say how it changes the function.
-/
namespace BlockLowering
open Lower Build

/-- What a run keeps of a function that it builds, as long as names are kept. -/
structure Regime (Fact : Type) where
  good : Module → Procedure → Prop
  /-- What holds of the open scope with a number. -/
  fits : Module → Procedure → Nat → ScopeState → Prop
  /-- How many scopes may be open. -/
  opened : Nat → Prop
  /-- Where the cursor may be. -/
  sits : BlockId → Prop
  bears : Procedure → Fact → Prop
  good_keep : ∀ {m m' p}, good m p → m.Keeps m' → good m' p
  fits_keep : ∀ {m m' p i scope}, fits m p i scope → m.Keeps m' → fits m' p i scope
  fits_empty : ∀ m p i, fits m p i .empty

/-- The run, the function and the state in which the function was entered. -/
structure Origin where
  env : Environment
  id : ProcId
  start : State

namespace Regime
variable {Fact : Type} {r r' : Regime Fact} {o : Origin} {s s' : State} {p p' : Procedure} {c : BlockId} {needs : List Fact}

/-- A regime holds at a point of a run. -/
structure Kept (r : Regime Fact) (o : Origin) (s : State) (p : Procedure) (c : BlockId) : Prop where
  current : s.builder.current = some o.id
  stands : s.Stands p c
  good : r.good s.builder.output p
  scopes : ∀ {i : Nat} {scope}, s.scopes[i]? = some scope → r.fits s.builder.output p i scope
  opened : r.opened s.scopes.size
  sits : r.sits c
  named : s.Named o.env
  touches : State.Touches o.env o.id o.start s

def discipline (r : Regime Fact) (o : Origin) : Discipline Fact where
  holds s := ∃ p c, r.Kept o s p c
  knows s f := ∃ p, s.builder.procedure? = some p ∧ r.bears p f

/-- A function changes from one regime to another. -/
structure Evolves (r r' : Regime Fact) (m : Module) (p p' : Procedure) : Prop where
  good : r'.good m p'
  fits : ∀ {i scope}, r.fits m p i scope → r'.fits m p' i scope
  opened : ∀ {n}, r.opened n → r'.opened n
  sits : ∀ {b}, r.sits b → r'.sits b
  bears : ∀ {f}, r.bears p f → r'.bears p' f
  name : p'.name = p.name

/-- One regime holds outside a new scope and another inside it. -/
structure Opens (r r' : Regime Fact) : Prop where
  good : ∀ {m p}, r.good m p ↔ r'.good m p
  bears : ∀ {p f}, r.bears p f ↔ r'.bears p f
  sits : ∀ {b}, r.sits b ↔ r'.sits b
  fits : ∀ {m p n i scope}, r.opened n → i < n → (r.fits m p i scope ↔ r'.fits m p i scope)
  opened : ∀ {n}, r.opened n → r'.opened (n + 1)
  closed : ∀ {n n'}, r.opened n → r'.opened n' → r.opened (min n n')

theorem Opens.knows (opens : r.Opens r') {f : Fact} : (r.discipline o).knows s f ↔ (r'.discipline o).knows s f := by
  simp only [discipline,opens.bears]

section
variable (kept : r.Kept o s p c)
include kept

theorem Kept.unique (here : s.builder.procedure? = some p') : p' = p :=
  Option.mem_unique here kept.stands.procedure

theorem Kept.knows {f : Fact} : (r.discipline o).knows s f ↔ r.bears p f := by
  constructor
  · rintro ⟨q,here,bears⟩
    exact kept.unique here ▸ bears
  · exact fun bears => ⟨p,kept.stands.procedure,bears⟩

theorem Kept.put (evolves : r.Evolves r' s.builder.output p p') :
    r'.Kept o (s.put p') p' c ∧ s.builder.output.Keeps (s.put p').builder.output := by
  obtain ⟨id,current,touches⟩ : ∃ id, _ ∧ State.Touches o.env id s (s.put p') := State.touches_put kept.stands.procedure evolves.name
  cases (kept.current.symm.trans current)
  have keeps := touches.keeps kept.named
  exact ⟨⟨Builder.put_current.trans kept.current,kept.stands.put,r'.good_keep evolves.good keeps,
    fun there => r'.fits_keep (evolves.fits (kept.scopes there)) keeps,evolves.opened kept.opened,evolves.sits kept.sits,
    touches.named kept.named,kept.touches.trans touches⟩,keeps⟩

theorem Kept.quiet (quiet : s.Quiet o.env s') : r.Kept o s' p c where
  current := quiet.current.trans kept.current
  stands := kept.stands.quiet quiet
  good := r.good_keep kept.good (quiet.keeps kept.named)
  scopes there := by
    rw [quiet.scopes] at there
    exact r.fits_keep (kept.scopes there) (quiet.keeps kept.named)
  opened := quiet.scopes ▸ kept.opened
  sits := kept.sits
  named := quiet.named kept.named
  touches := kept.touches.trans (.of_quiet quiet)

theorem Kept.moveTo {b : BlockId} (sits : r.sits b) : r.Kept o (s.moveTo b) p b :=
  ⟨kept.current,⟨kept.stands.procedure,rfl⟩,kept.good,kept.scopes,kept.opened,sits,
    kept.named.keep kept.named.numbered (.refl _) rfl,kept.touches.trans (.of_same rfl rfl)⟩

theorem Kept.exchange (good : r'.good s.builder.output p) (sits : r'.sits c) (scopes : Array ScopeState) (opened : r'.opened scopes.size)
    (fits : ∀ {i : Nat} {scope}, scopes[i]? = some scope → r'.fits s.builder.output p i scope) : r'.Kept o { s with scopes } p c :=
  ⟨kept.current,⟨kept.stands.procedure,kept.stands.cursor⟩,good,fits,opened,sits,
    kept.named.keep kept.named.numbered (.refl _) rfl,kept.touches.trans (.of_same rfl rfl)⟩

theorem Kept.rescope (scopes : Array ScopeState) (opened : r.opened scopes.size)
    (fits : ∀ {i : Nat} {scope}, scopes[i]? = some scope → r.fits s.builder.output p i scope) :
    r.Kept o { s with scopes } p c := kept.exchange kept.good kept.sits scopes opened fits

end

section
variable {α : Type} {gives : α → List Fact}

theorem keeps_build {step : Build α}
    (effect : ∀ {b a b' p c}, step.Runs b a b' → b.procedure? = some p → b.cursor = some c → r.good b.output p → r.sits c →
      (∀ f ∈ needs, r.bears p f) → ∃ p', b' = b.put p' ∧ r.Evolves r b.output p p' ∧ ∀ f ∈ gives a, r.bears p' f) :
    (r.discipline o).Keeps o.env needs (build step) gives where
  lead {s a s'} holds known run := by
    obtain ⟨p,c,kept⟩ := holds
    obtain ⟨b',built,rfl⟩ := runs_build.mp run
    obtain ⟨p',rfl,evolves,given⟩ := effect built kept.stands.procedure kept.stands.cursor kept.good kept.sits
      fun f inside => kept.knows.mp (known f inside)
    have after : r.Kept o (s.put p') p' c := (kept.put evolves).1
    exact ⟨⟨p',c,after⟩,fun f there => after.knows.mpr (evolves.bears (kept.knows.mp there)),
      fun f inside => after.knows.mpr (given f inside)⟩

theorem keeps_quiet {step : Lower α} (quiet : ∀ {s a s'}, Runs step o.env s a s' → s.Quiet o.env s') :
    (r.discipline o).Keeps o.env needs step noFacts where
  lead {s a s'} holds _ run := by
    obtain ⟨p,c,kept⟩ := holds
    have after := kept.quiet (quiet run)
    exact ⟨⟨p,c,after⟩,fun f there => after.knows.mpr (kept.knows.mp there),by simp [noFacts]⟩

theorem keeps_log {event : Event} : (r.discipline o).Keeps o.env needs (log event) noFacts :=
  keeps_quiet fun run => by
    obtain rfl := runs_log.mp run
    exact .logged o.env _ _

theorem keeps_switchTo {block : BlockId} (sits : ∀ {p}, (∀ f ∈ needs, r.bears p f) → r.sits block) :
    (r.discipline o).Keeps o.env needs (build (switchTo block)) noFacts where
  lead {s a s'} holds known run := by
    obtain ⟨p,c,kept⟩ := holds
    obtain ⟨b',built,rfl⟩ := runs_build.mp run
    obtain rfl := runs_switchTo.mp built
    have after := kept.moveTo (sits fun f inside => kept.knows.mp (known f inside))
    exact ⟨⟨p,block,after⟩,fun f there => there,by simp [noFacts]⟩

theorem keeps_insertionBlock : (r.discipline o).Keeps o.env needs (build insertionBlock) noFacts := by
  refine .still (fun run => ?_) fun _ => List.nil_subset _
  obtain ⟨b',built,rfl⟩ := runs_build.mp run
  obtain ⟨-,rfl⟩ := runs_insertionBlock.mp built
  rfl

theorem keeps_atBlock {block : BlockId} {step : Lower α} (sits : ∀ {p}, (∀ f ∈ needs, r.bears p f) → r.sits block) (inside : (r.discipline o).Keeps o.env needs step gives) :
    (r.discipline o).Keeps o.env needs (atBlock block step) gives where
  lead {s a s'} holds known run := by
    obtain ⟨p,c,kept⟩ := holds
    obtain ⟨s₁,inner,rfl⟩ := runs_atBlock.mp run
    obtain ⟨⟨p₁,c₁,kept₁⟩,persists,given⟩ := inside.lead
      ⟨p,block,kept.moveTo (sits fun f inside => kept.knows.mp (known f inside))⟩ known inner
    have back := kept₁.moveTo kept.sits
    rw [State.moveTo,← kept.stands.cursor] at back
    exact ⟨⟨p₁,c,back⟩,persists,given⟩

theorem keeps_withScope {kind : ScopeKind} {chain : Chain} {step : Chain → Lower α} (opens : r.Opens r')
    (inside : ∀ number, r.opened number → (r'.discipline o).Keeps o.env needs (step (⟨number,kind⟩ :: chain)) gives) :
    (r.discipline o).Keeps o.env needs (withScope kind chain step) gives where
  lead {s a s'} holds known run := by
    obtain ⟨p,c,kept⟩ := holds
    obtain ⟨s₁,inner,rfl⟩ := runs_withScope.mp run
    have opened : r'.Kept o { s with scopes := s.scopes.push .empty } p c := by
      refine (kept.exchange (opens.good.mp kept.good) (opens.sits.mp kept.sits)) _ (by simpa using opens.opened kept.opened) fun {i scope} there => ?_
      rw [Array.getElem?_push] at there
      split at there
      · cases there
        exact r'.fits_empty _ _ _
      · exact (opens.fits kept.opened (getElem?_eq_some_iff.mp there).1).mp (kept.scopes there)
    obtain ⟨⟨p₁,c₁,kept₁⟩,persists,given⟩ := (inside _ kept.opened).lead ⟨p,c,opened⟩
      (fun f inside => opens.knows.mp (known f inside)) inner
    refine ⟨⟨p₁,c₁,(kept₁.exchange (opens.good.mpr kept₁.good) (opens.sits.mpr kept₁.sits)) _ ?_ fun {i scope} there => ?_⟩,
      fun f there => opens.knows.mpr (persists f (opens.knows.mp there)),fun f inside => opens.knows.mpr (given f inside)⟩
    · simpa [Array.take_eq_extract] using opens.closed kept.opened kept₁.opened
    · rw [Array.take_eq_extract,Array.getElem?_extract] at there
      split at there
      · rename_i below
        rw [Nat.zero_add] at there
        exact (opens.fits kept.opened (by omega)).mpr (kept₁.scopes there)
      · cases there

theorem keeps_modifyScope {number : Nat} {f : ScopeState → ScopeState}
    (fits : ∀ {m p scope}, (∀ f ∈ needs, r.bears p f) → r.fits m p number scope → r.fits m p number (f scope)) :
    (r.discipline o).Keeps o.env needs (modifyScope number f) noFacts where
  lead {s a s'} holds known run := by
    obtain ⟨p,c,kept⟩ := holds
    obtain rfl := runs_modifyScope.mp run
    refine ⟨⟨p,c,kept.rescope _ (by simpa using kept.opened) fun {i scope} there => ?_⟩,fun f there => there,
      by simp [noFacts]⟩
    rw [Array.getElem?_modify] at there
    split at there
    · rename_i here
      subst here
      obtain ⟨old,before,rfl⟩ := Option.map_eq_some_iff.mp there
      exact fits (fun f inside => kept.knows.mp (known f inside)) (kept.scopes before)
    · exact kept.scopes there

theorem keeps_scopeState {number : Nat} {gives : ScopeState → List Fact}
    (known : ∀ {m p scope}, r.fits m p number scope → ∀ f ∈ gives scope, r.bears p f) :
    (r.discipline o).Keeps o.env needs (scopeState number) gives where
  lead {s a s'} holds _ run := by
    obtain ⟨p,c,kept⟩ := holds
    obtain ⟨rfl,rfl⟩ := runs_scopeState.mp run
    refine ⟨⟨p,c,kept⟩,fun f there => there,fun f inside => kept.knows.mpr ?_⟩
    cases there : s'.scopes[number]? with
    | none =>
      rw [there] at inside
      exact known (r.fits_empty s'.builder.output p number) f inside
    | some scope =>
      rw [there] at inside
      exact known (kept.scopes there) f inside

theorem keeps_placeFactory {factory : ConstantFactory} {elementType : NativeType} {literals : List Literal} :
    (r.discipline o).Keeps o.env needs (placeFactory factory elementType literals) noFacts := by
  refine .andThen (keeps_quiet fun run => run.place fun _ => ⟨_,_,_,rfl⟩) fun _ => ?_
  split
  · exact .done
  · exact keeps_quiet fun run => run.place fun _ => ⟨_,_,_,rfl⟩

theorem keeps_literalItems {items : List (ArrayItem Expr)} : (r.discipline o).Keeps o.env needs (literalItems items) noFacts := by
  induction items with
  | nil => exact .done
  | cons item rest ih =>
    unfold literalItems
    split
    · exact .done
    · rename_i same
      obtain ⟨-,rfl⟩ := List.cons.inj same
      exact .andThen (keeps_quiet fun run => run.literalOf) fun _ => .andThen ih fun _ => .done
    · exact .done

end

/-- What a regime of code has to say about the steps that concern blocks. -/
theorem conducts {r : Regime Finding} {o : Origin} (apart : ∀ {p f}, f.isApart = true → r.bears p f)
    (fits : ∀ {m p i scope}, r.fits m p i scope → ∀ f ∈ scope.remembered, r.bears p f)
    (recalls : ∀ {m p i state state'} {needs : List Finding}, state'.remembered ⊆ needs ++ state.remembered →
      (.unguarded ∈ needs ∨ state'.landingPad = state.landingPad) → (∀ f ∈ needs, r.bears p f) → r.fits m p i state → r.fits m p i state')
    (opens : r.Opens r) (sits : ∀ {p b}, r.bears p (.reserved b) ∨ r.bears p (.target b) → r.sits b)
    (build : ∀ {α : Type} {needs} {m : Build α} {gives}, Constructs needs m gives → (r.discipline o).Keeps o.env needs (Lower.build m) gives)
    (callAt : ∀ {needs chain target args lifetime}, (r.discipline o).Keeps o.env (.unguarded :: needs) (call chain target args lifetime) noFacts →
      (r.discipline o).Keeps o.env needs (call chain target args lifetime) noFacts) : (r.discipline o).Conducts o.env where
  apart := by
    rintro s f ⟨p,c,kept⟩ same
    exact kept.knows.mpr (apart same)
  quiet := by
    rintro s s' ⟨p,c,kept⟩ quiet
    have after := kept.quiet quiet
    exact ⟨⟨p,c,after⟩,fun f there => after.knows.mpr (kept.knows.mp there)⟩
  scopeState := keeps_scopeState fits
  modifyScope remembers lands := keeps_modifyScope fun {m p state} known =>
    recalls (remembers state) (lands.imp_right fun lands => lands state) known
  withScope inner := keeps_withScope opens fun number _ => inner number
  atBlock known inner := keeps_atBlock (fun held => sits (known.imp (held _) (held _))) inner
  switchTo known := keeps_switchTo fun held => sits (known.imp (held _) (held _))
  build := build
  callAt := callAt

end Regime

end BlockLowering
