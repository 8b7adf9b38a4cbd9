import BlockLowering.Proofs.CompositionWalk
import BlockLowering.Proofs.Landing
import BlockLowering.Proofs.Regimes
/-!
Landing pads in a run. The blocks that scopes remember are clear, and so are those that steps draw edges
to. The one step that reserves blocks is a call under a catching scope: it fills the landing pad of the
scope if it is the first, makes the block in which the call goes on and ends with the invoke. All other code is
composed of steps that draw edges to clear blocks only.
-/
namespace BlockLowering
open Lower List Procedure Regime Builder Landed SupportRoutine ScopeState Option CallTarget Subset
variable {m : Module} {p : Procedure} {α : Type} {i : Instr} {site : CallSite} {b : Builder} {label : String} {block : BlockId}
  {dest : Option Register} {ty : Ty} {number scope : Nat} {args : List Register} {target : CallTarget} {k : Continuation} {needs : List Finding}

/-- What is found about blocks in a function: edges may be drawn to clear ones, and nothing is unguarded. -/
def Finding.Clear (pending : List BlockId) (p : Procedure) : Finding → Prop
  | .target b => p.Clear pending b
  | .unguarded => False
  | .has _ | .callee _ _ | .reserved _ | .returning | .opened _ | .guarding _ => True

/-- What a scope has gathered: the blocks that it remembers are clear, its landing pad is complete. -/
structure ScopeState.Landed (m : Module) (pending : List BlockId) (p : Procedure) (scope : ScopeState) : Prop where
  remembered : ∀ f ∈ scope.remembered, f.Clear pending p
  landingPad : ∀ pad ∈ scope.landingPad, pad ∈ pending ∨ p.LandsAt m pad

/-- Functions are landed, and what is found about blocks is so. -/
def landing (pending : List BlockId) : Regime Finding where
  good m p := p.Landed m pending
  fits m p _ scope := scope.Landed m pending p
  opened _ := True
  sits _ := True
  bears p f := f.Clear pending p
  good_keep landed keeps := landed.keep keeps
  fits_keep fits keeps := ⟨fits.remembered,fun pad there => (fits.landingPad pad there).imp_right fun lands => Block.Content.Lands.keep lands keeps⟩
  fits_empty m p _ := ⟨fun f inside => absurd inside not_mem_nil,by simp [empty]⟩

section
variable {pending pending' : List BlockId} {p' : Procedure}

theorem Finding.Clear.evolve {f : Finding} (clear : f.Clear pending p) (evolves : Procedure.Evolves m pending pending' p p') :
    f.Clear pending' p' := by
  cases f with
  | target b => exact evolves.clear clear
  | unguarded => exact clear
  | _ => trivial

theorem Procedure.Evolves.regime (evolves : Procedure.Evolves m pending pending' p p') :
    (landing pending).Evolves (landing pending') m p p' where
  good := evolves.landed
  fits fits := by
    refine ⟨fun f inside => (fits.remembered f inside).evolve evolves,fun pad there => ?_⟩
    rcases fits.landingPad pad there with pend | lands
    · exact evolves.settled pend
    · exact .inr (evolves.lands lands)
  opened _ := trivial
  sits _ := trivial
  bears clear := clear.evolve evolves
  name := evolves.name

end

/-- A step that starts where some blocks are clear keeps functions landed and gives further clear blocks. -/
abbrev Clears (o : Origin) (pending : List BlockId) (needs : List Finding) (step : Lower α) (gives : α → List Finding) : Prop :=
  ((landing pending).discipline o).Keeps o.env needs step gives

namespace Clears
open Regime
variable {o : Origin} {pending : List BlockId} {needs : List Finding} {type : NativeType}

theorem unguarded {step : Lower α} {gives : α → List Finding} (free : .unguarded ∈ needs) : Clears o pending needs step gives where
  lead holds known _ := by
    obtain ⟨p,c,kept⟩ := holds
    exact (kept.knows.mp (known _ free) : False).elim

/-! ### Steps of construction -/

theorem allocRegister : Clears o pending needs (build (Build.allocRegister type)) noFacts :=
  keeps_build fun run here _ landed _ _ => by
    obtain ⟨-,rfl⟩ := run.allocRegister here
    exact ⟨_,rfl,(Landed.allocRegister landed type).regime,by simp [noFacts]⟩

theorem append (plain : ∀ record, i ≠ .landingPad record) : Clears o pending needs (build (Build.append i)) noFacts :=
  keeps_build fun run here atCursor landed _ _ => by
    obtain ⟨k,found,isOpen,rfl⟩ := run.append here atCursor
    exact ⟨_,rfl,(landed.append found isOpen (.inl plain)).regime,by simp [noFacts]⟩

theorem alloc : Clears o pending needs (build (Build.alloc type)) noFacts :=
  keeps_build fun run here _ landed _ _ => by
    obtain ⟨-,rfl⟩ := run.alloc here
    have taken := Landed.allocRegister landed .ptr
    exact ⟨_,rfl,(taken.trans taken.landed.addSlot).regime,by simp [noFacts]⟩

theorem call : Clears o pending needs (build (Build.call site)) noFacts := by
  refine .buildThen ?_ fun dest => .buildThen (append (by simp)) fun _ => .done
  unfold Build.resultRegister
  split
  · exact .done
  · exact .buildThen allocRegister fun _ => .done

theorem terminate {t : Terminator} (plain : t.isInvoke = false) (known : t.relies ⊆ needs) :
    Clears o pending needs (build (Build.terminate t)) noFacts :=
  keeps_build fun run here atCursor landed _ clear => by
    obtain ⟨k,found,isOpen,rfl⟩ := run.terminate here atCursor
    exact ⟨_,rfl,(landed.close isOpen found plain fun x inside => clear (.target x) (known (t.targets_relies plain (mem_map_of_mem inside)))).regime,by simp [noFacts]⟩

end Clears

theorem Build.Runs.makes {b' : Builder} (run : (Build.labelledBlock label).Runs b block b')
    (here : b.procedure? = some p) : ∃ p', block = p.nextBlock ∧ b' = b.put p' ∧ p.Makes p' := by
  obtain ⟨rfl,_,rfl | rfl,rfl⟩ := run.labelledBlock here
  · exact ⟨_,rfl,rfl,makes_createBlock⟩
  · exact ⟨_,rfl,rfl,makes_createBlock.relabel _⟩

namespace Clears
open Regime
variable {o : Origin} {pending : List BlockId} {needs : List Finding}

theorem labelledBlock : Clears o pending needs (build (Build.labelledBlock label)) fun b => [.target b,.reserved b] :=
  keeps_build fun run here _ landed _ _ => by
    obtain ⟨p',rfl,rfl,makes⟩ := run.makes here
    refine ⟨p',rfl,(landed.make makes (refl _) (subset_cons_self _ _)).regime,fun f inside => ?_⟩
    rcases mem_cons.mp inside with rfl | inside
    · exact landed.clear_nextBlock makes
    · exact mem_singleton.mp inside ▸ trivial

theorem phi {type : NativeType} (known : .target block ∈ needs) :
    Clears o pending needs (build (Build.phi block type)) noFacts :=
  keeps_build fun run here _ landed _ clear => by
    obtain ⟨-,-,rfl⟩ := run.phi here
    have taken := Landed.allocRegister landed type
    exact ⟨_,rfl,(taken.trans (taken.landed.rephi _ (taken.clear (clear (.target block) known)))).regime,by simp [noFacts]⟩

theorem addIncoming {source : BlockId} {dest value : Register} (known : .target block ∈ needs) :
    Clears o pending needs (build (Build.addIncoming block dest source value)) noFacts :=
  keeps_build fun run here _ landed _ clear => by
    obtain rfl := run.addIncoming here
    exact ⟨_,rfl,(rephi landed _ (clear (.target block) known)).regime,by simp [noFacts]⟩

/-! ### Continuations and handlers -/

theorem newContinuation :
    Clears o pending needs (newContinuation ty label) fun k => [.target k.block] := by
  refine .bind labelledBlock fun block => ?_
  split
  · exact .pure (by simp)
  · exact .andThen (phi (by simp)) fun _ => .pure (by simp)

theorem scopeState : Clears o pending needs (scopeState number) remembered :=
  keeps_scopeState fun {m p scope} (fits : scope.Landed m pending p) => fits.remembered

theorem modifyScope {f : ScopeState → ScopeState} (remembers : ∀ state, (f state).remembered ⊆ needs ++ state.remembered)
    (lands : ∀ state, (f state).landingPad = state.landingPad) : Clears o pending needs (modifyScope number f) noFacts :=
  keeps_modifyScope fun {m p state} clear (fits : state.Landed m pending p) =>
    ⟨fun x inside => (mem_append.mp (remembers state inside)).elim (clear x) (fits.remembered x),
      fun pad there => fits.landingPad pad (lands state ▸ there)⟩

theorem handlerOf : Clears o pending needs (handlerOf scope) fun k => [.target k.block] := by
  refine .bind scopeState fun state => ?_
  split
  · rename_i there
    exact .pure (by simp [mem_remembered.mpr (.inr ⟨_,rfl,.inl there⟩)])
  · refine .bind newContinuation fun handler => .andThen (modifyScope (remembered_handler (by simp)) fun _ => rfl) fun _ =>
      .pure (by simp)

end Clears

/-! ### Filling a landing pad -/

section
variable {o : Origin} {pad : BlockId} {s₀ s s' : State} {p₀ p p' : Procedure} {c : BlockId} {code : List Instr}
variable {m : Module} {pending : List BlockId}

/-- The landing pad at the cursor has got some code since a point of the run. -/
structure Filled (o : Origin) (pad : BlockId) (s₀ : State) (p₀ : Procedure) (code : List Instr) (s : State)
    (p : Procedure) : Prop where
  kept : (landing [pad]).Kept o s p pad
  code : ∃ k, p.graph.block? pad = some k ∧ k.phis = [] ∧ k.terminator = none ∧ k.instrs = code
  clear : ∀ {b}, p₀.Clear [pad] b → p.Clear [pad] b
  keeps : s₀.builder.output.Keeps s.builder.output

namespace Filled
variable {u : Unit} {record exception : Register}

theorem start (kept : (landing [pad]).Kept o s p pad)
    (code : ∃ k, p.graph.block? pad = some k ∧ k.phis = [] ∧ k.terminator = none ∧ k.instrs = []) :
    Filled o pad s p [] s p := ⟨kept,code,fun clear => clear,.refl _⟩

section
variable (filled : Filled o pad s₀ p₀ code s p)
include filled

theorem quiet (quiet : s.Quiet o.env s') : Filled o pad s₀ p₀ code s' p where
  kept := filled.kept.quiet quiet
  code := filled.code
  clear := filled.clear
  keeps := filled.keeps.trans (quiet.keeps filled.kept.named)

theorem take (type : NativeType) : Filled o pad s₀ p₀ code (s.put (p.allocRegister type).2) (p.allocRegister type).2 ∧
      s.builder.output.Keeps (s.put (p.allocRegister type).2).builder.output := by
  have evolves := allocRegister filled.kept.good type
  obtain ⟨kept,keeps⟩ := filled.kept.put evolves.regime
  exact ⟨⟨kept,filled.code,fun clear => evolves.clear (filled.clear clear),filled.keeps.trans keeps⟩,keeps⟩

theorem append (run : (Build.append i).Runs s.builder u b) :
    ∃ p', Filled o pad s₀ p₀ (code ++ [i]) { s with builder := b } p' ∧ s.builder.output.Keeps b.output := by
  obtain ⟨k,found,isOpen,rfl⟩ := run.append filled.kept.stands.procedure filled.kept.stands.cursor
  have evolves := Landed.append filled.kept.good (i := i) found isOpen (.inr (mem_singleton_self pad))
  obtain ⟨kept,keeps⟩ := filled.kept.put evolves.regime
  refine ⟨_,⟨kept,?_,fun clear => evolves.clear (filled.clear clear),filled.keeps.trans keeps⟩,keeps⟩
  obtain ⟨k',there,bare,-,same⟩ := filled.code
  obtain rfl := mem_unique found there
  exact ⟨k.append i,by rw [block?_modifyBlock,found,map_some,if_pos rfl],bare,isOpen,
    by rw [Block.append,same]⟩

end

theorem landingPad (filled : Filled o pad s₀ p₀ [] s p) (run : Runs (build Build.landingPad) o.env s record s') :
    ∃ p', Filled o pad s₀ p₀ [.landingPad record] s' p' := by
  obtain ⟨b,built,rfl⟩ := runs_build.mp run
  unfold Build.landingPad Build.define at built
  simp only [Build.runs_bind] at built
  obtain ⟨dest,b₁,taken,_,b₂,appended,rest⟩ := built
  obtain ⟨rfl,rfl⟩ := Build.runs_pure.mp rest
  obtain ⟨-,rfl⟩ := taken.allocRegister filled.kept.stands.procedure
  obtain ⟨p',filled',-⟩ := (filled.take .ptr).1.append appended
  exact ⟨p',filled'⟩

theorem callSupport (filled : Filled o pad s₀ p₀ code s p) {routine : SupportRoutine}
    {s₁ : State} (targeted : Runs (supportTarget routine) o.env s target s₁)
    (called : Runs (callPlain target args) o.env s₁ dest s') : ∃ p' proc, Filled o pad s₀ p₀
        (code ++ [.call dest ⟨.direct proc,args,routine.header.signature,.irrelevant⟩]) s' p' ∧
      s.builder.output.Keeps s'.builder.output ∧ s'.builder.output.symbol? proc = some routine.symbol ∧
      (dest = none ↔ routine.header.signature.returnsVoid = true) := by
  obtain ⟨quiet,proc,rfl,symbol⟩ := targeted.supportTarget
  have filled₁ := filled.quiet quiet
  have named := symbol filled.kept.named
  have keeps₁ := quiet.keeps filled.kept.named
  obtain ⟨b,built,rfl⟩ := runs_build.mp called
  unfold Build.call at built
  simp only [Build.runs_bind] at built
  obtain ⟨taken,b₁,took,_,b₂,appended,rest⟩ := built
  obtain ⟨rfl,rfl⟩ := Build.runs_pure.mp rest
  rcases took.resultRegister filled₁.kept.stands.procedure with ⟨rfl,void,rfl⟩ | ⟨rfl,valued,rfl⟩
  · obtain ⟨p',filled',keeps⟩ := filled₁.append appended
    exact ⟨p',proc,filled',keeps₁.trans keeps,keeps.symbols named,by simp [void]⟩
  · obtain ⟨filled₂,keeps₂⟩ := filled₁.take routine.header.signature.result
    obtain ⟨p',filled',keeps⟩ := filled₂.append appended
    exact ⟨p',proc,filled',(keeps₁.trans keeps₂).trans keeps,(keeps₂.trans keeps).symbols named,by simp [valued]⟩

theorem extractException (filled : Filled o pad s₀ p₀ code s p) (run : Runs (extractException record) o.env s exception s') :
    ∃ p' begin finish, Filled o pad s₀ p₀ (code ++ (landingCode record exception begin finish).tail) s' p' ∧
      s'.builder.output.symbol? begin = some beginCatch.symbol ∧
      s'.builder.output.symbol? finish = some endCatch.symbol := by
  unfold Lower.extractException at run
  simp only [runs_bind,runs_produced] at run
  obtain ⟨target,s₁,targeted,dest,s₂,called,_,_,⟨rfl,rfl⟩,target',s₃,targeted',dest',s₄,called',rest⟩ := run
  obtain ⟨rfl,rfl⟩ := runs_pure.mp rest
  obtain ⟨p₁,begin,filled₁,-,begins,-⟩ := filled.callSupport targeted called
  obtain ⟨p₂,finish,filled₂,keeps,finishes,void⟩ := filled₁.callSupport targeted' called'
  obtain rfl := void.mpr (by decide)
  refine ⟨p₂,begin,finish,?_,keeps.symbols begins,finishes⟩
  rw [append_assoc] at filled₂
  exact filled₂

section
variable {begin finish : ProcId} (filled : Filled o pad s₀ p₀ (landingCode record exception begin finish) s p)
  (begins : s.builder.output.symbol? begin = some beginCatch.symbol)
  (finishes : s.builder.output.symbol? finish = some endCatch.symbol)
include filled begins finishes

theorem branch {handler : BlockId} (clear : p.Clear [pad] handler) (run : (Build.branch handler).Runs s.builder u b) :
    ∃ p', b = s.builder.put p' ∧ (landing [pad]).Kept o (s.put p') p' pad ∧
      p'.LandsAt (s.put p').builder.output pad ∧ ∀ {x}, p.Clear [pad] x → p'.Clear [pad] x := by
  obtain ⟨k,found,isOpen,rfl⟩ := run.terminate filled.kept.stands.procedure filled.kept.stands.cursor
  have evolves := close filled.kept.good (t := .branch handler) isOpen found rfl
    fun x inside => mem_singleton.mp inside ▸ clear
  obtain ⟨kept,keeps⟩ := filled.kept.put evolves.regime
  obtain ⟨k',there,bare,-,code⟩ := filled.code
  obtain rfl := mem_unique found there
  refine ⟨_,rfl,kept,?_,evolves.clear⟩
  rw [LandsAt,filled.kept.good.extends_refl.content_close found,if_pos rfl,content_eq found]
  exact ⟨bare,record,exception,begin,finish,handler,code,rfl,keeps.symbols begins,keeps.symbols finishes⟩

theorem jump {handler : Continuation} (clear : p.Clear [pad] handler.block)
    (run : Runs (jump handler (.ofRegister exception .object)) o.env s u s') :
    ∃ p', (landing [pad]).Kept o s' p' pad ∧ p'.LandsAt s'.builder.output pad ∧ ∀ {x}, p₀.Clear [pad] x → p'.Clear [pad] x := by
  have goesOn : s.builder.isTerminated = false := by
    obtain ⟨k,there,-,isOpen,-⟩ := filled.code
    exact filled.kept.stands.notEnded ⟨k,there,isOpen⟩
  unfold Lower.jump at run
  simp only [runs_bind,runs_isTerminated,goesOn,and_assoc,exists_and_left,exists_eq_left,
    Bool.false_eq_true,if_false] at run
  obtain ⟨source,s₁,placed,run⟩ := run
  obtain ⟨b₁,built,rfl⟩ := runs_build.mp placed
  obtain ⟨-,rfl⟩ := Build.runs_insertionBlock.mp built
  split at run
  · obtain ⟨b,ended,rfl⟩ := runs_build.mp run
    obtain ⟨p',rfl,kept,lands,mono⟩ := filled.branch begins finishes clear ended
    exact ⟨p',kept,lands,fun before => mono (filled.clear before)⟩
  · rename_i phi merges
    simp only [runs_bind,materialize,Value.ofRegister,runs_pure,and_assoc,exists_and_left,
      exists_eq_left] at run
    obtain ⟨b,built,rfl⟩ := runs_build.mp run
    obtain ⟨_,b₁,ended,recorded⟩ := Build.runs_bind.mp built
    obtain ⟨p',rfl,kept,lands,mono⟩ := filled.branch begins finishes clear ended
    obtain rfl := recorded.addIncoming kept.stands.procedure
    have evolves := rephi kept.good (fun k => Build.withIncoming phi (source, exception) k.phis) (mono clear)
    obtain ⟨kept',keeps⟩ := kept.put evolves.regime
    exact ⟨_,kept',Block.Content.Lands.keep (evolves.lands lands) keeps,fun before => evolves.clear (mono (filled.clear before))⟩

end

end Filled

theorem Lower.Runs.newContinuation_block?
    (landed : p.Landed m pending) (here : s.builder.procedure? = some p) (run : Runs (Lower.newContinuation ty label) o.env s k s') :
    ∃ p', s'.builder.procedure? = some p' ∧ ∀ {x b}, p.graph.block? x = some b → p'.graph.block? x = some b := by
  unfold Lower.newContinuation at run
  simp only [runs_bind] at run
  obtain ⟨block,s₁,made,run⟩ := run
  obtain ⟨b₁,built,rfl⟩ := runs_build.mp made
  obtain ⟨p₁,rfl,rfl,makes⟩ := built.makes here
  have kept : ∀ {x b}, p.graph.block? x = some b → p₁.graph.block? x = some b := fun found =>
    (makes.others (landed.nextBlock_ne found)).trans found
  have here₁ : (s.builder.put p₁).procedure? = some p₁ := procedure?_put here
  split at run
  · obtain ⟨rfl,rfl⟩ := runs_pure.mp run
    exact ⟨p₁,here₁,kept⟩
  · simp only [runs_bind] at run
    obtain ⟨phi,s₂,merged,rest⟩ := run
    obtain ⟨rfl,rfl⟩ := runs_pure.mp rest
    obtain ⟨b₂,built,rfl⟩ := runs_build.mp merged
    obtain ⟨-,-,rfl⟩ := built.phi here₁
    refine ⟨_,procedure?_put here₁,fun {x b} found => ?_⟩
    rw [block?_modifyBlock]
    have there : (p₁.allocRegister ty.storage).2.graph.block? x = some b := kept found
    rw [there,map_some,if_neg (landed.nextBlock_ne found)]

theorem Lower.Runs.handlerOf_block?
    (landed : p.Landed m pending) (here : s.builder.procedure? = some p) (run : Runs (handlerOf scope) o.env s k s') :
    ∃ p', s'.builder.procedure? = some p' ∧ ∀ {x b}, p.graph.block? x = some b → p'.graph.block? x = some b := by
  unfold handlerOf at run
  simp only [runs_bind,runs_scopeState,and_assoc,exists_and_left,exists_eq_left] at run
  split at run
  · obtain ⟨rfl,rfl⟩ := runs_pure.mp run
    exact ⟨p,here,fun found => found⟩
  · simp only [runs_bind,runs_modifyScope] at run
    obtain ⟨handler,s₁,made,_,_,rfl,rest⟩ := run
    obtain ⟨rfl,rfl⟩ := runs_pure.mp rest
    obtain ⟨p',here',kept⟩ := made.newContinuation_block? landed here
    exact ⟨p',here',kept⟩


/-- The landing pad of a scope, made now or before, is complete. A new one stays pending until an invoke
    unwinds to it. -/
theorem Lower.Runs.landingPadOf (kept : (landing []).Kept o s p c) (run : Runs (landingPadOf scope) o.env s pad s') :
    ∃ pending p' c', (landing pending).Kept o s' p' c' ∧ pending ⊆ [pad] ∧ p'.LandsAt s'.builder.output pad ∧
      ∀ {b}, p.Clear [] b → p'.Clear pending b := by
  unfold Lower.landingPadOf at run
  simp only [runs_bind,runs_scopeState,and_assoc,exists_and_left,exists_eq_left] at run
  split at run
  · rename_i known there
    obtain ⟨rfl,rfl⟩ := runs_pure.mp run
    have lands : p.LandsAt s'.builder.output pad := by
      cases gathered : s'.scopes[scope]? with
      | none => simp [gathered,empty] at there
      | some state =>
        rw [gathered] at there
        exact ((kept.scopes gathered).landingPad pad there).resolve_left (by simp)
    exact ⟨[],p,c,kept,by simp,lands,fun clear => clear⟩
  · simp only [runs_bind,runs_modifyScope,runs_log] at run
    obtain ⟨_,s₁,made,_,_,rfl,handler,s₂,handled,_,s₃,filling,_,_,rfl,rest⟩ := run
    obtain ⟨rfl,rfl⟩ := runs_pure.mp rest
    -- The pad is pending from the moment it exists.
    obtain ⟨b₁,built,rfl⟩ := runs_build.mp made
    obtain ⟨p₁,rfl,rfl,makes⟩ := built.makes kept.stands.procedure
    have evolves : Procedure.Evolves _ [] [p.nextBlock] p p₁ := Landed.make kept.good makes (by simp) (by simp)
    have kept₁ := (kept.put evolves.regime).1
    have kept₂ := kept₁.rescope (s.scopes.modify scope fun s => { s with landingPad := some p.nextBlock })
      trivial fun {i state} there => by
        rw [Array.getElem?_modify] at there
        split at there
        · obtain ⟨old,before,rfl⟩ := map_eq_some_iff.mp there
          have fits : old.Landed _ _ p₁ := kept₁.scopes before
          refine ⟨fun f inside => ?_,fun pad there => .inl (by simp_all)⟩
          rcases mem_remembered.mp inside with ⟨pad,rfl,-⟩ | target
          · trivial
          · exact fits.remembered f (mem_remembered.mpr (.inr target))
        · exact kept₁.scopes there
    have handles : Clears o [p.nextBlock] [] (handlerOf scope) fun k => [.target k.block] := .handlerOf
    obtain ⟨⟨p₂,c₂,kept₃⟩,persists,given⟩ := handles.lead ⟨_,_,kept₂⟩ (by simp) handled
    obtain ⟨p₂',here₂,old⟩ := handled.handlerOf_block? kept₂.good kept₂.stands.procedure
    obtain rfl := kept₃.unique here₂
    obtain ⟨s₄,inner,rfl⟩ := runs_atBlock.mp filling
    obtain ⟨k,found,blank⟩ := makes.blank
    have filled := Filled.start (kept₃.moveTo trivial) ⟨k,old found,blank⟩
    simp only [runs_bind] at inner
    obtain ⟨record,s₅,padded,exception,s₆,extracted,jumped⟩ := inner
    obtain ⟨p₃,filled₁⟩ := filled.landingPad padded
    obtain ⟨p₄,begin,finish,filled₂,begins,finishes⟩ := filled₁.extractException extracted
    have target : p₂'.Clear [p.nextBlock] handler.block := kept₃.knows.mp (given _ (mem_singleton_self _))
    obtain ⟨p₅,kept₄,lands,mono⟩ := Filled.jump filled₂ begins finishes (filled₂.clear target) jumped
    have kept₅ := (kept₄.moveTo (b := c₂) trivial).quiet (.logged o.env _ (.landingPad p.nextBlock scope :: s₄.log))
    rw [State.moveTo,← kept₃.stands.cursor] at kept₅
    exact ⟨[p.nextBlock],p₅,c₂,kept₅,by simp,lands,
      fun clear => mono (kept₃.knows.mp (persists (.target _) (kept₂.knows.mpr (evolves.clear clear))))⟩

theorem Build.Runs.invokes {b₁ b₂ : Builder} {normal : BlockId}
    (landed : p.Landed m pending) (only : pending ⊆ [pad]) (lands : p.LandsAt m pad) (here : b.procedure? = some p) (atCursor : b.cursor = some c)
    (made : (Build.labelledBlock label).Runs b normal b₁) (invoked : (Build.invoke site normal pad).Runs b₁ dest b₂) :
    ∃ p', b₂ = b.put p' ∧ Procedure.Evolves m pending [] p p' := by
  obtain ⟨p₁,rfl,rfl,makes⟩ := made.makes here
  have here₁ : (b.put p₁).procedure? = some p₁ := procedure?_put here
  -- Whether the call has a result does not matter to the blocks.
  have ended : ∀ {p₂ b₃ u}, (Build.terminate (.invoke dest site p.nextBlock pad)).Runs b₃ u b₂ → b₃ = b.put p₂ → p.Makes p₂ →
      ∃ p', b₂ = b.put p' ∧ Procedure.Evolves m pending [] p p' := by
    rintro p₂ _ u run rfl makes
    obtain ⟨k,found,isOpen,rfl⟩ := run.terminate (procedure?_put here) (put_cursor.trans atCursor)
    exact ⟨_,put_put,landed.invoke makes only lands found isOpen⟩
  unfold Build.invoke at invoked
  simp only [Build.runs_bind] at invoked
  obtain ⟨taken,b₃,took,_,b₄,terminated,rest⟩ := invoked
  obtain ⟨rfl,rfl⟩ := Build.runs_pure.mp rest
  rcases took.resultRegister here₁ with ⟨rfl,-,rfl⟩ | ⟨rfl,-,rfl⟩
  · exact ended terminated rfl makes
  · exact ended terminated put_put ⟨makes.entry,makes.next,makes.name,makes.others,makes.blank⟩

theorem Clears.callAt {chain : Chain} {lifetime : Lifetime} :
    Clears o [] needs (Lower.call chain target args lifetime) noFacts := by
  refine .andThen .lift fun catcher => ?_
  split
  · rename_i scope
    split
    · constructor
      rintro s dest s' ⟨p,c,kept⟩ known run
      simp only [runs_bind] at run
      obtain ⟨unwind,s₁,landed,normal,s₂,made,_,s₃,invoked,_,s₄,moved,rest⟩ := run
      obtain ⟨rfl,rfl⟩ := runs_pure.mp rest
      obtain ⟨pending,p₁,c₁,kept₁,only,lands,mono⟩ := landed.landingPadOf kept
      obtain ⟨b₂,creating,rfl⟩ := runs_build.mp made
      obtain ⟨b₃,ending,rfl⟩ := runs_build.mp invoked
      obtain ⟨b₄,moving,rfl⟩ := runs_build.mp moved
      obtain rfl := Build.runs_switchTo.mp moving
      obtain ⟨p',rfl,evolves⟩ := creating.invokes kept₁.good only lands kept₁.stands.procedure kept₁.stands.cursor ending
      have after := (kept₁.put evolves.regime).1.moveTo (b := normal) trivial
      refine ⟨⟨p',normal,after⟩,fun f there => after.knows.mpr ?_,by simp [noFacts]⟩
      have clear := kept.knows.mp there
      cases f with
      | target b => exact evolves.clear (mono clear)
      | unguarded => exact clear
      | _ => trivial
    · exact call
  · exact call

end

theorem conducts_landing (o : Origin) : ((landing []).discipline o).Conducts o.env := by
  refine Regime.conducts (fun {p f} apart => ?_) (fun (fits : ScopeState.Landed _ _ _ _) => fits.remembered)
    (fun remembers lands known (fits : ScopeState.Landed _ _ _ _) => ⟨fun f inside => ?_,fun pad there => ?_⟩)
    ⟨Iff.rfl,Iff.rfl,Iff.rfl,fun _ _ => Iff.rfl,fun _ => trivial,fun _ _ => trivial⟩ (fun _ => trivial) (fun constructs => ?_) fun _ => Clears.callAt
  · cases f <;> trivial
  · exact (mem_append.mp (remembers inside)).elim (known f) (fits.remembered f)
  · rcases lands with free | lands
    · exact (known _ free : False).elim
    · exact fits.landingPad pad (lands ▸ there)
  · cases constructs with
    | allocRegister => exact Clears.allocRegister
    | append _ plain => exact plain.elim Clears.unguarded Clears.append
    | alloc => exact Clears.alloc
    | labelledBlock => exact Clears.labelledBlock
    | phi known => exact Clears.phi known
    | addIncoming known => exact Clears.addIncoming known
    | terminate known plain => exact plain.elim Clears.unguarded fun plain => Clears.terminate plain known

theorem Composed.clears {o : Origin} {step : Lower α} {gives : α → List Finding}
    (composed : Composed needs step gives) : Clears o [] needs step gives := composed.kept (conducts_landing o)

end BlockLowering
