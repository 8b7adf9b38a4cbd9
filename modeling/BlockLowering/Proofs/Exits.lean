import BlockLowering.Proofs.Unwinding
/-!
Passes over expressions, and exits. Two passes over the children of a node that keep their stance and agree
with each other give the same lowering of the node, which keeps its stance: there is a value exactly if code
can follow. An exit through a finalizer goes by a cleanup block. The block counts on what had values when its
scope was opened, and it is filled outside that scope, where no more is needed.
-/
namespace BlockLowering
open List ScopeKind Value State Chain Outset Option
variable {available : List Register} {ahead : List Ahead} {known : List Joint} {exit : Exit} {k : Continuation} {s : State} {id : Nat}

def Value.registers? : Option Value → List Register
  | some v => v.registers
  | none => []

namespace Lower
variable {α β : Type} {env : Environment} {roots : Expr → Prop} {r r' : Recurse} {chain : Chain} {n : Nat}
  {needs : List Register} {e : Expr} {v : Value} {s s' : State}

theorem Runs.eval {found : Option Value} (run : Runs (eval r chain e) env s found s') : ∃ v, Runs (r chain e) env s v s' ∧
      ((found = none ∧ (v.isUnreachable = true ∨ s'.Closed)) ∨ (found = some v ∧ v.isUnreachable = false ∧ ¬ s'.Closed)) := by
  obtain ⟨v,s₁,lowered,run⟩ := runs_bind.mp run
  obtain ⟨ended,_,tested,run⟩ := runs_bind.mp run
  obtain ⟨rfl,rfl⟩ := runs_isTerminated.mp tested
  refine ⟨v,?_⟩
  split at run
  · rename_i spent
    obtain ⟨rfl,rfl⟩ := runs_pure.mp run
    exact ⟨lowered,.inl ⟨rfl,by simpa [State.Closed] using spent⟩⟩
  · rename_i spent
    obtain ⟨rfl,rfl⟩ := runs_pure.mp run
    exact ⟨lowered,.inr ⟨rfl,by simpa [State.Closed] using spent⟩⟩

/-- Where the registers in `needs` have values and code can follow, two passes have the same outcome; `live`
    says for which results code can follow in the end. -/
structure Carries (env : Environment) (roots : Expr → Prop) (r r' : Recurse) (chain : Chain) (needs : List Register)
    (m : Recurse → Lower α) (gives : α → List Register) (live : α → Prop) : Prop where
  agree : ∀ {o : Outset env roots chain} {available ahead known s}, Stance o available ahead known True s →
    needs ⊆ available → Agree env r r' m s fun a s' => Stance o (gives a ++ available) ahead known (live a) s'

/-- A tree that stands somewhere in the program and is not too large to be lowered in a chain of scopes. -/
structure Admits (roots : Expr → Prop) (n : Nat) (chain : Chain) (e : Expr) : Prop where
  small : chain.weight + e.size ≤ n
  within : Expr.Within roots e

/-- Two passes over trees up to a size have the same outcome; there is a value exactly if code can follow in
    the end. The first of them is lowering with a bound on the depth. -/
structure Lowers (env : Environment) (roots : Expr → Prop) (n : Nat) (r r' : Recurse) : Prop where
  agree : ∀ {chain e} {o : Outset env roots chain} {available ahead known live s}, Admits roots n chain e →
    Stance o available ahead known live s → Agree env r r' (fun r => r chain e) s fun v s' =>
      Stance o (v.registers ++ available) ahead known v.Completes s'
  bounded : ∀ chain e, ∃ depth, r chain e = lowerWithin depth chain e

namespace Carries
variable {gives : β → List Register} {live : β → Prop}

protected theorem pure {b : β} (old : gives b ⊆ needs) (completes : live b) :
    Carries env roots r r' chain needs (fun _ => pure b) gives live :=
  ⟨fun stance held => Safe.agree ((stance.also fun _ h => held (old h)).congr (iff_of_true trivial completes))⟩

protected theorem throw {e : Error} (inProgram : e.inProgram = true) :
    Carries env roots r r' chain needs (fun _ => (throw e : Lower β)) gives live := ⟨fun _ _ => Safe.agree inProgram⟩

theorem after {m : Lower α} {f : Recurse → α → Lower β} {gives' : α → List Register} (first : Flows env roots chain needs m gives')
    (rest : ∀ a, Carries env roots r r' chain (gives' a ++ needs) (fun r => f r a) gives live) :
    Carries env roots r r' chain needs (fun r => m >>= f r) gives live :=
  ⟨fun stance held => (stance.flow first held).agree.bind fun a _ there =>
    ((rest a).agree there (append_subset_append _ held)).mono fun _ _ done => done.keep stance.covered⟩

theorem ending {m : Recurse → Lower α} {stop : β}
    (first : Carries env roots r r' chain needs m nothing fun _ => False) (old : gives stop ⊆ needs) (dead : ¬ live stop) :
    Carries env roots r r' chain needs (fun r => m r >>= fun _ => pure stop) gives live :=
  ⟨fun stance held => (first.agree stance held).bind fun _ _ done =>
    Safe.agree ((done.also fun _ h => held (old h)).dead id dead)⟩

theorem option {m : Recurse → Lower (Option α)} {f : Recurse → Option α → Lower β} {gives' : Option α → List Register} {stop : β}
    (first : Carries env roots r r' chain needs m gives' fun found => found.isSome = true)
    (ended : ∀ r, f r none = pure stop) (old : gives stop ⊆ needs) (dead : ¬ live stop)
    (rest : ∀ a, Carries env roots r r' chain (gives' (some a) ++ needs) (fun r => f r (some a)) gives live) :
    Carries env roots r r' chain needs (fun r => m r >>= f r) gives live := by
  refine ⟨fun stance held => (first.agree stance held).bind fun found s' there => ?_⟩
  cases found with
  | none =>
    simp only [ended]
    have whole := there.also fun _ h => mem_append_right _ (held (old h))
    exact Safe.agree ((whole.keep stance.covered).dead nofun dead)
  | some a =>
    refine ((rest a).agree (there.congr (iff_of_true rfl trivial)) (append_subset_append _ held)).mono fun _ _ done => ?_
    exact done.keep stance.covered

theorem straight {m : Lower β} (flows : Flows env roots chain needs m gives)
    (completes : ∀ b s s', Runs m env s b s' → live b) : Carries env roots r r' chain needs (fun _ => m) gives live :=
  ⟨fun stance held => Safe.agree ((stance.flow flows held).and_runs.mono fun b s' done =>
    done.1.congr (iff_of_true trivial (completes b _ s' done.2)))⟩

theorem toValue {m : Lower Register} {ty : Ty} (flows : Flows env roots chain needs m fun r => [r]) :
    Carries env roots r r' chain needs (fun _ => do return ofRegister (← m) ty) registers Value.Completes :=
  .after flows fun _ => .pure (subset_append_left _ _) rfl

end Carries

namespace Lowers
variable (lowers : Lowers env roots n r r')
include lowers

theorem eval {o : Outset env roots chain} {live : Prop}
    (admits : Admits roots n chain e) (stance : Stance o available ahead known live s) :
    Agree env r r' (fun r => eval r chain e) s fun found s' =>
      (∀ v ∈ found, v.Completes) ∧ Stance o (registers? found ++ available) ahead known (found.isSome = true) s' := by
  refine (lowers.agree admits stance).bind fun v s' done => .after rfl ?_
  cases completes : v.isUnreachable with
  | true =>
    refine Safe.agree ⟨nofun,(done.forget (subset_append_right _ _) stance.covered).dead ?_ nofun⟩
    simp [Value.Completes,completes]
  | false =>
    simp only [done.notEnded completes]
    exact Safe.agree ⟨fun w same => some.inj same ▸ completes,done.congr (iff_of_true completes rfl)⟩

theorem awayFrom {o : Outset env roots chain}
    (admits : Admits roots n chain e) (stance : Stance o available ahead known True s) (away : s.Away o.kept) :
    Agree env r r' (fun r => r chain e) s fun v s' =>
      Stance o (v.registers ++ available) ahead known v.Completes s' ∧ s'.Away o.kept := by
  obtain ⟨supply,p,c,point⟩ := stance.point
  refine (lowers.agree admits ⟨supply,p,c,point.fresh⟩).mono fun v s' done => ?_
  obtain ⟨supply',p',c',after⟩ := done.point
  refine ⟨⟨supply',p',c',point.since after⟩,fun {q} here isOpen => ?_⟩
  obtain ⟨q',here',later⟩ := after.led.later point.standing.stands.procedure
  obtain rfl := Option.mem_unique here here'
  rw [later.grows.entry] at isOpen ⊢
  exact away point.standing.stands.procedure (later.grows.isOpen point.standing.sound.entry isOpen)

theorem evalThen {f : Recurse → Option Value → Lower β} {gives : β → List Register} {live : β → Prop} {stop : β}
    (admits : Admits roots n chain e) (ended : ∀ r, f r none = pure stop) (old : gives stop ⊆ needs) (dead : ¬ live stop)
    (rest : ∀ v, v.Completes → Carries env roots r r' chain (v.registers ++ needs) (fun r => f r (some v)) gives live) :
    Carries env roots r r' chain needs (fun r => Lower.eval r chain e >>= f r) gives live := by
  refine ⟨fun stance held => (lowers.eval admits stance).bind fun found s' ⟨completes,done⟩ => ?_⟩
  cases found with
  | none =>
    simp only [ended]
    exact Safe.agree ((done.also fun _ h => held (old h)).dead nofun dead)
  | some v =>
    have done : Stance _ (v.registers ++ _) _ _ True s' := done.congr (iff_of_true rfl trivial)
    exact ((rest v (completes v rfl)).agree done (append_subset_append _ held)).mono fun _ _ done => done.keep stance.covered

end Lowers

end Lower

/-! ### The innermost scope -/

section
variable {env : Environment} {roots : Expr → Prop} {chain : Chain} {scope : Scope} {o : Outset env roots (scope :: chain)}
  {available : List Register} {ahead : List Ahead} {known : List Joint} {live : Prop} {s : State} {level : Level}

theorem Stance.innermost (stance : Stance o available ahead known live s) :
    ∃ level levels, o.levels = level :: levels ∧ level.anchor ⊆ available := by
  obtain ⟨supply,p,c,point⟩ := stance.point
  have fits := point.standing.fits
  have covered := point.standing.covered
  cases same : o.levels with
  | nil => exact (same ▸ fits).elim
  | cons level levels =>
    rw [same] at fits covered
    exact ⟨level,levels,rfl,fun _ h => covered level rfl (fits.2.1 h)⟩

section
variable {supply supply' : Supply} {p p' : Procedure} {c c' : BlockId} {levels : List Level}
  {ahead' : List Ahead} {known' : List Joint} {s' : State}

theorem Point.innermost (point : Point o available ahead known live supply s p c) (same : o.levels = level :: levels) :
    ∃ state, s.scopes[scope.id]? = some state ∧ ScopeFits roots supply p (o.waits.plus ahead).targets scope.kind level state := by
  have fits := point.standing.fits
  rw [same] at fits
  exact fits.1

/-- The outset of a part of a run outside the innermost scope, whose handler is waited for. -/
def Outset.outer (o : Outset env roots (scope :: chain)) (supply : Supply) (s : State) : Outset env roots chain where
  levels := o.levels.tail
  owner := none
  waits := o.waits.aside (handlerBlock s.scopes scope.id).toList
  kept := o.kept
  supply := supply
  state := s

section
variable (standing : Standing env roots supply s p c (scope :: chain) o.levels available (o.waits.plus ahead))
  (same : o.levels = level :: levels)
include standing same

theorem Standing.outer :
    Standing env roots supply s p c chain (o.outer supply s).levels available ((o.outer supply s).waits.plus ahead) := by
  rw [same] at standing
  have out := standing.outward.await (Waits.aside_plus o.waits (handlerBlock s.scopes scope.id).toList ahead).1
  have tail : (o.outer supply s).levels = levels := by rw [outer,same]; rfl
  exact tail ▸ out

theorem Point.inward (point : Point (o.outer supply s) available ahead' known' live supply' s' p' c')
    (settled : ∀ {state}, ScopeFits roots supply' p' (o.waits.plus ahead).targets scope.kind level state →
      ScopeFits roots supply' p' (o.waits.plus ahead').targets scope.kind level state) :
    Standing env roots supply' s' p' c' (scope :: chain) o.levels available (o.waits.plus ahead') ∧
      Leads (scope :: chain) none supply s supply' s' ∧ s'.cleanups scope.id = s.cleanups scope.id := by
  rw [same] at standing ⊢
  have tail : (o.outer supply s).levels = levels := by rw [outer,same]; rfl
  have inner := point.standing
  rw [tail] at inner
  obtain ⟨inside,leads,kept⟩ := Standing.inward standing.fits standing.stands.procedure point.led
    (inner.await (Waits.aside_plus o.waits (handlerBlock s.scopes scope.id).toList ahead').2) (standing.covered level rfl) settled
  refine ⟨inside,leads,?_⟩
  funext exit
  rw [cleanups,kept,cleanups]

end

end

section
variable {r r' : Recurse} {F : Recurse → Lower Unit} {Q : State → Prop}

theorem Stance.outside {live' : Prop} (stance : Stance o available ahead known live s)
    (inner : ∀ {o' : Outset env roots chain}, Stance o' available ahead known live s →
      Lower.Agree env r r' F s fun _ s' => Stance o' available ahead known live' s' ∧ Q s') :
    Lower.Agree env r r' F s fun _ s' => Stance o available ahead known live' s' ∧ Q s' := by
  obtain ⟨level,levels,same,-⟩ := stance.innermost
  obtain ⟨supply,p,c,point⟩ := stance.point
  have out : Point (o.outer supply s) available ahead known live supply s p c :=
    { point with
      standing := point.standing.outer same
      led := .refl _ _ _ _
      tidy := point.tidy.fresh.tail }
  refine (inner ⟨supply,p,c,out⟩).mono fun _ s' ⟨⟨supply',p',c',point'⟩,done⟩ => ⟨?_,done⟩
  obtain ⟨inside,leads,kept⟩ := Point.inward point.standing same point' fun fits => fits
  exact ⟨supply',p',c',{ point' with
    standing := inside
    led := point.led.trans (leads.widen fun _ h => h)
    tidy := point.tidy.inward point'.tidy leads.ensues (fun known => by rwa [kept]) fun _ known => .inl (by rwa [kept] at known) }⟩

theorem Stance.cleaning {levels : List Level} (same : o.levels = level :: levels)
    (stance : Stance o available (⟨k,level.anchor,.target⟩ :: ahead) known True s) (new : s.cleanups scope.id exit = none)
    (inner : ∀ {o' : Outset env roots chain}, Covered o'.levels level.anchor →
      Stance o' available (⟨k,level.anchor,.target⟩ :: ahead) known True (s.remember scope.id exit k) →
      Lower.Agree env r r' F (s.remember scope.id exit k) fun _ s' =>
        Stance o' available ahead ((k, level.anchor) :: known) False s' ∧ Q s')
    (filled : ∀ {s' finalizer}, Q s' → scope.kind = .finalizing finalizer →
      Cleans env s' chain finalizer exit (Departs env s' exit chain) k) :
    Lower.Agree env r r' F (s.remember scope.id exit k) fun _ s' =>
      Stance o available ahead known False s' ∧ s'.cleanups scope.id exit = some k ∧ Q s' := by
  obtain ⟨supply,p,c,point⟩ := stance.point
  obtain ⟨state,found,fits⟩ := point.innermost same
  have member : (scope, level) ∈ (scope :: chain).zip o.levels := by
    rw [same]
    exact (.head _)
  have chainFits := point.standing.fits
  rw [same] at chainFits
  obtain ⟨-,-,covered,ordered,-⟩ := chainFits
  have entry : (s.remember scope.id exit k).cleanups scope.id exit = some k ∧
      ∀ {i other}, i ≠ scope.id ∨ other ≠ exit → (s.remember scope.id exit k).cleanups i other = s.cleanups i other :=
    cleanups_remember (Array.getElem?_eq_some_iff.mp found).1
  have outerSame : ∀ other ∈ chain, (s.remember scope.id exit k).cleanups other.id = s.cleanups other.id :=
    fun other inside => funext fun _ => entry.2 (.inl (Nat.ne_of_lt (ordered other inside)))
  obtain ⟨after,leads,-⟩ := point.standing.changeScope (f := fun state => { state with cleanups := state.cleanups.insert exit k })
    member found
    { fits with
      cleanups := fun {other k'} entered => by
        exact Table.of_insert entered ⟨point.ahead _ (.head _),.inl (.head _)⟩ fits.cleanups } rfl (.inr rfl)
  have out : Point (o.outer supply (s.remember scope.id exit k)) available (⟨k,level.anchor,.target⟩ :: ahead) known True supply
      (s.remember scope.id exit k) p c :=
    { point with
      standing := Standing.outer after same
      led := .refl _ _ _ _
      footing := point.footing.reorder (.of_eq (congrArg (_ ++ ·) (handlers_modify_same found rfl).symm))
      tidy := (point.tidy.fresh.tail.later leads.ensues outerSame).fresh }
  have covered : Covered (o.outer supply (s.remember scope.id exit k)).levels level.anchor := by
    rw [outer,same]
    exact covered
  refine (inner covered ⟨supply,p,c,out⟩).mono fun _ s' ⟨⟨supply',p',c',point'⟩,done⟩ => ?_
  obtain ⟨inside,leads',kept⟩ := Point.inward after same point' fun fits =>
    fits.map id fun awaited => awaited.drop ((point'.known _ (.head _)).2.later (.refl _) (nil_subset _))
  have kept : s'.cleanups scope.id = (s.remember scope.id exit k).cleanups scope.id := kept
  have whole := leads.trans leads'
  refine ⟨⟨supply',p',c',{ point' with
    standing := inside
    led := point.led.trans (whole.widen fun _ h => h)
    known := fun j member => point'.known j (.tail _ member)
    tidy := ?_ }⟩,(congrFun kept exit).trans entry.1,done⟩
  have outer : Tidy env chain s s' :=
    ⟨fun other member {_ _} known => point'.tidy.kept other member ((congrFun (outerSame other member) _).trans known),
      point'.tidy.tended⟩
  refine point.tidy.inward outer whole.ensues (fun {exit' k'} known => ?_) fun {finalizer exit' k'} kind known => ?_
  · have differs : exit' ≠ exit := by
      rintro rfl
      simp [new] at known
    rw [kept,entry.2 (.inr differs),known]
  · rw [kept] at known
    by_cases isNew : exit' = exit
    · subst isNew
      cases (entry.1.symm.trans known)
      exact .inr (filled done kind)
    · exact .inl ((entry.2 (.inr isNew)).symm.trans known)

end

end

/-! ### Exits -/

namespace Lower
variable {env : Environment} {roots : Expr → Prop} {r r' : Recurse} {chain : Chain} {n : Nat} {needs : List Register} {v : Value}

theorem carries_returnFrom {returnsVoid : Bool} (completes : v.Completes) (held : v.registers ⊆ needs) :
    Carries env roots r r' chain needs (fun _ => returnFrom returnsVoid v) nothing fun _ => False := by
  refine ⟨fun stance there => Safe.agree ?_⟩
  unfold returnFrom
  split
  · exact stance.ret (nil_subset _)
  · refine (stance.flow (.materialize completes held) there).bind fun register _ given => ?_
    exact Safe.mono (given.ret (subset_append_left _ _)) fun _ _ done => done.forget (subset_append_right _ _) stance.covered

theorem safe_jumpOut {scope : Scope} {o : Outset env roots (scope :: chain)}
    (stance : Stance o available ahead known True s) (completes : v.Completes)
    (held : v.registers ⊆ available) (named : ∀ {supply p targets level}, KindFits roots supply p targets level scope.kind →
      Known supply p k level.anchor ∧ Awaited p targets k.block) : Safe env (jump k v) s fun _ s' =>
      Stance o available ahead known False s' ∧ ∃ b, s.builder.cursor = some b ∧ s'.Joins b k v := by
  obtain ⟨level,levels,same,anchored⟩ := stance.innermost
  have offers : Offers o available ahead known True s k level.anchor := fun point => by
    obtain ⟨state,-,fits⟩ := point.innermost same
    exact (named fits.kind).imp_right Awaited.named
  refine (stance.goTo offers anchored held fun _ => completes).and_runs.mono fun _ s' ⟨done,run⟩ => ⟨done,?_⟩
  obtain ⟨b,cursor,joins,-⟩ := stance.joins offers run
  exact ⟨b,cursor,joins⟩

theorem carries_restart {loop : LoopId} {exit : Continuation} {check : BlockId} :
    Carries env roots r r' (⟨id,.loop loop exit check⟩ :: chain) needs (fun _ => restart check) nothing fun _ => False := by
  refine ⟨fun stance _ => Safe.agree ?_⟩
  obtain ⟨level,levels,same,anchored⟩ := stance.innermost
  refine safe_bind.mpr (safe_isTerminated.mpr ?_)
  split
  · rename_i ended
    exact absurd trivial (stance.isTerminated.mp ended)
  · refine Safe.mono (stance.branch check.plain (fun point => ?_) rfl anchored) fun _ _ done => done.unlearn (subset_cons_self _ _)
    obtain ⟨state,-,fits⟩ := point.innermost same
    obtain ⟨-,there,-,awaited⟩ := fits.kind
    exact ⟨there,awaited.named⟩

/-- What a finalizing scope does for an exit: it has a cleanup block for it, or gets one now, where the
    finalizer runs outside the scope and the exit goes on. -/
theorem Lowers.cleanup (lowers : Lowers env roots n r r') {finalizer : Expr}
    {o : Outset env roots (⟨id,.finalizing finalizer⟩ :: chain)}
    (small : chain.weight + finalizer.size ≤ n) (completes : v.Completes)
    (outwards : ∀ {w : Value} {o : Outset env roots chain} {available ahead known s}, w.Completes →
      Stance o available ahead known True s → w.registers ⊆ available → Agree env r r' (fun r => leave r chain exit w) s fun _ s' =>
        Stance o available ahead known False s' ∧ s.Leaves env chain exit w s')
    (stance : Stance o available ahead known True s) (held : v.registers ⊆ available) :
    Agree env r r' (fun r => leave r (⟨id,.finalizing finalizer⟩ :: chain) exit v) s fun _ s' =>
      Stance o available ahead known False s' ∧ s.Leaves env (⟨id,.finalizing finalizer⟩ :: chain) exit v s' := by
  obtain ⟨level,levels,same,anchored⟩ := stance.innermost
  have within : Expr.Within roots finalizer := by
    obtain ⟨supply,p,c,point⟩ := stance.point
    obtain ⟨state,-,fits⟩ := point.innermost same
    exact fits.kind
  refine .after rfl ?_
  split
  · rename_i cleanup found
    obtain ⟨supply,p,c,point⟩ := stance.point
    -- Seen from here, the cleanups that there are now are still there behind the jump.
    have fresh : Stance (o.anew supply s) available ahead known True s := ⟨supply,p,c,point.fresh⟩
    have offers : Offers (o.anew supply s) available ahead known True s cleanup level.anchor := fun point => by
      obtain ⟨state,present,fits⟩ := point.innermost same
      have found : state.cleanups.get? exit = some cleanup := by simpa [present] using found
      exact (fits.cleanups found).imp_right Awaited.named
    refine Safe.agree ((fresh.goTo offers anchored held fun _ => completes).and_runs.mono fun _ s' both => ?_)
    obtain ⟨done,run⟩ := both
    obtain ⟨b,cursor,joins,-⟩ := fresh.joins offers run
    obtain ⟨supply',p',c',point'⟩ := done.point
    have known : s'.cleanups id exit = some cleanup := point'.tidy.kept _ (.head _) found
    exact ⟨⟨supply',p',c',point.since point'⟩,b,cursor,cleanup,known,joins,point'.tidy.tended.1 rfl known⟩
  · rename_i absent
    refine (stance.newContinuation _ "finally.cleanup" .target anchored).and_runs.agree.bind fun cleanup s₁ both => ?_
    obtain ⟨stance₁,made⟩ := both
    obtain ⟨supply,p,b,point⟩ := stance.point
    have cursor := point.standing.stands.cursor
    obtain ⟨blank,stays,scopes,-⟩ := made.newContinuation point.standing.stands
    have new : s₁.cleanups id exit = none := by rw [cleanups_of_scopes scopes]; exact absent
    refine .after rfl ?_
    refine (Stance.cleaning (Q := fun s' => s'.Joins b cleanup v ∧
      Cleans env s' chain finalizer exit (Departs env s' exit chain) cleanup) same stance₁ new (fun covered stance' => ?_)
      fun done kind => ?_).mono fun _ s' left => ⟨left.1,b,cursor,cleanup,left.2⟩
    · refine .after rfl ?_
      have stance' := stance'.logged (.cleanup exit cleanup.block)
      refine (stance'.lead (Expects.offers (.first (by simp))) anchored held completes).and_runs.agree.bind fun _ s₂ both => ?_
      obtain ⟨stance₂,jumped⟩ := both
      obtain ⟨c,there,joins,blanks⟩ := stance'.joins (fun point => ⟨point.ahead _ (.head _),.inl (mem_append_left _ (.head _))⟩) jumped
      obtain rfl := mem_unique stays there
      have other : cleanup.block ≠ b := by
        obtain ⟨supply',p',c',point'⟩ := stance'.point
        obtain rfl := mem_unique point'.standing.stands.cursor there
        rintro same
        exact (nodup_cons.mp point'.footing.distinct).1 (same ▸ (.head _))
      have blank : (s₂.moveTo cleanup.block).Blank cleanup.block := blanks other blank
      refine (stance₂.atBlock (Q := fun s'' => Cleans env s'' chain finalizer exit (Departs env s'' exit chain) cleanup) covered
        (fun _ => (.head _)) fun stance₃ => ?_).mono fun _ s' left => ?_
      · refine (lowers.eval ⟨small,within⟩ stance₃).and_runs.bind fun found s₃ both => ?_
        obtain ⟨⟨_,done⟩,run⟩ := both
        have done := done.forget (subset_append_right _ _) stance₃.covered
        cases found with
        | none =>
          have ended := done.dead (by rintro ⟨⟩) not_false
          exact Safe.agree ⟨ended,.stops lowers.bounded rfl blank run (ended.isTerminated.mpr not_false) (.refl _)⟩
        | some value =>
          refine (outwards cleanup.isUnreachable_value (done.congr (iff_of_true rfl trivial)) ?_).and_runs.mono fun _ s₄ both => ?_
          · rw [cleanup.registers_value]
            exact subset_append_left _ _
          · obtain ⟨⟨done,b,ends,departs⟩,left⟩ := both
            exact ⟨done,.goesOn lowers.bounded rfl blank run ends left (.refl _) departs⟩
      · obtain ⟨done,s'',ensues,rfl,cleans⟩ := left
        exact ⟨done,joins.later (ensues.trans (.of_same rfl rfl)),
          cleans.later (.of_same rfl rfl) fun departs => departs.later (.of_same rfl rfl) fun _ _ {_ _} known => known⟩
    · obtain rfl := finalizing.inj kind
      exact done.2

theorem Lowers.leaves (lowers : Lowers env roots n r r') {o : Outset env roots chain}
    (small : chain.weight ≤ n) (completes : v.Completes)
    (stance : Stance o available ahead known True s) (held : v.registers ⊆ available) :
    Agree env r r' (fun r => leave r chain exit v) s fun _ s' =>
      Stance o available ahead known False s' ∧ s.Leaves env chain exit v s' := by
  induction chain generalizing v available ahead known s with
  | nil => exact Safe.agree rfl
  | cons scope outer ih =>
    obtain ⟨id,kind⟩ := scope
    have smaller : weight outer ≤ weight (⟨id,kind⟩ :: outer) := by cases kind <;> simp [weight]
    obtain ⟨step,same,exits⟩ := exits_leave id kind outer exit v
    obtain ⟨supply,p,c,point⟩ := stance.point
    have alive : ¬ s.Closed := fun closed => stance.isTerminated.mp closed trivial
    obtain ⟨stands,named⟩ := And.intro point.standing.stands point.standing.named
    rw [same]
    cases exits with
    | finalizing =>
      rename_i finalizer
      have small : finalizer.size + weight outer ≤ n := small
      exact lowers.cleanup (by omega) completes (fun completes stance held => ih (by omega) completes stance held) stance held
    | returning =>
      refine ((carries_returnFrom completes fun _ h => h).agree stance held).and_runs.mono fun _ s' left => ⟨left.1,c,stands.cursor,?_⟩
      exact (departs_claimed (by simp [claims])).mpr (left.2.returns stands named)
    | inlined =>
      refine Safe.agree ((safe_jumpOut stance completes held fun fits => fits).mono ?_)
      rintro _ s' ⟨done,b,cursor,joins⟩
      exact ⟨done,b,cursor,(departs_claimed (by simp [claims])).mpr joins⟩
    | breaking =>
      refine Safe.agree ((safe_jumpOut stance rfl (nil_subset _) fun fits => ⟨fits.1,fits.2.2.1⟩).mono ?_)
      rintro _ s' ⟨done,b,cursor,joins⟩
      exact ⟨done,b,cursor,(departs_claimed (by simp [claims])).mpr joins⟩
    | continuing =>
      refine (carries_restart.agree stance held).and_runs.mono fun _ s' left => ⟨left.1,c,stands.cursor,?_⟩
      exact (departs_claimed (by simp [claims])).mpr (left.2.restarts stands alive)
    | outwards passed plain =>
      refine (stance.outside fun stance => ih (by omega) completes stance held).mono ?_
      rintro _ s' ⟨done,b,cursor,departs⟩
      exact ⟨done,b,cursor,(departs_passed passed plain).mpr departs⟩

theorem Lowers.leave (lowers : Lowers env roots n r r') (small : chain.weight ≤ n) (completes : v.Completes)
    (held : v.registers ⊆ needs) : Carries env roots r r' chain needs (fun r => leave r chain exit v) nothing fun _ => False :=
  ⟨fun stance there => (lowers.leaves small completes stance fun _ h => there (held h)).mono fun _ _ done => done.1⟩

section
variable (lowers : Lowers env roots n r r')
include lowers

theorem Lowers.lowerReturn {target : FunctionId} {value : Expr} (admits : Admits roots n chain value) :
    Carries env roots r r' chain needs (fun r => lowerReturn r chain target value) registers Value.Completes :=
  lowers.evalThen admits (fun _ => rfl) (nil_subset _) nofun fun _ completes =>
    .ending (lowers.leave (Nat.le_trans (Nat.le_add_right ..) admits.small) completes (subset_append_left _ _)) (nil_subset _) nofun

theorem Lowers.depart (small : chain.weight ≤ n) : Carries env roots r r' chain needs (fun r => do
      Lower.leave r chain exit .unit
      return unreachable .never) registers Value.Completes :=
  .ending (lowers.leave small rfl (nil_subset _)) (nil_subset _) nofun

end

end Lower

end BlockLowering
