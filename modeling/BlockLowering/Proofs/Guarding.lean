import BlockLowering.Proofs.Branching
/-!
Guarded expressions. The handler of a scope is entered once the scope is closed, and it counts on what
had values when the scope was opened; so clauses and finalizers may use no more than that.
-/
namespace BlockLowering.Lower
open List Value

variable {env : Environment} {roots : Expr → Prop} {r r' : Recurse} {chain : Chain} {n : Nat} {needs : List Register}
  {o : Outset env roots chain} {available counted : List Register} {ahead : List Ahead} {known : List Joint} {live : Prop}
  {s : State} {v : Value} {k result handler : Continuation} {clauses : List (CatchClause Expr)} {ty : Ty} {body finalizer : Expr}

theorem safe_deliver (stance : Stance o (v.registers ++ available) ahead known v.Completes s)
    (covered : Covered o.levels available) (expects : Expects ahead known k counted) (held : counted ⊆ available) :
    Safe env (deliver k v) s fun _ s' => Stance o available ahead known False s' := by
  have kept : available ⊆ v.registers ++ available := subset_append_right _ _
  unfold deliver
  split
  · rename_i nowhere
    exact (stance.forget kept covered).dead (by simp [Completes,nowhere]) not_false
  · refine Safe.mono (stance.jump expects (fun _ h => kept (held h)) (subset_append_left _ _) fun h => h) fun _ s' done => ?_
    exact done.forget kept covered

namespace Lowers
variable (lowers : Lowers env roots n r r')
include lowers

/-! ### Clauses -/

theorem lowerClauseBody {clause : CatchClause Expr} {exception : Register} (stance : Stance o available ahead known True s)
    (admits : Admits roots n chain clause.body) (held : exception ∈ available) (expects : Expects ahead known result counted)
    (heldCounted : counted ⊆ available) : Agree env r r' (fun r => lowerClauseBody r chain clause exception result) s fun _ s' =>
      Stance o available ahead known False s' := by
  refine stance.throughScope rfl (fun _ => trivial) fun inside => ?_
  have admits : Admits roots n (⟨s.scopes.size,.variables⟩ :: chain) clause.body := ⟨admits.small,admits.within⟩
  have usable : (Slot.value (.ofRegister exception clause.ty)).Usable := rfl
  refine (inside.declareVariable rfl (by simpa [Slot.registers] using held) usable).agree.bind fun _ s₁ inside => ?_
  refine (lowers.agree admits inside).bind fun v s₂ ended => ?_
  refine Safe.agree (Safe.mono (safe_deliver ended inside.covered expects heldCounted) fun _ s₃ ended => ?_)
  exact ⟨_,available,fun _ h => h,ended⟩

theorem lowerClauses {exception : Register} (stance : Stance o available ahead known True s)
    (admits : ∀ clause ∈ clauses, Admits roots n chain clause.body) (held : exception ∈ available)
    (expects : Expects ahead known result counted) (heldCounted : counted ⊆ available) :
    Agree env r r' (fun r => lowerClauses r chain exception result clauses) s fun _ s' =>
      Stance o available ahead known False s' := by
  induction clauses generalizing s with
  | nil => exact Safe.agree (stance.throwException held)
  | cons clause rest ih =>
    have covered := stance.covered
    have admitsBody := admits clause (.head _)
    unfold Lower.lowerClauses
    split
    · exact lowers.lowerClauseBody stance admitsBody held expects heldCounted
    · split
      · exact Safe.agree (safe_throw.mpr rfl)
      · refine (stance.flow flows_descriptorAddress (nil_subset _)).agree.bind fun descriptor s₁ stance => ?_
        refine stance.queryThen rfl (by simp [held]) fun test s₂ stance => ?_
        have kept : available ⊆ test :: ([descriptor] ++ available) := fun _ h => by simp [h]
        refine (stance.labelledBlock "catch.body" .other kept).agree.bind fun taken s₃ stance => ?_
        refine (stance.labelledBlock "catch.next" .other kept).agree.bind fun next s₄ stance => ?_
        refine (Stance.divide (.head _) kept covered stance).agree.bind fun _ s₅ ⟨stance,_⟩ => ?_
        refine (lowers.lowerClauseBody stance admitsBody held expects.next heldCounted).bind fun _ s₆ stance => ?_
        refine (stance.enter nofun covered).agree.bind fun _ s₇ stance => ?_
        exact ih stance fun other inside => admits other (.tail _ inside)

theorem lowerHandler (stance : Stance o available (⟨handler,counted,.other⟩ :: ahead) known False s)
    (admits : ∀ clause ∈ clauses, Admits roots n chain clause.body) (covered : Covered o.levels counted)
    (expects : Expects ahead known result counted) :
    Agree env r r' (fun r => lowerHandler r chain clauses result handler) s fun _ s' => Stance o counted ahead known False s' := by
  refine (stance.enterBlock not_false covered).agree.bind fun entered s₁ ⟨_,stance⟩ => ?_
  cases entered with
  | false => exact Safe.agree ((stance.forget (subset_append_right _ _) covered).dead nofun not_false)
  | true =>
    have stance := stance.congr (iff_of_true rfl trivial)
    refine (stance.flow (.materialize handler.isUnreachable_value fun _ h => h) ?_).agree.bind fun exception s₂ stance => ?_
    · rw [handler.registers_value]
      exact subset_append_left _ _
    · have kept : counted ⊆ [exception] ++ (handler.phi.toList ++ counted) := fun _ h => by simp [h]
      exact (lowers.lowerClauses stance admits (by simp) expects kept).mono fun _ _ stance => stance.forget kept covered

theorem lowerCatching (admits : Admits roots n chain body) (admitsClauses : ∀ clause ∈ clauses, Admits roots n chain clause.body) :
    Carries env roots r r' chain needs (fun r => lowerCatching r chain body clauses ty) registers Completes := by
  refine ⟨fun {o available ahead known s} stance _ => ?_⟩
  have covered := stance.covered
  unfold Lower.lowerCatching
  split
  · exact (lowers.agree admits stance).bind fun _ _ stance => Safe.agree stance
  · refine (stance.newContinuation ty "try.result" .other fun _ h => h).agree.bind fun result s₁ stance => ?_
    refine Agree.bind (stance.withHandler (fun _ => trivial) fun inside => ?_) fun handler s₂ stance => ?_
    · have admits : Admits roots n (⟨s₁.scopes.size,.catching⟩ :: chain) body := ⟨admits.small,admits.within⟩
      refine (lowers.agree admits inside).bind fun v s₃ ended => ?_
      exact Safe.agree (safe_deliver ended inside.covered (.first nofun) fun _ h => h)
    · cases handler with
      | none => exact Safe.agree (stance.resumeAt not_false covered)
      | some handler =>
        refine (lowers.lowerHandler stance admitsClauses covered (.first nofun)).bind fun _ s₃ stance => ?_
        exact Safe.agree (stance.resumeAt not_false covered)

/-! ### Finalizers -/

theorem lowerRethrow (stance : Stance o available (⟨handler,counted,.other⟩ :: ahead) known False s)
    (admits : Admits roots n chain finalizer) (covered : Covered o.levels counted) :
    Agree env r r' (fun r => lowerRethrow r chain finalizer handler) s fun _ s' => Stance o available ahead known False s' := by
  refine .after rfl ?_
  refine ((stance.logged (.finallyHandler handler.block)).atBlock (Q := fun _ => True) covered nofun fun stance => ?_).mono
    fun _ _ done => done.1
  have covered := stance.covered
  refine (stance.flow (.materialize handler.isUnreachable_value fun _ h => h) ?_).agree.bind fun exception s₁ stance => ?_
  · rw [handler.registers_value]
    exact subset_append_left _ _
  · refine (lowers.eval admits stance).bind fun found s₂ ⟨_,stance⟩ => ?_
    cases found with
    | none => exact Safe.agree ⟨(stance.forget (fun _ h => by simp [h]) covered).dead nofun not_false,trivial⟩
    | some v =>
      have stance := stance.congr (iff_of_true rfl trivial)
      refine Safe.agree (Safe.mono (stance.throwException (by simp)) fun _ s₃ stance => ?_)
      exact ⟨stance.forget (fun _ h => by simp [h]) covered,trivial⟩

theorem finalize {normal : Continuation} (stance : Stance o available (⟨normal,counted,.other⟩ :: ahead) known False s)
    (admits : Admits roots n chain finalizer) (covered : Covered o.levels counted) : Agree env r r' (fun r => do
      let value ← resumeAt normal
      if value.isUnreachable then return value
      match ← Lower.eval r chain finalizer with
      | some _ => return value
      | none => return .unreachable ty) s fun v s' => Stance o (v.registers ++ counted) ahead known v.Completes s' := by
  refine (stance.resumeAt not_false covered).agree.bind fun v s₁ stance => ?_
  split
  · exact Safe.agree stance
  · rename_i completes
    have completes : v.Completes := by simpa using completes
    have coveredValue := stance.covered
    refine (lowers.eval admits stance).bind fun found s₂ ⟨_,stance⟩ => ?_
    cases found with
    | none => exact Safe.agree ((stance.forget (fun _ h => by simp [h]) covered).dead nofun nofun)
    | some _ => exact Safe.agree ((stance.forget (subset_append_right _ _) coveredValue).congr (iff_of_true rfl completes))

theorem lowerFinalized (admits : ∀ m, Admits roots n (⟨m,.finalizing finalizer⟩ :: chain) body)
    (admitsClauses : ∀ clause ∈ clauses, ∀ m, Admits roots n (⟨m,.finalizing finalizer⟩ :: chain) clause.body)
    (admitsFinalizer : Admits roots n chain finalizer) :
    Carries env roots r r' chain needs (fun r => lowerFinalized r chain body clauses finalizer ty) registers Completes := by
  refine ⟨fun {o available ahead known s} stance _ => ?_⟩
  have covered := stance.covered
  refine (stance.newContinuation ty "finally.normal" .other fun _ h => h).agree.bind fun normal s₁ stance => ?_
  refine Agree.bind (stance.withHandler (fun _ => admitsFinalizer.within) fun inside => ?_) fun handler s₂ stance => ?_
  · have guarded : Carries env roots r r' (⟨s₁.scopes.size,.finalizing finalizer⟩ :: chain) available
        (fun r => Lower.lowerCatching r (⟨s₁.scopes.size,.finalizing finalizer⟩ :: chain) body clauses ty) registers Completes :=
      lowers.lowerCatching (admits _) fun clause inside => admitsClauses clause inside _
    have covered := inside.covered
    refine (guarded.agree inside fun _ h => h).bind fun v s₃ ended => ?_
    exact Safe.agree (safe_deliver ended covered (.first nofun) fun _ h => h)
  · cases handler with
    | none => exact lowers.finalize stance admitsFinalizer covered
    | some handler =>
      refine (lowers.lowerRethrow stance admitsFinalizer covered).bind fun _ s₃ stance => ?_
      exact lowers.finalize stance admitsFinalizer covered

theorem lowerRaise {exception : Expr} (admits : Admits roots n chain exception) :
    Carries env roots r r' chain needs (fun r => lowerRaise r chain exception) registers Completes := by
  refine lowers.evalThen admits (fun _ => rfl) (nil_subset _) nofun fun v completes => ?_
  refine .after (.materialize completes (subset_append_left _ _)) fun register => ?_
  exact .ending ⟨fun stance held => Safe.agree (stance.throwException (held (by simp)))⟩ (nil_subset _) nofun

end Lowers

end BlockLowering.Lower
