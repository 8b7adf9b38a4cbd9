import BlockLowering.Proofs.Exits
/-!
Operators, type operators and storage. Most of them stay in one block; where a test divides the path, both
ways meet again in a continuation that counts on what was there before.
-/
namespace BlockLowering
open List Value Build Option
variable {intrinsic : Intrinsic} {cls : ClassId} {var : VarId} {value : Constant}

@[simp] theorem Value.registers_ofRegister {register : Register} {ty : Ty} : (ofRegister register ty).registers = [register] := rfl

@[simp] theorem Value.registers_unit : unit.registers = [] := rfl

namespace Lower
variable {α : Type} {env : Environment} {roots : Expr → Prop} {r r' : Recurse} {chain : Chain} {n : Nat}
  {available needs : List Register} {ahead : List Ahead} {known : List Joint} {s : State} {e : Expr} {ty target : Ty}
  {args : List Register} {object : Register} {v : Value} {location : Location} {field : FieldId} {receiver : Option Expr}

/-! ### Operators -/

theorem flows_operand {index : Nat} (held : args ⊆ needs) :
    Flows env roots chain needs (operand intrinsic args index) fun r => [r] := by
  unfold operand
  split
  · rename_i found
    exact .pure (by simpa using held (mem_of_getElem? found))
  · exact .throw rfl

theorem flows_oneOf {type : NativeType} : Flows env roots chain needs (build (oneOf type)) fun r => [r] := by
  unfold oneOf
  split
  · exact .const
  · exact .const
  · exact .int

theorem carries_lowerIntrinsic (held : args ⊆ needs) :
    Carries env roots r r' chain needs (fun _ => lowerIntrinsic intrinsic args ty) registers Completes := by
  refine .after (flows_operand held) fun left => .after .get fun s => ?_
  have heldArgs : args ⊆ nothing s ++ ([left] ++ needs) := fun _ h => mem_append_right _ (mem_append_right _ (held h))
  dsimp only
  split
  · exact .after (flows_operand heldArgs) fun right => .toValue (.binary (by simp) (by simp))
  · exact .after (flows_operand heldArgs) fun right => .toValue (.compare (by simp) (by simp))
  · exact .toValue (.unary (by simp))
  · exact .toValue (flows_oneOf.buildBind fun one => .binary (by simp) (by simp))

/-! ### Type operators -/

theorem flows_descriptorAddress : Flows env roots chain needs (descriptorAddress cls) fun r => [r] :=
  .andThen .globalOf fun _ => .const

theorem safe_forkOnNull {o : Outset env roots chain} {rest : Build α} {Q : α → State → Prop}
    (stance : Stance o available ahead known True s) (onNull otherwise : Continuation) (tested : object ∈ available)
    (expectsNull : Expects ahead known onNull available) (expectsOther : Expects ahead known otherwise available)
    (bareNull : onNull.phi = none) (bareOther : otherwise.phi = none)
    (behind : ∀ s', Stance o available ahead ((onNull, available) :: (otherwise, available) :: known) False s' →
      Safe env (build rest) s' Q) : Safe env (build (do
      let null ← null
      let isNull ← compare .eq object null
      condBranch isNull onNull.block otherwise.block
      rest)) s Q := by
  refine safe_build_bind.mpr ((stance.flow .const (nil_subset _)).mono fun null s₁ given => ?_)
  refine safe_build_bind.mpr ((given.flow (.compare (mem_append_right _ tested) (by simp)) fun _ h => h).mono
    fun isNull s₂ compared => ?_)
  have kept : available ⊆ [isNull] ++ ([null] ++ available) := fun _ h => by simp [h]
  refine safe_build_bind.mpr ((compared.fork onNull otherwise (by simp) expectsNull expectsOther bareNull bareOther kept kept).mono
    fun _ s₃ done => behind s₃ (done.forget kept stance.covered))

theorem carries_checkedCast (held : object ∈ needs) : Carries env roots r r' chain needs (fun _ => do
      let check ← build (labelledBlock "cast.check")
      let done ← newContinuation .unit "cast.done"
      build do
        let null ← null
        let isNull ← compare .eq object null
        condBranch isNull done.block check
        switchTo check
      let descriptor ← descriptorAddress cls
      let _ ← callSupport chain .checkCast [object,descriptor]
      jump done .unit
      let _ ← resumeAt done
      return .ofRegister object ty) registers Completes := by
  refine ⟨fun {o available ahead known s} stance there => Safe.agree ?_⟩
  have covered := stance.covered
  refine (stance.labelledBlock "cast.check" .other fun _ h => h).bind fun check s₁ stance => ?_
  refine (stance.newExit "cast.done" .other fun _ h => h).bind fun done s₂ ⟨bare,stance⟩ => ?_
  refine Safe.bind (safe_forkOnNull stance done check.plain (there held) (.first nofun) (.next (.first nofun)) bare rfl
    fun _ stance => (stance.reorder (.swap ..)).enter nofun covered) fun _ s₃ stance => ?_
  refine (stance.flow flows_descriptorAddress (nil_subset _)).bind fun descriptor s₄ stance => ?_
  refine (stance.flow (.callSupport fun _ h => h) (by simp [there held])).bind fun dest s₅ stance => ?_
  have kept : available ⊆ dest.toList ++ ([descriptor] ++ available) := fun _ h => by simp [h]
  refine (stance.jump (.first nofun) kept (nil_subset _) fun _ => rfl).bind fun _ s₆ stance => ?_
  refine (stance.resumeAt_known not_false covered (.head _)).bind fun _ s₇ stance => ?_
  exact (stance.unlearn fun _ h => by simp [h]).also (by simpa using there held) |>.congr (iff_of_true trivial rfl)

theorem carries_lowerCast (completes : v.Completes) (held : v.registers ⊆ needs) :
    Carries env roots r r' chain needs (fun _ => lowerCast chain v target ty location) registers Completes := by
  unfold lowerCast
  split
  · exact .pure held completes
  · split
    · exact .throw rfl
    · refine .after (.materialize completes held) fun object => ?_
      split
      · exact carries_checkedCast (by simp)
      · exact .after flows_descriptorAddress fun _ => .after (.callSupport (by simp)) fun _ => .pure (by simp) rfl

theorem flows_instanceQuery (held : object ∈ needs) : Flows env roots chain needs (instanceQuery chain object target) fun r => [r] := by
  unfold instanceQuery
  split
  · exact .const
  · exact .bind flows_descriptorAddress fun descriptor => .query rfl (by simp [held])
  · exact .const

theorem carries_lowerInstanceTest (completes : v.Completes) (held : v.registers ⊆ needs) :
    Carries env roots r r' chain needs (fun _ => lowerInstanceTest chain v target) registers Completes := by
  unfold lowerInstanceTest
  split
  · exact .toValue .const
  · refine .after (.materialize completes held) fun object => ⟨fun {o available ahead known s} stance there => Safe.agree ?_⟩
    have tested : object ∈ available := there (by simp)
    have covered := stance.covered
    refine (stance.newContinuation .boolean "is.merge" .other fun _ h => h).bind fun merge s₁ stance => ?_
    refine (stance.labelledBlock "is.null" .other fun _ h => h).bind fun nullBlock s₂ stance => ?_
    refine (stance.labelledBlock "is.test" .other fun _ h => h).bind fun testBlock s₃ stance => ?_
    refine Safe.bind (safe_forkOnNull stance nullBlock.plain testBlock.plain tested (.next (.first nofun)) (.first nofun) rfl rfl
      fun _ stance => safe_build_bind.mpr (Safe.mono ((stance.reorder (.swap ..)).enter nofun covered) fun _ _ stance =>
        stance.flow .const (nil_subset _))) fun onNull s₄ stance => ?_
    refine (stance.jump (.next (.first nofun)) (subset_append_right _ _) (by simp) fun _ => rfl).bind fun _ s₅ stance => ?_
    refine (stance.enter nofun covered).bind fun _ s₆ stance => ?_
    refine (stance.flow (flows_instanceQuery tested) fun _ h => h).bind fun result s₇ stance => ?_
    refine (stance.jump (.first nofun) (subset_append_right _ _) (by simp) fun _ => rfl).bind fun _ s₈ stance => ?_
    exact (stance.resumeAt not_false covered).mono fun _ _ done => done.unlearn fun _ h => by simp [h]

theorem carries_lowerNegatedTest (completes : v.Completes) (held : v.registers ⊆ needs) :
    Carries env roots r r' chain needs (fun _ => lowerNegatedTest chain v target) registers Completes := by
  refine ⟨fun stance there => ((carries_lowerInstanceTest completes held).agree stance there).bind fun test s' tested => ?_⟩
  split
  · exact Safe.agree tested
  · rename_i completes
    have completes : test.Completes := by simpa using completes
    have negated : Carries env roots r r' chain test.registers (fun _ => do
        let register ← materialize test
        return ofRegister (← build (unary .not register)) .boolean) registers Completes :=
      .after (.materialize completes fun _ h => h) fun _ => .toValue (.unary (by simp))
    refine (negated.agree (tested.congr (iff_of_true completes trivial)) (subset_append_left _ _)).mono fun _ _ done => ?_
    exact done.keep stance.covered

theorem carries_lowerCoercion (completes : v.Completes) (held : v.registers ⊆ needs) :
    Carries env roots r r' chain needs (fun _ => lowerCoercion v target ty location) registers Completes := by
  unfold lowerCoercion
  split
  · exact .throw rfl
  · exact .throw rfl
  · refine .after (.materialize completes held) fun _ => ?_
    split
    · exact .toValue (.cast (by simp))
    · exact .pure (by simp) rfl

theorem Lowers.lowerTypeOp (lowers : Lowers env roots n r r') {operand : Expr} {operator : TypeOperator}
    (admits : Admits roots n chain operand) :
    Carries env roots r r' chain needs (fun r => lowerTypeOp r chain e operator operand target) registers Completes := by
  unfold Lower.lowerTypeOp
  by_cases unsupported : operator = .safeCast
  · simp only [if_pos unsupported]
    exact ⟨fun _ _ => Safe.agree (safe_bind.mpr (safe_throw.mpr rfl))⟩
  · simp only [if_neg unsupported]
    refine lowers.evalThen admits (fun _ => rfl) (nil_subset _) nofun fun v completes => ?_
    have held : v.registers ⊆ v.registers ++ needs := subset_append_left _ _
    cases operator with
    | implicitCast => exact .pure held completes
    | discard => exact .pure (nil_subset _) rfl
    | cast => exact carries_lowerCast completes held
    | instanceOf => exact carries_lowerInstanceTest completes held
    | notInstanceOf => exact carries_lowerNegatedTest completes held
    | coercion => exact carries_lowerCoercion completes held
    | safeCast => exact .throw rfl

/-! ### Variables and fields -/

theorem carries_readVariable :
    Carries env roots r r' chain needs (fun _ => readVariable chain var location) registers Completes := by
  refine ⟨fun stance there => Safe.agree ?_⟩
  refine stance.slot?.bind fun found s' ⟨same,usable⟩ => ?_
  subst same
  cases found with
  | none => exact safe_throw.mpr rfl
  | some slot =>
    obtain ⟨held,readable⟩ := usable slot rfl
    cases slot with
    | value v => exact (stance.also held).congr (iff_of_true trivial readable)
    | stack ptr ty =>
      have loaded : Carries env roots r r' chain [ptr] (fun _ => do
          return ofRegister (← build (load ptr ty.storage)) ty) registers Completes :=
        .toValue (.load (mem_singleton_self _))
      exact (loaded.agree stance held).2

theorem Lowers.lowerWriteVar (lowers : Lowers env roots n r r') (admits : Admits roots n chain e) :
    Carries env roots r r' chain needs (fun r => lowerWriteVar r chain var e location) registers Completes := by
  refine lowers.evalThen admits (fun _ => rfl) (nil_subset _) nofun fun v completes => ⟨fun stance there => ?_⟩
  refine stance.slot?.agree.bind fun found s' ⟨same,usable⟩ => ?_
  subst same
  split
  · rename_i ptr _ _
    obtain ⟨held,-⟩ := usable _ rfl
    have stored : Carries env roots r r' chain (ptr :: v.registers) (fun _ => do
        let register ← materialize v
        build (store ptr register)
        return unit) registers Completes :=
      .after (.materialize completes (subset_cons_self _ _)) fun _ => .after (.store (by simp) (by simp)) fun _ =>
        .pure (nil_subset _) rfl
    refine stored.agree stance (cons_subset.mpr ⟨held (.head _),fun _ h => there (mem_append_left _ h)⟩)
  · exact Safe.agree rfl
  · exact Safe.agree rfl

namespace Lowers
variable (lowers : Lowers env roots n r r')
include lowers

section
variable (admits : ∀ e ∈ receiver, Admits roots n chain e)
include admits

theorem fieldReceiver : Carries env roots r r' chain needs (fun r => fieldReceiver r chain field receiver) toList
      fun found => found.isSome = true := by
  cases receiver with
  | some e =>
    exact lowers.evalThen (admits e rfl) (fun _ => rfl) (nil_subset _) nofun fun _ completes =>
      .after (.materialize completes (subset_append_left _ _)) fun _ => .pure (by simp) rfl
  | none =>
    refine ⟨fun stance there => stance.receiver.agree.bind fun found s' ⟨same,usable⟩ => ?_⟩
    subst same
    cases found with
    | none => exact Safe.agree rfl
    | some v =>
      obtain ⟨held,completes⟩ := usable v rfl
      have given : Carries env roots r r' chain v.registers (fun _ => do return some (← materialize v)) toList
          fun found => found.isSome = true :=
        .after (.materialize completes fun _ h => h) fun _ => .pure (by simp) rfl
      exact given.agree stance held

theorem fieldAddress : Carries env roots r r' chain needs (fun r => fieldAddress r chain field receiver) toList
      fun found => found.isSome = true := by
  refine .after .read fun _ => .after (.lift (failsInProgram_getField _)) fun decl => ?_
  split
  · exact .after .globalOf fun _ => .after .const fun _ => .pure (by simp) rfl
  · refine (lowers.fieldReceiver admits).option (fun _ => rfl) (nil_subset _) nofun fun object => ?_
    dsimp only
    split
    · exact .throw rfl
    · exact .after .read fun _ => .after (.lift (failsInProgram_bodyType _)) fun _ =>
        .after (.lift (failsInProgram_fieldIndex _)) fun _ => .after (.element (by simp)) fun _ => .pure (by simp) rfl

theorem lowerReadField : Carries env roots r r' chain needs (fun r => lowerReadField r chain field receiver ty) registers Completes :=
  (lowers.fieldAddress admits).option (fun _ => rfl) (nil_subset _) nofun fun _ =>
    .after .read fun _ => .after (.lift (failsInProgram_getField _)) fun _ => .toValue (.load (by simp))

theorem lowerWriteField (admitsValue : Admits roots n chain e) :
    Carries env roots r r' chain needs (fun r => lowerWriteField r chain field receiver e) registers Completes :=
  (lowers.fieldAddress admits).option (fun _ => rfl) (nil_subset _) nofun fun _ =>
    lowers.evalThen admitsValue (fun _ => rfl) (nil_subset _) nofun fun _ completes =>
      .after (.materialize completes (subset_append_left _ _)) fun _ => .after (.store (by simp) (by simp)) fun _ =>
        .pure (nil_subset _) rfl

end

end Lowers

theorem flows_literalOf : Flows env roots chain needs (literalOf value) nothing :=
  .quiet (fun _ => by cases value <;> trivial) fun run => run.literalOf

theorem carries_lowerConstant :
    Carries env roots r r' chain needs (fun _ => lowerConstant value ty) registers Completes :=
  .after flows_literalOf fun _ => .toValue .const

theorem carries_lowerFunctionRef {function : FunctionId} :
    Carries env roots r r' chain needs (fun _ => lowerFunctionRef function ty) registers Completes :=
  .after .procedureOf fun _ => .toValue .const

end Lower

end BlockLowering
