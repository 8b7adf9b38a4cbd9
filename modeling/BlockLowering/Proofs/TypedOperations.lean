import BlockLowering.Proofs.TypedScopes
/-!
Operators, variables, fields and calls find operands of the types that they are made for: their operands are well
typed and fit their places, so that the registers that hold them do.
-/
namespace BlockLowering
open Lower List NativeType Option Subset Ty
variable {ty : Ty} {t : NativeType} {r : Register} {constant : Constant} {intrinsic : Intrinsic} {args : List Register} {value : Expr}

/-- An instruction form is made for operands of a type and gives a result of another. -/
def OperatorForm.Fits (t result : NativeType) : OperatorForm → Prop
  | .binary op => op.AppliesTo t ∧ result = t
  | .compare op => op.AppliesTo t ∧ result = .bool
  | .unary op => op.AppliesTo t ∧ result = t
  | .step op => op.AppliesTo t ∧ result = t

theorem Intrinsic.form_fits {i : Intrinsic} (applies : i.AppliesTo t) : (i.form t.isFloat).Fits t (i.result t) := by
  cases isFloat : t.isFloat <;> cases i <;>
    simp_all [AppliesTo,form,OperatorForm.Fits,BinaryOp.AppliesTo,UnaryOp.AppliesTo,CompareOp.AppliesTo,result]

theorem Primitive.converts (source target : Primitive) : match source.conversion? target with
    | some kind => kind.Converts source.native target.native
    | none => source.native = target.native := by
  cases source <;> cases target <;>
    simp [conversion?,isFloating,native,bitWidth?,isFloat,CastKind.Converts]

theorem FunctionDecl.params_signature (function : FunctionDecl) :
    function.nativeHeader.signature.params = function.allParameters.map fun p => p.ty.storage := by
  simp [nativeHeader,Header.signature,Parameter.new,Function.comp_def]

theorem Ty.zero_type (ty : Ty) : ty.storage.zero.type = ty.storage := by
  cases ty with
  | primitive kind => cases kind <;> rfl
  | _ => rfl

theorem Ty.storage_of_primitive?_eq_none (reference : ty.primitive? = none) : ty.storage = .ptr := by
  cases ty with
  | primitive kind => cases reference
  | _ => rfl

theorem Ty.storage_of_primitive?_eq_some {kind : Primitive} (same : ty.primitive? = some kind) : ty.storage = kind.native := by
  cases ty with
  | primitive kind' =>
    cases same
    rfl
  | _ => cases same

theorem Value.Typed.withType {p : Procedure} {v : Value} (typed : v.Typed p t) (same : ty.storage = t) :
    (v.withType ty).Typed p t := typed.imp_right fun ⟨_,register,unit⟩ => ⟨same,register,unit⟩

namespace Types
open Regime
variable {α β : Type} {o : Origin} {F : Frame} {needs : List TypeFact} {chain : Chain} {Γ : TypeContext} {recurse : Recurse}
  {step : Lower α} {gives : α → List TypeFact}
variable {v : Value} {ty target : Ty} {t : NativeType} {location : Location} {var : VarId}

/-! ### Results -/

theorem result (stored : ty.StoredAs t) (given : .value v t ∈ needs) : Types o F needs (pure v) fun v => [.result v ty] := by
  refine answer fun _ facts f inside => ?_
  obtain rfl := mem_singleton.mp inside
  exact ⟨stored.2 ▸ facts _ given,by simp [stored.1]⟩

theorem registerResult (stored : ty.StoredAs t) (given : .register r t ∈ needs) :
    Types o F needs (pure (.ofRegister r ty)) fun v => [.result v ty] :=
  ofRegister r ty stored.2 given (result stored (by simp))

theorem unitResult : Types o F needs (pure .unit) fun v => [.result v .unit] :=
  unitValue (result (t := .ptr) ⟨rfl,rfl⟩ (by simp))

theorem noResult {ty' : Ty} : Types o F needs (pure (.unreachable ty')) fun v => [.result v ty] := by
  refine answer fun _ _ f inside => ?_
  obtain rfl := mem_singleton.mp inside
  exact ⟨.inl rfl,fun _ => rfl⟩

theorem retype (v : Value) (ty : Ty) (same : ty.storage = t) (given : .value v t ∈ needs)
    (keeps : Types o F (.value (v.withType ty) t :: needs) step gives) : Types o F needs step gives :=
  infer (f := .value _ _) (fun _ facts => Value.Typed.withType (facts _ given) same) keeps

theorem ofStorage (reached : v.isUnreachable = false) (given : .value v t ∈ needs)
    (keeps : v.ty.storage = t → Types o F needs step gives) : Types o F needs step gives :=
  learn (fun _ facts => ((facts _ given).resolve_left (by simp [reached])).1) keeps

/-! ### Symbols -/

theorem descriptorAddress {cls : ClassId} : Types o F needs (descriptorAddress cls) fun r => [.register r .ptr,.plain r] :=
  .andThen (keeps_quiet fun run => run.globalOf) fun _ => const rfl

theorem literalThen {f : Literal → Lower β} {gives : β → List TypeFact}
    (rest : ∀ literal, literal.type = constant.storage → Types o F needs (f literal) gives) :
    Types o F needs (literalOf constant >>= f) gives := by
  refine .bindKnown (P := fun literal => literal.type = constant.storage) (keeps_quiet fun run => run.literalOf)
    (fun {s literal s'} _ _ run => ?_) rest
  cases constant with
  | string value =>
    obtain ⟨rfl,-⟩ := run
    rfl
  | _ =>
    obtain ⟨rfl,-⟩ := runs_pure.mp run
    rfl

/-! ### Operators -/

theorem oneOf : Types o F needs (build (oneOf t)) fun r => [.register r t,.plain r] := by
  unfold Lower.oneOf
  split
  · exact const rfl
  · exact const rfl
  · exact int

theorem operand {index n : Nat} (given : .registers args (replicate n t) ∈ needs) :
    Types o F needs (operand intrinsic args index) fun r => [.register r t] := by
  unfold Lower.operand
  split
  · rename_i r there
    refine answer fun {p} _ facts f inside => ?_
    obtain rfl := mem_singleton.mp inside
    have known : args.map p.typeOf = (replicate n t).map some := facts _ given
    have member : p.typeOf r ∈ (replicate n t).map some := known ▸ mem_map_of_mem (mem_of_getElem? there)
    obtain ⟨t',inside,same⟩ := mem_map.mp member
    exact same.symm.trans (congrArg some (eq_of_mem_replicate inside))
  · exact .breach

theorem registerTypeThen {f : State → Lower β} {gives : β → List TypeFact}
    (given : .register r t ∈ needs) (rest : ∀ s, s.builder.registerType? r = some t → Types o F needs (f s) gives) :
    Types o F needs (get >>= f) gives where
  lead holds facts run := by
    obtain ⟨_,_,got,run⟩ := runs_bind.mp run
    obtain ⟨rfl,rfl⟩ := runs_get.mp got
    obtain ⟨p,here,-,there⟩ := known holds facts
    exact (rest _ (registerType? here (there _ given))).lead holds facts run

theorem lowerIntrinsic {n : Nat}
    (applies : intrinsic.AppliesTo t) (stored : ty.StoredAs (intrinsic.result t)) (given : .registers args (List.replicate n t) ∈ needs) :
    Types o F needs (lowerIntrinsic intrinsic args ty) fun v => [.result v ty] := by
  refine .bind (operand given) fun left => registerTypeThen (r := left) (t := t) (by simp) fun s type => ?_
  have fits := Intrinsic.form_fits applies
  rw [type]
  simp only [map_some,getD_some]
  generalize intrinsic.form t.isFloat = form at fits ⊢
  cases form with
  | binary op =>
    obtain ⟨applies,same⟩ := fits
    refine .bind (operand (mem_append_right _ given)) fun right => ?_
    exact .bind (binary (t := t) applies (by simp) (by simp)) fun r => registerResult stored (by simp [same])
  | compare op =>
    obtain ⟨applies,same⟩ := fits
    refine .bind (operand (mem_append_right _ given)) fun right => ?_
    exact .bind (compare (t := t) applies (by simp) (by simp)) fun r => registerResult stored (by simp [same])
  | unary op =>
    obtain ⟨applies,same⟩ := fits
    exact .bind (unary (t := t) applies (by simp)) fun r => registerResult stored (by simp [same])
  | step op =>
    obtain ⟨applies,same⟩ := fits
    exact .bind (.buildBind oneOf fun one => binary (t := t) applies (by simp) (by simp)) fun r =>
      registerResult stored (by simp [same])

theorem lowerCast (reached : v.isUnreachable = false) (stored : ty.StoredAs t) (given : .value v t ∈ needs) :
    Types o F needs (lowerCast chain v target ty location) fun v => [.result v ty] := by
  unfold Lower.lowerCast
  split
  · exact retype v ty stored.2 given (result stored (by simp))
  · rename_i other
    split
    · exact .throw
    · refine ofStorage reached given fun same => ?_
      simp only [Bool.or_eq_true,not_or] at other
      obtain rfl : t = .ptr := same.symm.trans (storage_of_primitive?_eq_none (by simpa using other.2))
      refine .bind (materialize given) fun object => ?_
      split
      · refine .bind labelledBlock fun check => joinedAt (t := .ptr) ⟨rfl,rfl⟩ fun done _ => ?_
        refine infer (f := .admits done.block) (fun _ facts => (facts (.takes done .ptr) (by simp)).admitted) ?_
        refine .bind (.buildBind null fun null => .buildBind (compare (t := .ptr) rfl (by simp) (by simp)) fun isNull =>
          .buildThen (condBranch (by simp) (by simp) (by simp)) fun _ => (keeps_switchTo fun _ => trivial)) fun _ => ?_
        refine .bind descriptorAddress fun descriptor => ?_
        refine .bind (callSupport .checkCast [.ptr,.ptr] .void rfl (by simp)) fun _ => ?_
        refine .bind (unitValue (jump (t := .ptr) (by simp) (by simp))) fun _ => ?_
        exact .bind (resumeAt (by simp)) fun _ => registerResult stored (by simp)
      · refine .bind descriptorAddress fun descriptor => ?_
        refine .bind (callSupport .checkCast [.ptr,.ptr] .void rfl (by simp)) fun _ => ?_
        exact registerResult stored (by simp)

theorem instanceQuery {object : Register} (given : .register object .ptr ∈ needs) :
    Types o F needs (instanceQuery chain object target) fun r => [.register r .bool] := by
  unfold Lower.instanceQuery
  split
  · exact bool.mono (refl _) (by simp)
  · refine .bind descriptorAddress fun descriptor => ?_
    refine .bind (callSupport .isInstance [.ptr,.ptr] .bool rfl (by simp [given])) fun dest => ?_
    exact (produced (t := .bool) (by simp)).mono (refl _) (by simp)
  · exact bool.mono (refl _) (by simp)

theorem lowerInstanceTest (reached : v.isUnreachable = false)
    (given : .value v t ∈ needs) : Types o F needs (lowerInstanceTest chain v target) fun v => [.result v .boolean] := by
  have boolean : boolean.StoredAs .bool := ⟨rfl,rfl⟩
  unfold Lower.lowerInstanceTest
  split
  · exact .bind bool fun r => registerResult boolean (by simp)
  · rename_i reference
    refine ofStorage reached given fun same => ?_
    obtain rfl : t = .ptr := same.symm.trans (storage_of_primitive?_eq_none reference)
    refine .bind (materialize given) fun object => joinedAt boolean fun merge same => ?_
    refine .bind labelledBlock fun nullBlock => .bind labelledBlock fun testBlock => ?_
    refine .bind (.buildBind null fun null => .buildBind (compare (t := .ptr) rfl (by simp) (by simp)) fun isNull =>
      .buildThen (condBranch (by simp) (by simp) (by simp)) fun _ => .buildThen (keeps_switchTo fun _ => trivial) fun _ => bool) fun onNull => ?_
    refine .andThen (ofRegister (t := .bool) onNull .boolean rfl (by simp) (jump (t := .bool) (by simp) (by simp))) fun _ => ?_
    refine .andThen (keeps_switchTo fun _ => trivial) fun _ => .bind (instanceQuery (by simp)) fun result => ?_
    refine .andThen (ofRegister (t := .bool) result .boolean rfl (by simp) (jump (t := .bool) (by simp) (by simp))) fun _ => ?_
    exact same ▸ resumeAt (by simp)

theorem lowerNegatedTest (reached : v.isUnreachable = false)
    (given : .value v t ∈ needs) : Types o F needs (lowerNegatedTest chain v target) fun v => [.result v .boolean] := by
  refine .bind (lowerInstanceTest reached given) fun test => ?_
  split
  · exact .pure (subset_append_left _ _)
  · refine infer (f := .value test .bool) (fun _ facts => (facts (.result test .boolean) (by simp)).1) ?_
    refine .bind (materialize (t := .bool) (by simp)) fun r => ?_
    exact .bind (unary (t := .bool) (.inr rfl) (by simp)) fun r' => registerResult (t := .bool) ⟨rfl,rfl⟩ (by simp)

theorem lowerCoercion (reached : v.isUnreachable = false) (stored : ty.StoredAs target.storage) (given : .value v t ∈ needs) :
    Types o F needs (lowerCoercion v target ty location) fun v => [.result v ty] := by
  unfold Lower.lowerCoercion
  split
  · exact .throw
  · exact .throw
  · rename_i source wanted isSource isWanted
    rw [storage_of_primitive?_eq_some isWanted] at stored
    refine ofStorage reached given fun same => ?_
    obtain rfl : t = source.native := same.symm.trans (storage_of_primitive?_eq_some isSource)
    have converts := source.converts wanted
    refine .bind (materialize given) fun r => ?_
    cases conversion : source.conversion? wanted with
    | some kind =>
      rw [conversion] at converts
      exact .bind (cast converts (by simp)) fun r' => registerResult stored (by simp)
    | none =>
      rw [conversion] at converts
      exact registerResult stored (by simp [converts])

theorem lowerTypeOp (preserved : Preserved recurse) {e operand : Expr} {operator : TypeOperator}
    (here : Around o F needs chain Γ) (typed : operand.WellTyped o.env.decls Γ) (fits : operator.Fits operand.ty target e.ty) :
    Types o F needs (lowerTypeOp recurse chain e operator operand target) fun v => [.result v e.ty] := by
  unfold Lower.lowerTypeOp
  by_cases safe : operator = .safeCast
  · subst safe
    exact .throwBind
  · dsimp only
    rw [if_neg safe]
    refine evalThen preserved here typed (.inr rfl) noResult fun v reached live => ?_
    cases operator with
    | implicitCast =>
      have stored := fits.storage live
      exact retype v e.ty stored.2 (by simp) (result stored (by simp))
    | discard =>
      rw [show e.ty = .unit from fits]
      exact unitResult
    | cast => exact lowerCast reached (fits.storage live) (by simp)
    | instanceOf =>
      rw [show e.ty = .boolean from fits]
      exact lowerInstanceTest reached (.head _)
    | notInstanceOf =>
      rw [show e.ty = .boolean from fits]
      exact lowerNegatedTest reached (.head _)
    | coercion => exact lowerCoercion reached fits (.head _)
    | safeCast => exact .throw

/-! ### Variables and fields -/

theorem readVariable (here : Around o F needs chain Γ) (bound : Γ.locals var = some t) (stored : ty.StoredAs t) :
    Types o F needs (readVariable chain var location) fun v => [.result v ty] := by
  refine .bind (slot? here bound) fun found => ?_
  split
  · rename_i v
    exact infer (f := .value v t) (fun _ facts => facts (.slot (.value v) t) (by simp)) (result stored (by simp))
  · rename_i ptr ty'
    refine learn (P := ty'.storage = t) (fun _ facts => (facts (.slot (.stack ptr ty') t) (by simp)).1) fun same => ?_
    refine infer (f := .points ptr t) (fun _ facts => (facts (.slot (.stack ptr ty') t) (by simp)).2) ?_
    rw [same]
    refine .bind (load (t := t) (by simp)) fun r => ?_
    exact ofRegister r ty' same (by simp) (result stored (by simp))
  · exact .throw

theorem lowerWriteVar (preserved : Preserved recurse)
    (here : Around o F needs chain Γ) (bound : Γ.locals var = some t) (typed : value.WellTyped o.env.decls Γ) (fits : t.Accepts value.ty) :
    Types o F needs (lowerWriteVar recurse chain var value location) fun v => [.result v .unit] := by
  refine evalThen preserved here typed fits noResult fun v _ _ => .bind (slot? here.cons bound) fun found => ?_
  split
  · rename_i ptr ty'
    refine infer (f := .points ptr t) (fun _ facts => (facts (.slot (.stack ptr ty') t) (by simp)).2) ?_
    refine .bind (materialize (t := t) (by simp)) fun r => ?_
    exact .bind (store (t := t) (by simp) (by simp)) fun _ => unitResult
  · exact .breach
  · exact .throw

theorem declareStackSlot {initial : Option Value} (here : Around o F needs chain Γ)
    (bound : Γ.locals var = some ty.storage) (given : ∀ v ∈ initial, .value v ty.storage ∈ needs) :
    Types o F needs (Lower.declareStackSlot chain var ty initial) noFacts := by
  have stored : ∀ {needs'} ptr r, Around o F needs' chain Γ → .points ptr ty.storage ∈ needs' → .register r ty.storage ∈ needs' →
      Types o F needs' (do build (Build.store ptr r); Lower.declareVariable chain var (.stack ptr ty)) noFacts := by
    intro needs' ptr r around pointer known
    refine .bind (store (.inl pointer) known) fun _ => ?_
    refine infer (f := .slot (.stack ptr ty) ty.storage) (fun _ facts => ⟨rfl,facts _ (mem_append_right _ pointer)⟩) ?_
    exact declareVariable around.more.cons bound (by simp)
  refine .bind alloc fun ptr => ?_
  split
  · rename_i v
    exact .bind (materialize (mem_append_right _ (given v rfl))) fun r => stored ptr r here.more.more (by simp) (by simp)
  · exact .bind (const ty.zero_type) fun r => stored ptr r here.more.more (by simp) (by simp)

theorem lowerDeclaration (preserved : Preserved recurse) {isMutable : Bool} {initializer : Option Expr}
    (here : Around o F needs chain Γ) (bound : Γ.locals var = some ty.storage)
    (typed : ∀ e ∈ initializer, e.WellTyped o.env.decls Γ) (fits : ∀ e ∈ initializer, ty.Accepts e.ty) :
    Types o F needs (lowerDeclaration recurse chain var ty isMutable initializer) noFacts := by
  unfold Lower.lowerDeclaration
  split
  · exact declareStackSlot here bound (by simp)
  · rename_i e
    refine evalThen preserved here (typed e rfl) (fits e rfl).native (.done) fun v _ _ => ?_
    refine retype (t := ty.storage) v ty rfl (by simp) ?_
    dsimp only
    split
    · exact declareStackSlot here.cons.cons bound (by simp)
    · refine infer (f := .slot (.value (v.withType ty)) ty.storage) (fun _ facts =>
        facts (.value (v.withType ty) ty.storage) (by simp)) ?_
      exact declareVariable here.cons.cons.cons bound (by simp)

section
variable {id : FieldId} {field : FieldDecl} {receiver : Option Expr}
variable (preserved : Preserved recurse) (here : Around o F needs chain Γ)
include preserved here

theorem fieldReceiver (typed : ∀ e ∈ receiver, e.WellTyped o.env.decls Γ) (object : ∀ e ∈ receiver, ptr.Accepts e.ty)
    (self : receiver = none → Γ.receiver = some .ptr) : Types o F needs (fieldReceiver recurse chain id receiver) fun found =>
      found.toList.map (TypeFact.register · .ptr) := by
  unfold Lower.fieldReceiver
  split
  · rename_i e
    refine evalThen preserved here (typed e rfl) (object e rfl) (.pure (by simp)) fun v _ _ => ?_
    exact .bind (materialize (t := .ptr) (by simp)) fun r => .pure (by simp)
  · refine .liftThen fun receiver found => ?_
    obtain ⟨stored,known⟩ := here.typed.receiver found
    split
    · exact .breach
    · rename_i v
      rw [self rfl,map_some,some.injEq] at stored
      have given : .value v .ptr ∈ needs := by
        rw [stored]
        exact here.facts (known v rfl)
      exact .bind (materialize given) fun r => .pure (by simp)

variable (declared : o.env.decls.fields.get? id = some field) (typed : ∀ e ∈ receiver, e.WellTyped o.env.decls Γ)
  (object : ∀ e ∈ receiver, ptr.Accepts e.ty) (self : receiver = none → field.isStatic = false → Γ.receiver = some .ptr)
include declared typed object self

theorem fieldAddress : Types o F needs (fieldAddress recurse chain id receiver) fun found =>
      found.toList.flatMap fun r => [.register r .ptr,.plain r] := by
  refine .readThen (.liftThen fun field' found => ?_)
  obtain rfl : field = field' := by simpa [Declarations.getField,declared] using found
  split
  · exact .andThen (keeps_quiet fun run => run.globalOf) fun _ => .bind (const (t := .ptr) rfl) fun r => .pure (by simp)
  · rename_i isInstance
    refine .bind (fieldReceiver preserved here typed object fun empty => self empty (by simpa using isInstance)) fun found => ?_
    split
    · exact .pure (by simp)
    · split
      · exact .throw
      · exact .andThen .read fun _ => .andThen .lift fun _ => .andThen .lift fun _ => .bind (element (by simp)) fun r =>
          .pure (by simp)

theorem lowerReadField (stored : ty.StoredAs field.ty.storage) :
    Types o F needs (lowerReadField recurse chain id receiver ty) fun v => [.result v ty] := by
  refine .bind (fieldAddress preserved here declared typed object self) fun found => ?_
  split
  · exact noResult
  · refine .readThen (.liftThen fun field' found => ?_)
    obtain rfl : field = field' := by simpa [Declarations.getField,declared] using found
    exact .bind (load (.inr (by simp))) fun r => registerResult stored (by simp)

theorem lowerWriteField (assigned : value.WellTyped o.env.decls Γ) (fits : field.ty.storage.Accepts value.ty) :
    Types o F needs (lowerWriteField recurse chain id receiver value) fun v => [.result v .unit] := by
  refine .bind (fieldAddress preserved here declared typed object self) fun found => ?_
  split
  · exact noResult
  · refine evalThen preserved here.more assigned fits noResult fun v _ _ => ?_
    refine .bind (materialize (t := field.ty.storage) (by simp)) fun r => ?_
    exact .bind (store (t := field.ty.storage) (.inr (by simp)) (by simp)) fun _ => unitResult

end

theorem lowerConstant (stored : ty.StoredAs constant.storage) :
    Types o F needs (lowerConstant constant ty) fun v => [.result v ty] :=
  literalThen fun _ same => .bind (const same) fun r => registerResult stored (by simp)

theorem lowerFunctionRef {function : FunctionId} (stored : ty.StoredAs .ptr) :
    Types o F needs (lowerFunctionRef function ty) fun v => [.result v ty] :=
  .andThen (keeps_quiet fun run => run.procedureOf.1) fun _ => .bind (const (t := .ptr) rfl) fun r => registerResult stored (by simp)

end Types

end BlockLowering
