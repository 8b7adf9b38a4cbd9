import Mathlib.Data.List.Forall2
import BlockLowering.Pass.Program
/-!
Well-typed programs, as far as storage is concerned. An expression fits a place if its type is stored as
the place requires. What has type `Nothing` fits every place, because it does not complete: it is an exit, a
call of a function that never returns, or a construct all of whose ways to complete have type `Nothing` in
their turn.
-/
namespace BlockLowering
open NativeType
variable {given : Ty}

/-- A value of one type may stand where another type is required. Nothing but `Nothing` stands for itself. -/
def Ty.Accepts (required given : Ty) : Prop :=
  given.isNever = true ∨ required.isNever = false ∧ given.storage = required.storage

/-- An expression of a type may stand where a native type is required. -/
def NativeType.Accepts (required : NativeType) (given : Ty) : Prop := given.isNever = true ∨ given.storage = required

/-- A type with values, which are stored as a native type. -/
def Ty.StoredAs (t : Ty) (native : NativeType) : Prop := t.isNever = false ∧ t.storage = native

theorem NativeType.Accepts.storage {required : NativeType} (fits : required.Accepts given)
    (live : given.isNever = false) : given.storage = required := fits.resolve_left (by simp [live])

theorem Ty.Accepts.storage {required : Ty} (fits : required.Accepts given) (live : given.isNever = false) :
    required.StoredAs given.storage := by
  obtain ⟨lives,same⟩ := fits.resolve_left (by simp [live])
  exact ⟨lives,same.symm⟩

theorem Ty.Accepts.refl (ty : Ty) : ty.Accepts ty := by
  unfold Ty.Accepts
  cases ty.isNever <;> simp

theorem Ty.Accepts.native {required : Ty} (fits : required.Accepts given) : required.storage.Accepts given :=
  fits.imp_right And.right

instance (required given : Ty) : Decidable (required.Accepts given) := inferInstanceAs (Decidable (_ ∨ _))

instance (required : NativeType) (given : Ty) : Decidable (required.Accepts given) := inferInstanceAs (Decidable (_ ∨ _))

instance (t : Ty) (native : NativeType) : Decidable (t.StoredAs native) := inferInstanceAs (Decidable (_ ∧ _))

/-- What the constructs around an expression say of types. -/
structure TypeContext where
  /-- How the variables that may be in scope are stored. -/
  locals : VarId → Option NativeType
  /-- The types of the functions and inlined bodies that can be returned from. -/
  returns : FunctionId → Option Ty
  /-- How the receiver of the function is stored. -/
  receiver : Option NativeType

namespace TypeContext

def empty : TypeContext := ⟨fun _ => none,fun _ => none,none⟩

/-- Inside a scope with further variables; one that is in scope already keeps its type. -/
def Extends (outer inner : VarId → Option NativeType) : Prop := ∀ {x t}, outer x = some t → inner x = some t

/-- Inside the inlined body of a function. -/
def inline (Γ : TypeContext) (function : FunctionId) (ty : Ty) : TypeContext :=
  { Γ with returns := fun f => if f = function then some ty else Γ.returns f }

end TypeContext

def Constant.storage : Constant → NativeType
  | .null | .string _ => .ptr
  | .boolean _ => .bool
  | .byte _ => .i8
  | .char _ | .short _ => .i16
  | .int _ => .i32
  | .long _ => .i64
  | .float _ => .f32
  | .double _ => .f64

namespace Intrinsic

def arity : Intrinsic → Nat
  | .not | .unaryMinus | .inc | .dec => 1
  | _ => 2

/-- The native types that an operator is defined for. -/
def AppliesTo (t : NativeType) : Intrinsic → Prop
  | .plus | .minus | .times | .div | .rem | .unaryMinus | .inc | .dec => t.isInteger = true ∨ t.isFloat = true
  | .and | .or | .xor | .not => t.isInteger = true ∨ t = .bool
  | .shl | .shr => t.isInteger = true
  | .less | .lessOrEqual | .greater | .greaterOrEqual | .equals => t.isInteger = true ∨ t.isFloat = true ∨ t = .bool
  | .identityEquals => t.isFloat = false

/-- The native type of the result of an operator on operands of one type. -/
def result (t : NativeType) : Intrinsic → NativeType
  | .less | .lessOrEqual | .greater | .greaterOrEqual | .equals | .identityEquals => .bool
  | _ => t

end Intrinsic

/-- The receivers and arguments that a call supplies, in order. -/
def Call.supplied (c : Call Expr) : List Expr :=
  c.dispatchReceiver.toList ++ c.extensionReceiver.toList ++ c.arguments.filterMap id

/-- Expressions are supplied for parameters, one for each. -/
def Supplies (given : List Expr) (parameters : List ParameterDecl) : Prop :=
  List.Forall₂ (fun (p : ParameterDecl) (e : Expr) => p.ty.Accepts e.ty) parameters given

/-- A call supplies what the function declares and has the type that the function returns. -/
inductive Call.Fits (function : FunctionDecl) (c : Call Expr) (ty : Ty) : Prop
  /-- An operator is applied to operands of one type. -/
  | operator {i : Intrinsic} {t : NativeType} (intrinsic : function.intrinsic = some i)
      (arity : c.supplied.length = i.arity) (applies : i.AppliesTo t) (operands : ∀ e ∈ c.supplied, t.Accepts e.ty)
      (result : ty.StoredAs (i.result t))
  /-- A constructor is called for a new object, which it declares as its receiver. -/
  | construction {receiver : ParameterDecl} (plain : function.intrinsic = none)
      (constructs : function.isConstructor = true) (fresh : c.dispatchReceiver = none)
      (declared : function.dispatchReceiver = some receiver) (object : receiver.ty.storage = .ptr)
      (supplied : Supplies c.supplied (function.extensionReceiver.toList ++ function.parameters))
      (result : ty.StoredAs .ptr)
  /-- A function is called; one that can be overridden is found through its receiver, a reference. -/
  | function (plain : function.intrinsic = none)
      (bound : function.isConstructor = true → c.dispatchReceiver.isSome = true ∧ function.returnType = .unit)
      (object : function.isOverridable = true → ∀ receiver ∈ function.dispatchReceiver, receiver.ty.storage = .ptr)
      (supplied : Supplies c.supplied function.allParameters) (result : ty = function.returnType)

def Statement.ty : Statement Expr → Ty
  | .expression e => e.ty
  | .variable .. => .unit

def Statement.operand? : Statement Expr → Option Expr
  | .expression e => some e
  | .variable _ _ _ _ initializer => initializer

/-- A declaration fits the variables in scope. -/
def Statement.Fits (locals : VarId → Option NativeType) : Statement Expr → Prop
  | .expression _ => True
  | .variable id _ ty _ initializer => locals id = some ty.storage ∧ ∀ e ∈ initializer, ty.Accepts e.ty

/-- The type of an expression that changes or tests the type of another. -/
def TypeOperator.Fits (operand target ty : Ty) : TypeOperator → Prop
  | .cast | .implicitCast => ty.Accepts operand
  | .instanceOf | .notInstanceOf => ty = .boolean
  | .coercion => ty.StoredAs target.storage
  | .discard => ty = .unit
  | .safeCast => True

/-- An expression is well typed: every part of it is, fits its place and has the type that its kind produces. -/
inductive Expr.WellTyped (decls : Declarations) : TypeContext → Expr → Prop
  | call {Γ c function ty location} (declared : decls.functions.get? c.function = some function)
      (operands : ∀ e ∈ c.supplied, WellTyped decls Γ e) (fits : c.Fits function ty)
      (folded : function.constantFactory.isSome = true → ty.StoredAs .ptr) : WellTyped decls Γ (.mk (.call c) ty location)
  | delegate {Γ constructor arguments function receiver location}
      (declared : decls.functions.get? constructor = some function)
      (operands : ∀ e ∈ arguments.filterMap id, WellTyped decls Γ e)
      (object : function.dispatchReceiver = some receiver) (self : Γ.receiver = some receiver.ty.storage)
      (alone : function.extensionReceiver = none) (supplied : Supplies (arguments.filterMap id) function.parameters) :
      WellTyped decls Γ (.mk (.delegate constructor arguments) .unit location)
  | readVar {Γ var t ty location} (bound : Γ.locals var = some t) (stored : ty.StoredAs t) :
      WellTyped decls Γ (.mk (.readVar var) ty location)
  | writeVar {Γ var t value location} (bound : Γ.locals var = some t) (typed : WellTyped decls Γ value)
      (fits : t.Accepts value.ty) : WellTyped decls Γ (.mk (.writeVar var value) .unit location)
  | readField {Γ id receiver field ty location} (declared : decls.fields.get? id = some field)
      (typed : ∀ e ∈ receiver, WellTyped decls Γ e) (object : ∀ e ∈ receiver, ptr.Accepts e.ty)
      (self : receiver = none → field.isStatic = false → Γ.receiver = some .ptr) (stored : ty.StoredAs field.ty.storage) :
      WellTyped decls Γ (.mk (.readField id receiver) ty location)
  | writeField {Γ id receiver field value location} (declared : decls.fields.get? id = some field)
      (typed : ∀ e ∈ receiver, WellTyped decls Γ e) (object : ∀ e ∈ receiver, ptr.Accepts e.ty)
      (self : receiver = none → field.isStatic = false → Γ.receiver = some .ptr)
      (assigned : WellTyped decls Γ value) (fits : field.ty.storage.Accepts value.ty) :
      WellTyped decls Γ (.mk (.writeField id receiver value) .unit location)
  | constant {Γ value ty location} (stored : ty.StoredAs value.storage) :
      WellTyped decls Γ (.mk (.constant value) ty location)
  | returnFrom {Γ target ty value location} (enclosing : Γ.returns target = some ty) (typed : WellTyped decls Γ value)
      (fits : ty.Accepts value.ty) : WellTyped decls Γ (.mk (.returnFrom target value) .never location)
  | choice {Γ branches ty location} (conditions : ∀ branch ∈ branches, WellTyped decls Γ branch.condition)
      (boolean : ∀ branch ∈ branches, bool.Accepts branch.condition.ty)
      (results : ∀ branch ∈ branches, WellTyped decls Γ branch.result)
      (fits : ∀ branch ∈ branches, ty.Accepts branch.result.ty)
      (exhaustive : ty.isNever = true → Lower.isExhaustive branches = true) :
      WellTyped decls Γ (.mk (.choice branches) ty location)
  | raise {Γ exception location} (typed : WellTyped decls Γ exception) (object : ptr.Accepts exception.ty) :
      WellTyped decls Γ (.mk (.raise exception) .never location)
  | guarded {Γ body clauses finalizer ty location} {inner : CatchClause Expr → VarId → Option NativeType}
      (typed : WellTyped decls Γ body) (fits : ty.Accepts body.ty)
      (extend : ∀ clause ∈ clauses, TypeContext.Extends Γ.locals (inner clause))
      (parameters : ∀ clause ∈ clauses, inner clause clause.parameter = some clause.ty.storage)
      (handlers : ∀ clause ∈ clauses, WellTyped decls { Γ with locals := inner clause } clause.body)
      (handled : ∀ clause ∈ clauses, ty.Accepts clause.body.ty) (finalizers : ∀ e ∈ finalizer, WellTyped decls Γ e) :
      WellTyped decls Γ (.mk (.guarded body clauses finalizer) ty location)
  | inlined {Γ function body ty location} (typed : WellTyped decls (Γ.inline function ty) body) (fits : ty.Accepts body.ty) :
      WellTyped decls Γ (.mk (.inlined function body) ty location)
  | sequence {Γ statements ty location} {locals : VarId → Option NativeType} (extend : TypeContext.Extends Γ.locals locals)
      (operands : ∀ statement ∈ statements, ∀ e ∈ statement.operand?, WellTyped decls { Γ with locals } e)
      (declared : ∀ statement ∈ statements, statement.Fits locals)
      (last : ty = .unit ∨ ty.Accepts ((statements.getLast?.map Statement.ty).getD .unit)) :
      WellTyped decls Γ (.mk (.sequence statements) ty location)
  | whileLoop {Γ loop condition body location} (tested : WellTyped decls Γ condition)
      (boolean : bool.Accepts condition.ty) (typed : WellTyped decls Γ body) :
      WellTyped decls Γ (.mk (.whileLoop loop condition body) .unit location)
  | repeatLoop {Γ loop body condition location} (typed : WellTyped decls Γ body) (tested : WellTyped decls Γ condition)
      (boolean : bool.Accepts condition.ty) :
      WellTyped decls Γ (.mk (.repeatLoop loop body condition) .unit location)
  | arrayLiteral {Γ elementType items ty location} (typed : ∀ item ∈ items, WellTyped decls Γ item.expression)
      (elements : ∀ e, .element e ∈ items → elementType.storage.Accepts e.ty)
      (arrays : ∀ e, .spread e ∈ items → ptr.Accepts e.ty) (stored : ty.StoredAs .ptr) :
      WellTyped decls Γ (.mk (.arrayLiteral elementType items) ty location)
  | breakFrom {Γ loop location} : WellTyped decls Γ (.mk (.breakFrom loop) .never location)
  | continueWith {Γ loop location} : WellTyped decls Γ (.mk (.continueWith loop) .never location)
  | singleton {Γ cls ty location}
      (created : ∀ {constructor}, decls.defaultConstructor cls = .ok constructor → constructor.extensionReceiver = none ∧
        ∃ receiver, constructor.dispatchReceiver = some receiver ∧ receiver.ty.storage = .ptr)
      (stored : ty.StoredAs .ptr) : WellTyped decls Γ (.mk (.singleton cls) ty location)
  | functionRef {Γ function ty location} (stored : ty.StoredAs .ptr) :
      WellTyped decls Γ (.mk (.functionRef function) ty location)
  | typeOp {Γ operator operand target ty location} (typed : WellTyped decls Γ operand)
      (fits : operator.Fits operand.ty target ty) : WellTyped decls Γ (.mk (.typeOp operator operand target) ty location)

/-- The body of a function is well typed where its parameters are in scope. -/
def FunctionDecl.BodyTyped (decls : Declarations) (function : FunctionDecl) (body : Expr) : Prop :=
  ∃ locals, (∀ parameter ∈ function.allParameters, locals parameter.id = some parameter.ty.storage) ∧
    Expr.WellTyped decls ⟨locals,fun f => if f = function.id then some function.returnType else none,
      function.dispatchReceiver.map fun receiver => receiver.ty.storage⟩ body

/-- A program is well typed: functions are declared under their own names, and bodies and initializers are well
    typed. -/
structure WellTypedProgram (decls : Declarations) (units : List SourceUnit) : Prop where
  named : ∀ {id function}, decls.functions.get? id = some function → function.id = id
  bodies : ∀ unit ∈ units, ∀ body ∈ unit.functions, ∀ function ∈ decls.functions.get? body.function,
    function.BodyTyped decls body.body
  initializers : ∀ unit ∈ units, ∀ id ∈ unit.staticFields, ∀ field ∈ decls.fields.get? id, ∀ e ∈ field.initializer,
    Expr.WellTyped decls .empty e ∧ field.ty.storage.Accepts e.ty

end BlockLowering
