import BlockLowering.Pass.Unwind
/-!
Operators that become instructions: arithmetic and comparisons, casts, instance tests and changes
between primitive representations.
-/
namespace BlockLowering

inductive OperatorForm where
  | binary (op : BinaryOp)
  | compare (op : CompareOp)
  | unary (op : UnaryOp)
  /-- An operation with the constant one on its right. -/
  | step (op : BinaryOp)
  deriving DecidableEq, Repr

/-- The instruction of an operator on integers, truth values and references, or on floats. -/
def Intrinsic.form (isFloat : Bool) : Intrinsic → OperatorForm
  | .plus => .binary (if isFloat then .fadd else .add)
  | .minus => .binary (if isFloat then .fsub else .sub)
  | .times => .binary (if isFloat then .fmul else .mul)
  | .div => .binary (if isFloat then .fdiv else .div)
  | .rem => .binary (if isFloat then .frem else .rem)
  | .and => .binary .and
  | .or => .binary .or
  | .xor => .binary .xor
  | .shl => .binary .shl
  | .shr => .binary .shr
  | .less => .compare (if isFloat then .flt else .lt)
  | .lessOrEqual => .compare (if isFloat then .fle else .le)
  | .greater => .compare (if isFloat then .fgt else .gt)
  | .greaterOrEqual => .compare (if isFloat then .fge else .ge)
  | .equals => .compare (if isFloat then .feq else .eq)
  | .identityEquals => .compare .eq
  | .not => .unary .not
  | .unaryMinus => .unary (if isFloat then .fneg else .neg)
  | .inc => .step (if isFloat then .fadd else .add)
  | .dec => .step (if isFloat then .fsub else .sub)

/-- The conversion between two primitives, if their representations differ. Truth values and
    characters are unsigned. -/
def Primitive.conversion? (source target : Primitive) : Option CastKind :=
  match source.isFloating, target.isFloating with
  | false, false =>
    let narrow := (source.native.bitWidth?).getD 32
    let wide := (target.native.bitWidth?).getD 32
    if wide < narrow then some .trunc
    else if narrow < wide then
      some (if source = .char ∨ source = .boolean then .zeroExtend else .signExtend)
    else none
  | false, true => some .intToFloat
  | true, false => some .floatToInt
  | true, true => if source = target then none else some .floatResize

namespace Lower

def oneOf (type : NativeType) : Build Register :=
  match type with
  | .f32 => Build.const (.f32 0x3f800000)
  | .f64 => Build.const (.f64 0x3ff0000000000000)
  | type => Build.int 1 type

def operand (intrinsic : Intrinsic) (args : List Register) (index : Nat) : Lower Register :=
  match args[index]? with
  | some register => return register
  | none => breach (.noOperand intrinsic.name index)

def lowerIntrinsic (intrinsic : Intrinsic) (args : List Register) (ty : Ty) : Lower Value := do
  let left ← operand intrinsic args 0
  let type := (← get).builder.registerType? left
  let isFloat := (type.map NativeType.isFloat).getD false
  let register ← match intrinsic.form isFloat with
    | .binary op => do
      let right ← operand intrinsic args 1
      build (Build.binary op left right)
    | .compare op => do
      let right ← operand intrinsic args 1
      build (Build.compare op left right)
    | .unary op => build (Build.unary op left)
    | .step op => build do
      let one ← oneOf (type.getD .i32)
      Build.binary op left one
  return .ofRegister register ty

/-- A cast that is checked when it runs; null passes where the target is nullable. -/
def lowerCast (chain : Chain) (value : Value) (target ty : Ty) (location : Location) : Lower Value := do
  if target.isAny || value.ty.primitive?.isSome then return value.withType ty
  match target.class? with
  | none => throw (.typeMismatch .classType (.inr target) location)
  | some cls =>
    let object ← materialize value
    if target.isNullable then
      let check ← build (Build.labelledBlock "cast.check")
      let done ← newContinuation .unit "cast.done"
      build do
        let null ← Build.null
        let isNull ← Build.compare .eq object null
        Build.condBranch isNull done.block check
        Build.switchTo check
      let descriptor ← descriptorAddress cls
      let _ ← callSupport chain .checkCast [object,descriptor]
      jump done .unit
      let _ ← resumeAt done
      return .ofRegister object ty
    else
      let descriptor ← descriptorAddress cls
      let _ ← callSupport chain .checkCast [object,descriptor]
      return .ofRegister object ty

/-- Whether a value that is not null belongs to a type. -/
def instanceQuery (chain : Chain) (object : Register) : Ty → Lower Register
  | .any _ => build (Build.bool true)
  | .reference cls _ => do
    let descriptor ← descriptorAddress cls
    produced .instanceCheck (← callSupport chain .isInstance [object,descriptor])
  | _ => build (Build.bool false)

/-- An instance test: primitives by their kind, null by the target, and the rest by the library. -/
def lowerInstanceTest (chain : Chain) (value : Value) (target : Ty) : Lower Value := do
  match value.ty.primitive? with
  | some kind => return .ofRegister (← build (Build.bool (target.primitive? = some kind))) .boolean
  | none =>
    let object ← materialize value
    let merge ← newContinuation .boolean "is.merge"
    let nullBlock ← build (Build.labelledBlock "is.null")
    let testBlock ← build (Build.labelledBlock "is.test")
    let onNull ← build do
      let null ← Build.null
      let isNull ← Build.compare .eq object null
      Build.condBranch isNull nullBlock testBlock
      Build.switchTo nullBlock
      Build.bool target.isNullable
    jump merge (.ofRegister onNull .boolean)
    build (Build.switchTo testBlock)
    let result ← instanceQuery chain object target
    jump merge (.ofRegister result .boolean)
    resumeAt merge

def lowerNegatedTest (chain : Chain) (value : Value) (target : Ty) : Lower Value := do
  let test ← lowerInstanceTest chain value target
  if test.isUnreachable then return test
  let register ← materialize test
  return .ofRegister (← build (Build.unary .not register)) .boolean

def lowerCoercion (value : Value) (target ty : Ty) (location : Location) : Lower Value := do
  match value.ty.primitive?, target.primitive? with
  | none, _ => throw (.typeMismatch .primitiveType (.inr value.ty) location)
  | _, none => throw (.typeMismatch .primitiveType (.inr target) location)
  | some source, some wanted =>
    let register ← materialize value
    match source.conversion? wanted with
    | some kind => return .ofRegister (← build (Build.cast register kind wanted.native)) ty
    | none => return .ofRegister register ty

/-- A type operator; a safe cast has to be gone before this pass. -/
def lowerTypeOp (recurse : Recurse) (chain : Chain) (e : Expr) (operator : TypeOperator) (operand : Expr) (target : Ty) : Lower Value := do
  if operator = .safeCast then throw (.unsupported e.kindName e.location)
  match ← eval recurse chain operand with
  | none => return .unreachable e.ty
  | some value =>
    match operator with
    | .implicitCast => return value.withType e.ty
    | .discard => return .unit
    | .cast => lowerCast chain value target e.ty e.location
    | .instanceOf => lowerInstanceTest chain value target
    | .notInstanceOf => lowerNegatedTest chain value target
    | .coercion => lowerCoercion value target e.ty e.location
    | .safeCast => throw (.unsupported e.kindName e.location)

end Lower

end BlockLowering
