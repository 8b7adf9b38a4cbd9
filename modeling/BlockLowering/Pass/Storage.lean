import BlockLowering.Pass.Continuation
/-!
Variables and fields. A variable that never changes is its value; the others have a stack slot. A
static field is a global, and an instance field is an element of the body of its object.
-/
namespace BlockLowering.Lower

def lowerWriteVar (recurse : Recurse) (chain : Chain) (var : VarId) (value : Expr) (location : Location) : Lower Value := do
  match ← eval recurse chain value with
  | none => return .unreachable .unit
  | some value =>
    match ← slot? chain var with
    | some (.stack ptr _) =>
      let register ← materialize value
      build (Build.store ptr register)
      return .unit
    | some (.value _) => breach (.immutableVariable var location)
    | none => throw (.unboundVariable var location)

/-- Give a variable a stack slot with a first value, which is zero unless one is given. -/
def declareStackSlot (chain : Chain) (var : VarId) (ty : Ty) (initial : Option Value) : Lower Unit := do
  let ptr ← build (Build.alloc ty.storage)
  let register ← match initial with
    | some value => materialize value
    | none => build (Build.const ty.storage.zero)
  build (Build.store ptr register)
  declareVariable chain var (.stack ptr ty)

/-- The declaration of a local variable. Nothing is declared when its initializer does not complete. -/
def lowerDeclaration (recurse : Recurse) (chain : Chain) (var : VarId) (ty : Ty) (isMutable : Bool)
    (initializer : Option Expr) : Lower Unit := do
  match initializer with
  | none => declareStackSlot chain var ty none
  | some e =>
    match ← eval recurse chain e with
    | none => return
    | some value =>
      if isMutable then declareStackSlot chain var ty (some (value.withType ty))
      else declareVariable chain var (.value (value.withType ty))

/-- The object that holds an instance field: the given one, or else the receiver of the function. There
    is none if the expression for it does not complete. -/
def fieldReceiver (recurse : Recurse) (chain : Chain) (field : FieldId) (receiver : Option Expr) : Lower (Option Register) := do
  match receiver with
  | some e =>
    match ← eval recurse chain e with
    | none => return none
    | some value => return some (← materialize value)
  | none =>
    match ← chain.receiver with
    | none => breach (.noReceiver field)
    | some value => return some (← materialize value)

def fieldAddress (recurse : Recurse) (chain : Chain) (id : FieldId) (receiver : Option Expr) : Lower (Option Register) := do
  let field ← (← read).decls.getField id
  if field.isStatic then
    let global ← globalOf (.staticField id)
    return some (← build (Build.const (.global global)))
  match ← fieldReceiver recurse chain id receiver with
  | none => return none
  | some object =>
    match field.owner with
    | none => throw (.unresolved (.ownerOfField id))
    | some owner =>
      let layout := (← read).layout
      let body ← layout.bodyType owner
      let index ← layout.fieldIndex id
      return some (← build (Build.element object [index] body))

def lowerReadField (recurse : Recurse) (chain : Chain) (id : FieldId) (receiver : Option Expr) (ty : Ty) : Lower Value := do
  match ← fieldAddress recurse chain id receiver with
  | none => return .unreachable ty
  | some address =>
    let field ← (← read).decls.getField id
    return .ofRegister (← build (Build.load address field.ty.storage)) ty

/-- An assignment to a field; the address comes before the value. -/
def lowerWriteField (recurse : Recurse) (chain : Chain) (id : FieldId) (receiver : Option Expr) (value : Expr) : Lower Value := do
  match ← fieldAddress recurse chain id receiver with
  | none => return .unreachable .unit
  | some address =>
    match ← eval recurse chain value with
    | none => return .unreachable .unit
    | some value =>
      let register ← materialize value
      build (Build.store address register)
      return .unit

def lowerConstant (value : Constant) (ty : Ty) : Lower Value := do
  let literal ← literalOf value
  return .ofRegister (← build (Build.const literal)) ty

def lowerFunctionRef (function : FunctionId) (ty : Ty) : Lower Value := do
  let proc ← procedureOf function
  return .ofRegister (← build (Build.const (.proc proc))) ty

end BlockLowering.Lower
