import BlockLowering.Pass.Operator
import BlockLowering.Text.WordHash
/-!
Calls: receivers and arguments from left to right, then the way to the code. Operators become
instructions, factory calls on constants become static data, and methods that can be overridden are
found through the type descriptor of their receiver.
-/
namespace BlockLowering

inductive Dispatch where
  | direct
  /-- Through the method table of the receiver's class. -/
  | table
  /-- Through a lookup by the hash of the signature. -/
  | lookup
  deriving DecidableEq, Repr

/-- The way of a call to a function whose owner is of a kind; one that names a superclass is direct. -/
def Dispatch.choose (function : FunctionDecl) (ownerKind : Option ClassKind) (superQualifier : Option ClassId) : Dispatch :=
  if superQualifier.isSome || function.isConstructor || function.dispatchReceiver.isNone ||
      !function.isOverridable then .direct
  else if ownerKind = some .interface then .lookup
  else .table

/-- The text that stands for a method in lookups: its name and its types. -/
def FunctionDecl.signatureKey (f : FunctionDecl) : String :=
  let types := ",".intercalate ((f.extensionReceiver.toList ++ f.parameters).map fun p => toString p.ty)
  s!"{f.name}({types}):{f.returnType}"

namespace Lower

/-- Evaluate expressions from left to right into registers, unless one does not complete. -/
def evalAll (recurse : Recurse) (chain : Chain) : List Expr → Lower (Option (List Register))
  | [] => return some []
  | e :: rest => do
    match ← eval recurse chain e with
    | none => return none
    | some value =>
      let register ← materialize value
      match ← evalAll recurse chain rest with
      | none => return none
      | some registers => return some (register :: registers)

def missingArgument? (parameters : Nat) (arguments : List (Option Expr)) : Option Nat :=
  match arguments.findIdx? Option.isNone with
  | some index => some index
  | none => if arguments.length < parameters then some arguments.length else none

/-- Evaluate arguments, of which there is one for every parameter. -/
def evalArguments (recurse : Recurse) (chain : Chain) (function : FunctionDecl)
    (arguments : List (Option Expr)) : Lower (Option (List Register)) := do
  let symbol := (← read).decls.functionSymbol function
  let expected := function.parameters.length
  if expected < arguments.length then throw (.extraArguments symbol expected arguments.length)
  match missingArgument? expected arguments with
  | some index => throw (.missingArgument symbol index)
  | none => evalAll recurse chain (arguments.filterMap id)

def literalItems : List (ArrayItem Expr) → Lower (Option (List Literal))
  | [] => return some []
  | .element (.mk (.constant value) _ _) :: rest => do
    let literal ← literalOf value
    return (← literalItems rest).map (literal :: ·)
  | _ :: _ => return none

def placeFactory (factory : ConstantFactory) (elementType : NativeType) (literals : List Literal) : Lower DataId := do
  let array ← onModule fun m => m.placeArray elementType literals
  match factory with
  | .arrayOf => return array
  | .listOf => onModule fun m => m.placeAggregate [.i32 (.ofInt literals.length),.data array]

/-- The static data of a factory call whose one argument is an array literal of constants. -/
def foldFactory (factory : ConstantFactory) (arguments : List (Option Expr)) (ty : Ty) : Lower (Option Value) := do
  if (← read).settings.foldFactories then
    match arguments with
    | [some (.mk (.arrayLiteral elementType items) _ _)] =>
      match ← literalItems items with
      | none => return none
      | some literals =>
        let data ← placeFactory factory elementType.storage literals
        log (.foldedFactory factory data)
        return some (.ofRegister (← build (Build.const (.data data))) ty)
    | _ => return none
  else return none

/-- A new object of a class, not yet initialized. -/
def allocateInstance (chain : Chain) (cls : ClassId) : Lower Register := do
  let descriptor ← descriptorAddress cls
  produced .newObject (← callSupport chain .allocInstance [descriptor])

/-- A constructor call: a new object is initialized and is the result. -/
def construct (chain : Chain) (constructor : FunctionDecl) (args : List Register) (lifetime : Lifetime) (ty : Ty) : Lower Value := do
  match constructor.owner with
  | none => throw (.unresolved (.classOf constructor.name))
  | some cls =>
    let object ← allocateInstance chain cls
    let target ← directTarget constructor.id
    let _ ← call chain target (object :: args) lifetime
    return .ofRegister object ty

def lowerDelegate (recurse : Recurse) (chain : Chain) (constructor : FunctionId) (arguments : List (Option Expr)) : Lower Value := do
  match ← chain.receiver with
  | none => throw (.invalidTransfer .delegating)
  | some receiver =>
    let function ← (← read).decls.getFunction constructor
    let object ← materialize receiver
    match ← evalArguments recurse chain function arguments with
    | none => return .unreachable .unit
    | some args =>
      let target ← directTarget constructor
      let _ ← call chain target (object :: args) .irrelevant
      return .unit

def ownerOf (function : FunctionDecl) : Except Error ClassId :=
  match function.owner with
  | some owner => .ok owner
  | none => .error (.unresolved (.ownerOfFunction function.name))

/-- The type descriptor of the receiver, from the head of its object. -/
def receiverDescriptor (function : FunctionDecl) (args : List Register) : Lower Register := do
  match args with
  | [] => breach (.noReceiverArgument function.name)
  | receiver :: _ =>
    let owner ← ownerOf function
    let body ← (← read).layout.bodyType owner
    build do
      let head ← Build.element receiver [0] body
      Build.load head .ptr

def indirectTarget (function : FunctionDecl) (pointer : Register) : Lower CallTarget := do
  let signature := function.nativeHeader.signature
  let typed ← build (Build.bitcast pointer signature.type)
  return ⟨.indirect typed,signature,true⟩

def tableTarget (function : FunctionDecl) (args : List Register) : Lower CallTarget := do
  let descriptor ← receiverDescriptor function args
  let owner ← ownerOf function
  let layout := (← read).layout
  let slot ← layout.vtableSlot function.id
  let type ← layout.descriptorType owner
  let pointer ← build do
    let entry ← Build.element descriptor [Layout.vtableBase + slot] type
    Build.load entry .ptr
  indirectTarget function pointer

def lookupTarget (chain : Chain) (function : FunctionDecl) (args : List Register) : Lower CallTarget := do
  let descriptor ← receiverDescriptor function args
  let hash ← build (Build.const (.i64 (Text.wordHash function.signatureKey).toInt64))
  let pointer ← produced .openMethod (← callSupport chain .lookupOpenMethod [descriptor,hash])
  indirectTarget function pointer

def ownerKind (decls : Declarations) (function : FunctionDecl) : Except Error (Option ClassKind) :=
  match function.owner with
  | some owner => (decls.getClass owner).map fun c => some c.kind
  | none => .ok none

def callTarget (chain : Chain) (function : FunctionDecl) (e : Call Expr) (args : List Register) : Lower CallTarget := do
  let kind ← ownerKind (← read).decls function
  match Dispatch.choose function kind e.superQualifier with
  | .direct => directTarget e.function
  | .table => tableTarget function args
  | .lookup => lookupTarget chain function args

/-- The value of a call; one that never returns ends the path. -/
def callResult (function : FunctionDecl) (result : Option Register) (ty : Ty) : Lower Value := do
  if function.returnType.isNever then
    if !(← isTerminated) then build Build.unreachable
    return .unreachable ty
  match result with
  | some register => return .ofRegister register ty
  | none => return .unit

def applyCall (chain : Chain) (function : FunctionDecl) (e : Call Expr) (args : List Register) (ty : Ty) : Lower Value := do
  match function.intrinsic with
  | some intrinsic => lowerIntrinsic intrinsic args ty
  | none =>
    if function.isConstructor && e.dispatchReceiver.isNone then
      construct chain function args e.lifetime ty
    else
      let target ← callTarget chain function e args
      let result ← call chain target args e.lifetime
      callResult function result ty

/-- A call whose receivers come first, then its arguments. -/
def evaluateCall (recurse : Recurse) (chain : Chain) (function : FunctionDecl) (e : Call Expr) (ty : Ty) : Lower Value := do
  match ← evalAll recurse chain (e.dispatchReceiver.toList ++ e.extensionReceiver.toList) with
  | none => return .unreachable ty
  | some receivers =>
    match ← evalArguments recurse chain function e.arguments with
    | none => return .unreachable ty
    | some args => applyCall chain function e (receivers ++ args) ty

def lowerCall (recurse : Recurse) (chain : Chain) (e : Call Expr) (ty : Ty) : Lower Value := do
  let function ← (← read).decls.getFunction e.function
  let folded ← match function.constantFactory with
    | some factory => foldFactory factory e.arguments ty
    | none => pure none
  match folded with
  | some value => return value
  | none => evaluateCall recurse chain function e ty

end Lower

end BlockLowering
