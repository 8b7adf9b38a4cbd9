import BlockLowering.Diagnostic
import BlockLowering.Expr
/-!
The reasons for which lowering stops, as causes; their wording is given here once. Exceptions of the
source program are data and no errors.
-/
namespace BlockLowering

inductive Missing where
  | cls (id : ClassId)
  | function (id : FunctionId)
  | field (id : FieldId)
  | defaultConstructor (cls : ClassId)
  | classOf (function : String)
  | ownerOfFunction (function : String)
  | ownerOfField (field : FieldId)
  | layoutOfClass (cls : ClassId)
  | layoutOfField (field : FieldId)
  | vtableSlot (function : FunctionId)
  | typeDescriptor (cls : ClassId)
  deriving DecidableEq, Repr

def Missing.message : Missing → String
  | .cls id => toString id
  | .function id => toString id
  | .field id => toString id
  | .defaultConstructor c => s!"default constructor of {c}"
  | .classOf name => s!"class of {name}"
  | .ownerOfFunction name => s!"owner of {name}"
  | .ownerOfField id => s!"owner of {id}"
  | .layoutOfClass c => s!"layout of {c}"
  | .layoutOfField id => s!"layout of {id}"
  | .vtableSlot id => s!"vtable slot of {id}"
  | .typeDescriptor c => s!"type descriptor of {c}"

/-- A request that the enclosing scopes answer. -/
inductive Request where
  | returning
  | breaking
  | continuing
  | throwing
  | calling
  | declaring
  | owning
  | delegating
  deriving DecidableEq, Repr

def Request.message : Request → String
  | .returning => "return"
  | .breaking => "break"
  | .continuing => "continue"
  | .throwing => "throw"
  | .calling => "call"
  | .declaring => "declare variable"
  | .owning => "owner function"
  | .delegating => "delegating constructor call"

inductive Expected where
  | integer
  | classType
  | catchableType
  | primitiveType
  deriving DecidableEq, Repr

def Expected.message : Expected → String
  | .integer => "integer"
  | .classType => "class type"
  | .catchableType => "class type in catch clause"
  | .primitiveType => "primitive type"

/-- A call of the support library that has to produce a value. -/
inductive Product where
  | newObject
  | openMethod
  | instanceCheck
  | arraySize
  | array
  | elementAddress
  | exception
  deriving DecidableEq, Repr

def Product.message : Product → String
  | .newObject => "instance allocation"
  | .openMethod => "open method lookup"
  | .instanceCheck => "instance check"
  | .arraySize => "array size"
  | .array => "array allocation"
  | .elementAddress => "element address"
  | .exception => "begin-catch"

/-- A breach of what the parts of the pass promise each other. -/
inductive Breach where
  | procedureUndeclared (id : ProcId)
  | procedureVanished (id : ProcId)
  | noProcedure
  | noInsertionBlock
  | noBlock (block : BlockId)
  | noEntryBlock
  | noPhi (phi : Register) (block : BlockId)
  | incompleteValue
  | immutableVariable (var : VarId) (location : Location)
  | noReceiver (field : FieldId)
  | noReceiverArgument (function : String)
  | noOperand (intrinsic : String) (index : Nat)
  | noProduct (product : Product)
  | parameterCount (function : String)
  /-- The bound on the depth of the recursion was too small; the bound in use never is. -/
  | depthExceeded
  deriving DecidableEq, Repr

def Breach.message : Breach → String
  | .procedureUndeclared id => s!"function {id} is not declared"
  | .procedureVanished id => s!"function {id} vanished"
  | .noProcedure => "no function is being built"
  | .noInsertionBlock => "no insertion block"
  | .noBlock block => s!"block {block} does not exist"
  | .noEntryBlock => "function has no entry block"
  | .noPhi phi block => s!"phi {phi} not found in {block}"
  | .incompleteValue => "materializing the value of an expression that does not complete"
  | .immutableVariable var location => s!"assignment to immutable variable {var} at {location}"
  | .noReceiver field => s!"no receiver for {field}"
  | .noReceiverArgument function => s!"{function} called without a receiver"
  | .noOperand intrinsic index => s!"intrinsic {intrinsic} expects operand {index}"
  | .noProduct product => s!"{product.message} produced no value"
  | .parameterCount function => s!"parameter count mismatch in {function}"
  | .depthExceeded => "nesting too deep"

inductive Error where
  /-- A node that earlier passes remove. -/
  | unsupported (node : String) (location : Location)
  | typeMismatch (expected : Expected) (found : NativeType ⊕ Ty) (location : Location)
  | unboundVariable (var : VarId) (location : Location)
  | unresolved (what : Missing)
  /-- No scope answers the request. -/
  | invalidTransfer (request : Request)
  | missingArgument (callee : String) (index : Nat)
  | extraArguments (callee : String) (expected found : Nat)
  | terminatedBlock (procedure : String) (block : BlockId)
  | internal (breach : Breach)
  /-- The function does not validate; its listing is kept for the report. -/
  | verification (procedure : String) (diagnostics : List Diagnostic) (listing : String)
  deriving DecidableEq

namespace Error

def diagnosticsText (diagnostics : List Diagnostic) : String :=
  "; ".intercalate (diagnostics.map Diagnostic.message)

def foundText : NativeType ⊕ Ty → String
  | .inl type => toString type
  | .inr ty => toString ty

def message : Error → String
  | .unsupported node location =>
    s!"Unsupported node `{node}` at {location}: it must be eliminated before lowering"
  | .typeMismatch expected found location =>
    s!"Type mismatch at {location}: expected {expected.message}, found {foundText found}"
  | .unboundVariable var location => s!"Unbound variable {var} at {location}"
  | .unresolved what => s!"Unresolved declaration: {what.message}"
  | .invalidTransfer request => s!"`{request.message}` reached the top-level scope"
  | .missingArgument callee index => s!"Missing argument {index} in call to {callee}"
  | .extraArguments callee expected found =>
    s!"Call to {callee} passes {found} arguments, expected {expected}"
  | .terminatedBlock procedure block => s!"Cannot append to terminated block {block} in {procedure}"
  | .internal breach => s!"Internal lowering error: {breach.message}"
  | .verification procedure diagnostics _ =>
    s!"Verification of {procedure} failed: {diagnosticsText diagnostics}"

end Error

end BlockLowering
