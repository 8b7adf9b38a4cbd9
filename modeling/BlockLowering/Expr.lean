import BlockLowering.Annotation
import BlockLowering.Ty
/-!
Typed, resolved expression trees. Every expression carries its static type and its place in the
sources, and refers to declarations by identity. The shape of one node is given once, with the type of
its children left open, so that functions on nodes need no recursion.
-/
namespace BlockLowering

structure VarId where
  index : Nat
  deriving DecidableEq, Repr

instance : ToString VarId := ⟨fun id => s!"var{id.index}"⟩

structure FunctionId where
  index : Nat
  deriving DecidableEq, Repr

instance : ToString FunctionId := ⟨fun id => s!"fun{id.index}"⟩

structure FieldId where
  index : Nat
  deriving DecidableEq, Repr

instance : ToString FieldId := ⟨fun id => s!"field{id.index}"⟩

structure LoopId where
  index : Nat
  deriving DecidableEq, Repr

instance : ToString LoopId := ⟨fun id => s!"loop{id.index}"⟩

inductive Constant where
  | null
  | boolean (value : Bool)
  | char (unit : UInt16)
  | byte (value : Int8)
  | short (value : Int16)
  | int (value : Int32)
  | long (value : Int64)
  | float (bits : UInt32)
  | double (bits : UInt64)
  | string (value : String)
  deriving DecidableEq

inductive TypeOperator where
  /-- A cast checked when it runs. -/
  | cast
  /-- A cast that the front end has proved. -/
  | implicitCast
  | instanceOf
  | notInstanceOf
  /-- A change of representation between primitives. -/
  | coercion
  /-- Evaluation for its effects alone. -/
  | discard
  /-- A cast that yields null on failure; earlier passes remove it. -/
  | safeCast
  deriving DecidableEq, Repr

structure Branch (ε : Type) where
  condition : ε
  result : ε

structure CatchClause (ε : Type) where
  parameter : VarId
  ty : Ty
  body : ε

/-- An item of an array literal: one element, or all elements of another array. -/
inductive ArrayItem (ε : Type) where
  | element (value : ε)
  | spread (array : ε)

namespace ArrayItem
variable {ε δ : Type}

def expression : ArrayItem ε → ε
  | .element value => value
  | .spread array => array

def withExpression (e : δ) : ArrayItem ε → ArrayItem δ
  | .element _ => .element e
  | .spread _ => .spread e

def isElement : ArrayItem ε → Bool
  | .element _ => true
  | .spread _ => false

end ArrayItem

inductive Statement (ε : Type) where
  | expression (e : ε)
  | variable (id : VarId) (name : String) (ty : Ty) (isMutable : Bool) (initializer : Option ε)

/-- A call of a declared function. An argument that is missing was never supplied. -/
structure Call (ε : Type) where
  function : FunctionId
  dispatchReceiver : Option ε
  extensionReceiver : Option ε
  arguments : List (Option ε)
  /-- Set for a call that binds to the implementation of one superclass. -/
  superQualifier : Option ClassId
  lifetime : Lifetime

inductive Node (ε : Type) where
  | call (call : Call ε)
  /-- A call of another constructor on the object under construction. -/
  | delegate (constructor : FunctionId) (arguments : List (Option ε))
  | readVar (var : VarId)
  | writeVar (var : VarId) (value : ε)
  | readField (field : FieldId) (receiver : Option ε)
  | writeField (field : FieldId) (receiver : Option ε) (value : ε)
  | constant (value : Constant)
  /-- Leave a function or the inlined body of one. -/
  | returnFrom (target : FunctionId) (value : ε)
  | choice (branches : List (Branch ε))
  | raise (exception : ε)
  | guarded (body : ε) (clauses : List (CatchClause ε)) (finalizer : Option ε)
  /-- The body of an inlined call, at whose end its returns resume. -/
  | inlined (function : FunctionId) (body : ε)
  | sequence (statements : List (Statement ε))
  | whileLoop (loop : LoopId) (condition body : ε)
  | repeatLoop (loop : LoopId) (body condition : ε)
  | arrayLiteral (elementType : Ty) (items : List (ArrayItem ε))
  | breakFrom (loop : LoopId)
  | continueWith (loop : LoopId)
  | singleton (cls : ClassId)
  | functionRef (function : FunctionId)
  | typeOp (operator : TypeOperator) (operand : ε) (target : Ty)

inductive Expr where
  | mk (node : Node Expr) (ty : Ty) (location : Location)

namespace Node
variable {ε : Type}

def kindName : Node ε → String
  | .call _ => "Call"
  | .delegate .. => "DelegatingConstructorCall"
  | .readVar _ => "GetVariable"
  | .writeVar .. => "SetVariable"
  | .readField .. => "GetField"
  | .writeField .. => "SetField"
  | .constant _ => "Constant"
  | .returnFrom .. => "Return"
  | .choice _ => "When"
  | .raise _ => "Throw"
  | .guarded .. => "Try"
  | .inlined .. => "InlinedBody"
  | .sequence _ => "Block"
  | .whileLoop .. => "While"
  | .repeatLoop .. => "DoWhile"
  | .arrayLiteral .. => "Vararg"
  | .breakFrom _ => "Break"
  | .continueWith _ => "Continue"
  | .singleton _ => "GetObjectInstance"
  | .functionRef _ => "FunctionReference"
  | .typeOp .safeCast _ _ => "SafeCast"
  | .typeOp .. => "TypeOperator"

end Node

namespace Expr

def node : Expr → Node Expr
  | .mk node _ _ => node

def ty : Expr → Ty
  | .mk _ ty _ => ty

def location : Expr → Location
  | .mk _ _ location => location

def kindName (e : Expr) : String := e.node.kindName

mutual

def size : Expr → Nat
  | .mk node _ _ => nodeSize node + 1

def nodeSize : Node Expr → Nat
  | .call call => callSize call
  | .delegate _ arguments => argumentsSize arguments
  | .writeVar _ value => value.size
  | .readField _ receiver => optionSize receiver
  | .writeField _ receiver value => optionSize receiver + value.size
  | .returnFrom _ value => value.size
  | .choice branches => branchesSize branches
  | .raise exception => exception.size
  | .guarded body clauses finalizer => body.size + clausesSize clauses + optionSize finalizer
  | .inlined _ body => body.size
  | .sequence statements => statementsSize statements
  | .whileLoop _ condition body => condition.size + body.size
  | .repeatLoop _ body condition => body.size + condition.size
  | .arrayLiteral _ items => itemsSize items
  | .typeOp _ operand _ => operand.size
  | .readVar _ => 0
  | .constant _ => 0
  | .breakFrom _ => 0
  | .continueWith _ => 0
  | .singleton _ => 0
  | .functionRef _ => 0

def optionSize : Option Expr → Nat
  | none => 0
  | some e => e.size

def callSize : Call Expr → Nat
  | ⟨_,dispatchReceiver,extensionReceiver,arguments,_,_⟩ =>
    optionSize dispatchReceiver + optionSize extensionReceiver + argumentsSize arguments

def argumentsSize : List (Option Expr) → Nat
  | [] => 0
  | argument :: rest => optionSize argument + argumentsSize rest

def branchesSize : List (Branch Expr) → Nat
  | [] => 0
  | branch :: rest => branchSize branch + branchesSize rest

def branchSize : Branch Expr → Nat
  | ⟨condition,result⟩ => condition.size + result.size

def clausesSize : List (CatchClause Expr) → Nat
  | [] => 0
  | clause :: rest => clauseSize clause + clausesSize rest

def clauseSize : CatchClause Expr → Nat
  | ⟨_,_,body⟩ => body.size

def statementsSize : List (Statement Expr) → Nat
  | [] => 0
  | statement :: rest => statementSize statement + statementsSize rest

def statementSize : Statement Expr → Nat
  | .expression e => e.size
  | .variable _ _ _ _ initializer => optionSize initializer

def itemsSize : List (ArrayItem Expr) → Nat
  | [] => 0
  | item :: rest => itemSize item + itemsSize rest

def itemSize : ArrayItem Expr → Nat
  | .element value => value.size
  | .spread array => array.size

end

end Expr

def Branch.isUnconditional (branch : Branch Expr) : Bool :=
  match branch.condition.node with
  | .constant (.boolean true) => true
  | _ => false

end BlockLowering
