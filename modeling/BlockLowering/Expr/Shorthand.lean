import BlockLowering.Expr
/-!
Short forms for building expression trees at an unknown place.
-/
namespace BlockLowering

namespace Expr

def of (node : Node Expr) (ty : Ty) : Expr := .mk node ty .unknown

def atLocation (e : Expr) (location : Location) : Expr := .mk e.node e.ty location

def sequence (statements : List (Statement Expr)) (ty : Ty) : Expr := of (.sequence statements) ty

def unit : Expr := sequence [] .unit

def constant (value : Constant) (ty : Ty) : Expr := of (.constant value) ty

def int (value : Int32) : Expr := constant (.int value) .int

def boolean (value : Bool) : Expr := constant (.boolean value) .boolean

def null : Expr := constant .null (.nothing true)

def readVar (var : VarId) (ty : Ty) : Expr := of (.readVar var) ty

def writeVar (var : VarId) (value : Expr) : Expr := of (.writeVar var value) .unit

def returnFrom (target : FunctionId) (value : Expr) : Expr := of (.returnFrom target value) .never

def choice (branches : List (Branch Expr)) (ty : Ty) : Expr := of (.choice branches) ty

def ifElse (condition consequent alternative : Expr) (ty : Ty) : Expr :=
  choice [⟨condition,consequent⟩,⟨boolean true,alternative⟩] ty

def ifThen (condition consequent : Expr) : Expr := choice [⟨condition,consequent⟩] .unit

def whileLoop (loop : LoopId) (condition body : Expr) : Expr := of (.whileLoop loop condition body) .unit

def repeatLoop (loop : LoopId) (body condition : Expr) : Expr :=
  of (.repeatLoop loop body condition) .unit

def breakFrom (loop : LoopId) : Expr := of (.breakFrom loop) .never

def continueWith (loop : LoopId) : Expr := of (.continueWith loop) .never

def raise (exception : Expr) : Expr := of (.raise exception) .never

def guarded (body : Expr) (clauses : List (CatchClause Expr)) (finalizer : Option Expr) (ty : Ty) : Expr :=
  of (.guarded body clauses finalizer) ty

def call (function : FunctionId) (arguments : List Expr) (ty : Ty) : Expr :=
  of (.call ⟨function,none,none,arguments.map some,none,.irrelevant⟩) ty

def methodCall (function : FunctionId) (receiver : Expr) (arguments : List Expr) (ty : Ty) : Expr :=
  of (.call ⟨function,some receiver,none,arguments.map some,none,.irrelevant⟩) ty

def typeOp (operator : TypeOperator) (operand : Expr) (target ty : Ty) : Expr :=
  of (.typeOp operator operand target) ty

def readField (field : FieldId) (receiver : Option Expr) (ty : Ty) : Expr :=
  of (.readField field receiver) ty

def writeField (field : FieldId) (receiver : Option Expr) (value : Expr) : Expr :=
  of (.writeField field receiver value) .unit

end Expr

namespace Statement

def immutable (id : VarId) (name : String) (ty : Ty) (initializer : Expr) : Statement Expr :=
  .variable id name ty false (some initializer)

def mutable (id : VarId) (name : String) (ty : Ty) (initializer : Expr) : Statement Expr :=
  .variable id name ty true (some initializer)

end Statement

end BlockLowering
