import BlockLowering.Error
import BlockLowering.Table
/-!
The declarations that all units of a program share: classes, functions and fields by identity, in the
order of their first entry, and the symbols that name them in the output.
-/
namespace BlockLowering

inductive ClassKind where
  | cls
  | interface
  /-- The class of a singleton. -/
  | object
  deriving DecidableEq, Repr

structure ClassDecl where
  id : ClassId
  name : String
  kind : ClassKind
  superclass : Option ClassId
  fields : List FieldId
  isExternal : Bool
  deriving DecidableEq

inductive FunctionKind where
  | topLevel
  | method
  | constructor
  deriving DecidableEq, Repr

inductive Intrinsic where
  | plus | minus | times | div | rem
  | less | lessOrEqual | greater | greaterOrEqual
  /-- Equality of primitives. -/
  | equals
  /-- Identity of references. -/
  | identityEquals
  | not | and | or | xor | shl | shr
  | unaryMinus | inc | dec
  deriving DecidableEq, Repr

def Intrinsic.name : Intrinsic → String
  | .plus => "Plus"
  | .minus => "Minus"
  | .times => "Times"
  | .div => "Div"
  | .rem => "Rem"
  | .less => "Less"
  | .lessOrEqual => "LessOrEqual"
  | .greater => "Greater"
  | .greaterOrEqual => "GreaterOrEqual"
  | .equals => "Equals"
  | .identityEquals => "IdentityEquals"
  | .not => "Not"
  | .and => "And"
  | .or => "Or"
  | .xor => "Xor"
  | .shl => "Shl"
  | .shr => "Shr"
  | .unaryMinus => "UnaryMinus"
  | .inc => "Inc"
  | .dec => "Dec"

/-- A library function whose calls on constants become static data. -/
inductive ConstantFactory where
  | listOf
  | arrayOf
  deriving DecidableEq, Repr

def ConstantFactory.name : ConstantFactory → String
  | .listOf => "ListOf"
  | .arrayOf => "ArrayOf"

structure ParameterDecl where
  id : VarId
  name : String
  ty : Ty
  deriving DecidableEq

structure FunctionDecl where
  id : FunctionId
  name : String
  owner : Option ClassId
  kind : FunctionKind
  dispatchReceiver : Option ParameterDecl
  extensionReceiver : Option ParameterDecl
  parameters : List ParameterDecl
  returnType : Ty
  isOverridable : Bool
  /-- The function of a supertype that this one overrides. -/
  overrides : Option FunctionId
  intrinsic : Option Intrinsic
  constantFactory : Option ConstantFactory
  isExternal : Bool
  /-- The symbol, when it is not derived from owner and name. -/
  symbolName : Option String
  deriving DecidableEq

namespace FunctionDecl

def topLevel (id : FunctionId) (name : String) (parameters : List ParameterDecl) (returnType : Ty) : FunctionDecl :=
  { id, name, owner := none, kind := .topLevel, dispatchReceiver := none, extensionReceiver := none
    parameters, returnType, isOverridable := false, overrides := none, intrinsic := none
    constantFactory := none, isExternal := false, symbolName := none }

def method (id : FunctionId) (name : String) (owner : ClassId) (receiver : VarId)
    (parameters : List ParameterDecl) (returnType : Ty) : FunctionDecl :=
  { topLevel id name parameters returnType with
    owner := some owner
    kind := .method
    dispatchReceiver := some ⟨receiver,"this",.reference owner false⟩ }

/-- A constructor, which initializes the object that it is given. -/
def constructor (id : FunctionId) (owner : ClassId) (receiver : VarId) (parameters : List ParameterDecl) : FunctionDecl :=
  { method id "<init>" owner receiver parameters .unit with kind := .constructor }

def isConstructor (f : FunctionDecl) : Bool := f.kind = .constructor

/-- Receivers and value parameters in the order in which they are passed. -/
def allParameters (f : FunctionDecl) : List ParameterDecl :=
  f.dispatchReceiver.toList ++ f.extensionReceiver.toList ++ f.parameters

def returnsVoid (f : FunctionDecl) : Bool := f.isConstructor || f.returnType.isValueless

end FunctionDecl

structure FieldDecl where
  id : FieldId
  name : String
  owner : Option ClassId
  isStatic : Bool
  ty : Ty
  /-- The initial value, when it is known before the program runs. -/
  constantInitializer : Option Constant
  /-- The initializer that the unit runs. -/
  initializer : Option Expr
  isExternal : Bool

namespace FieldDecl

def instanceField (id : FieldId) (name : String) (owner : ClassId) (ty : Ty) : FieldDecl :=
  ⟨id,name,some owner,false,ty,none,none,false⟩

def global (id : FieldId) (name : String) (ty : Ty) : FieldDecl :=
  ⟨id,name,none,true,ty,none,none,false⟩

end FieldDecl

structure FunctionBody where
  function : FunctionId
  body : Expr

/-- A source file: its function bodies and its static fields in declaration order. -/
structure SourceUnit where
  name : String
  functions : List FunctionBody
  staticFields : List FieldId

structure Declarations where
  classes : Table ClassId ClassDecl
  functions : Table FunctionId FunctionDecl
  fields : Table FieldId FieldDecl

namespace Declarations

def empty : Declarations := ⟨{},{},{}⟩

instance : EmptyCollection Declarations := ⟨empty⟩

def addClass (d : Declarations) (c : ClassDecl) : Declarations :=
  { d with classes := d.classes.insert c.id c }

def addFunction (d : Declarations) (f : FunctionDecl) : Declarations :=
  { d with functions := d.functions.insert f.id f }

def addField (d : Declarations) (f : FieldDecl) : Declarations :=
  { d with fields := d.fields.insert f.id f }

def ofLists (classes : List ClassDecl) (functions : List FunctionDecl) (fields : List FieldDecl) : Declarations :=
  fields.foldl addField (functions.foldl addFunction (classes.foldl addClass empty))

def getClass (d : Declarations) (id : ClassId) : Except Error ClassDecl :=
  match d.classes.get? id with
  | some c => .ok c
  | none => .error (.unresolved (.cls id))

def getFunction (d : Declarations) (id : FunctionId) : Except Error FunctionDecl :=
  match d.functions.get? id with
  | some f => .ok f
  | none => .error (.unresolved (.function id))

def getField (d : Declarations) (id : FieldId) : Except Error FieldDecl :=
  match d.fields.get? id with
  | some f => .ok f
  | none => .error (.unresolved (.field id))

def defaultConstructor (d : Declarations) (cls : ClassId) : Except Error FunctionDecl :=
  match d.functions.values.find? fun f => f.isConstructor && f.owner == some cls && f.parameters.isEmpty with
  | some f => .ok f
  | none => .error (.unresolved (.defaultConstructor cls))

/-- A name behind that of its class, if it has a known one. -/
def qualified (d : Declarations) (owner : Option ClassId) (name : String) : String :=
  match owner.bind d.classes.get? with
  | some c => s!"{c.name}.{name}"
  | none => name

def functionSymbol (d : Declarations) (f : FunctionDecl) : String :=
  match f.symbolName with
  | some symbol => symbol
  | none => d.qualified f.owner (if f.isConstructor then "<init>" else f.name)

def fieldSymbol (d : Declarations) (f : FieldDecl) : String := d.qualified f.owner f.name

end Declarations

end BlockLowering
