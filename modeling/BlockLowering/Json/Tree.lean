import BlockLowering.Expr
import BlockLowering.Json.Code
/-!
The JSON form of source types, constants and expression trees.
-/
namespace BlockLowering

namespace Primitive

def names : List (String × Primitive) := all.map fun kind => (kind.name, kind)

end Primitive

namespace Ty

def toJson : Ty → Json
  | .unit => .str "Unit"
  | .nothing nullable => .tagged "Nothing" (.obj [("nullable", .bool nullable)])
  | .primitive kind => .tagged "Primitive" (.str kind.name)
  | .any nullable => .tagged "Any" (.obj [("nullable", .bool nullable)])
  | .reference cls nullable =>
    .tagged "Class" (.obj [("class", .nat cls.index),("nullable", .bool nullable)])

def ofJson? (document : Json) : Option Ty := do
  let (tag, contents) ← document.variant?
  match tag with
  | "Unit" => contents.plain? .unit
  | "Nothing" =>
    let some [nullable] := contents.namedFields? ["nullable"] | none
    return .nothing (← nullable.bool?)
  | "Primitive" => return .primitive (← contents.named? Primitive.names)
  | "Any" =>
    let some [nullable] := contents.namedFields? ["nullable"] | none
    return .any (← nullable.bool?)
  | "Class" =>
    let some [cls,nullable] := contents.namedFields? ["class","nullable"] | none
    return .reference (← cls.id? ClassId.mk) (← nullable.bool?)
  | _ => none

end Ty

namespace Constant

def toJson : Constant → Json
  | .null => .str "Null"
  | .boolean value => .tagged "Boolean" (.bool value)
  | .char unit => .tagged "Char" (.nat unit.toNat)
  | .byte value => .tagged "Byte" (.int value.toInt)
  | .short value => .tagged "Short" (.int value.toInt)
  | .int value => .tagged "Int" (.int value.toInt)
  | .long value => .tagged "Long" (.int value.toInt)
  | .float bits => .tagged "Float" (.float Binary.single bits.toNat)
  | .double bits => .tagged "Double" (.float Binary.double bits.toNat)
  | .string value => .tagged "String" (.str value)

def ofJson? (document : Json) : Option Constant := do
  let (tag, contents) ← document.variant?
  match tag with
  | "Null" => contents.plain? .null
  | "Boolean" => return .boolean (← contents.bool?)
  | "Char" => return .char (.ofNat (← contents.unsigned? 16))
  | "Byte" => return .byte (.ofInt (← contents.signed? 8))
  | "Short" => return .short (.ofInt (← contents.signed? 16))
  | "Int" => return .int (.ofInt (← contents.signed? 32))
  | "Long" => return .long (.ofInt (← contents.signed? 64))
  | "Float" => return .float (.ofNat (← contents.single?))
  | "Double" => return .double (.ofNat (← contents.double?))
  | "String" => return .string (← contents.string?)
  | _ => none

end Constant

def TypeOperator.names : List (String × TypeOperator) :=
  [("Cast", .cast),("ImplicitCast", .implicitCast),("InstanceOf", .instanceOf),
    ("NotInstanceOf", .notInstanceOf),("IntegerCoercion", .coercion),("CoercionToUnit", .discard),
    ("SafeCast", .safeCast)]

section Reading
variable {ε : Type}

def Branch.ofJson? (read : Json → Option ε) (document : Json) : Option (Branch ε) := do
  let some [condition,result] := document.fields? ["condition","result"] | none
  return ⟨← read condition,← read result⟩

def CatchClause.ofJson? (read : Json → Option ε) (document : Json) : Option (CatchClause ε) := do
  let some [parameter,ty,body] := document.fields? ["parameter","ty","body"] | none
  return ⟨← parameter.id? VarId.mk,← Ty.ofJson? ty,← read body⟩

def ArrayItem.ofJson? (read : Json → Option ε) (document : Json) : Option (ArrayItem ε) := do
  let (tag, contents) ← document.variant?
  match tag with
  | "Element" => return .element (← read contents)
  | "Spread" => return .spread (← read contents)
  | _ => none

def Statement.ofJson? (read : Json → Option ε) (document : Json) : Option (Statement ε) := do
  let (tag, contents) ← document.variant?
  match tag with
  | "Expression" => return .expression (← read contents)
  | "Variable" =>
    let some [id,name,ty,isMutable,initializer] :=
      contents.namedFields? ["id","name","ty","mutable","initializer"] | none
    return .variable (← id.id? VarId.mk) (← name.string?) (← Ty.ofJson? ty) (← isMutable.bool?)
      (← initializer.option? read)
  | _ => none

def Call.ofJson? (read : Json → Option ε) (document : Json) : Option (Call ε) := do
  let some [function,dispatchReceiver,extensionReceiver,arguments,superQualifier,lifetime] :=
    document.fields? ["function","dispatch_receiver","extension_receiver","arguments",
      "super_qualifier","lifetime"] | none
  return {
    function := ← function.id? FunctionId.mk
    dispatchReceiver := ← dispatchReceiver.option? read
    extensionReceiver := ← extensionReceiver.option? read
    arguments := ← arguments.list? (Json.option? read)
    superQualifier := ← superQualifier.option? (Json.id? ClassId.mk)
    lifetime := ← lifetime.named? Lifetime.names }

def Node.ofJson? (read : Json → Option ε) (document : Json) : Option (Node ε) := do
  let (tag, contents) ← document.variant?
  match tag with
  | "Call" => return .call (← Call.ofJson? read contents)
  | "DelegatingConstructorCall" =>
    let some [constructor,arguments] := contents.namedFields? ["constructor","arguments"] | none
    return .delegate (← constructor.id? FunctionId.mk) (← arguments.list? (Json.option? read))
  | "GetVariable" => return .readVar (← contents.id? VarId.mk)
  | "SetVariable" =>
    let some [var,value] := contents.namedFields? ["var","value"] | none
    return .writeVar (← var.id? VarId.mk) (← read value)
  | "GetField" =>
    let some [field,receiver] := contents.namedFields? ["field","receiver"] | none
    return .readField (← field.id? FieldId.mk) (← receiver.option? read)
  | "SetField" =>
    let some [field,receiver,value] := contents.namedFields? ["field","receiver","value"] | none
    return .writeField (← field.id? FieldId.mk) (← receiver.option? read) (← read value)
  | "Constant" => return .constant (← Constant.ofJson? contents)
  | "Return" =>
    let some [target,value] := contents.namedFields? ["target","value"] | none
    return .returnFrom (← target.id? FunctionId.mk) (← read value)
  | "When" =>
    let some [branches] := contents.namedFields? ["branches"] | none
    return .choice (← branches.list? (Branch.ofJson? read))
  | "Throw" => return .raise (← read contents)
  | "Try" =>
    let some [body,clauses,finalizer] := contents.namedFields? ["body","catches","finally"] | none
    return .guarded (← read body) (← clauses.list? (CatchClause.ofJson? read)) (← finalizer.option? read)
  | "InlinedBody" =>
    let some [function,body] := contents.namedFields? ["function","body"] | none
    return .inlined (← function.id? FunctionId.mk) (← read body)
  | "Block" =>
    let some [statements] := contents.namedFields? ["statements"] | none
    return .sequence (← statements.list? (Statement.ofJson? read))
  | "While" =>
    let some [loop,condition,body] := contents.namedFields? ["loop_id","condition","body"] | none
    return .whileLoop (← loop.id? LoopId.mk) (← read condition) (← read body)
  | "DoWhile" =>
    let some [loop,body,condition] := contents.namedFields? ["loop_id","body","condition"] | none
    return .repeatLoop (← loop.id? LoopId.mk) (← read body) (← read condition)
  | "Vararg" =>
    let some [elementType,items] := contents.namedFields? ["element_type","elements"] | none
    return .arrayLiteral (← Ty.ofJson? elementType) (← items.list? (ArrayItem.ofJson? read))
  | "Break" => return .breakFrom (← contents.id? LoopId.mk)
  | "Continue" => return .continueWith (← contents.id? LoopId.mk)
  | "GetObjectInstance" => return .singleton (← contents.id? ClassId.mk)
  | "FunctionReference" => return .functionRef (← contents.id? FunctionId.mk)
  | "TypeOperator" =>
    let some [operator,operand,target] := contents.namedFields? ["operator","operand","type_operand"] | none
    return .typeOp (← operator.named? TypeOperator.names) (← read operand) (← Ty.ofJson? target)
  | _ => none

end Reading

namespace Expr

def readStep (read : Json → Option Expr) (document : Json) : Option Expr := do
  let some [node,ty,location] := document.fields? ["kind","ty","location"] | none
  return .mk (← Node.ofJson? read node) (← Ty.ofJson? ty) (← Location.ofJson? location)

def ofJson? (document : Json) : Option Expr := document.readTree readStep

mutual

def toJson : Expr → Json
  | .mk node ty location =>
    .obj [("kind", nodeToJson node),("ty", ty.toJson),("location", location.toJson)]

def nodeToJson : Node Expr → Json
  | .call call => .tagged "Call" (callToJson call)
  | .delegate constructor arguments =>
    .tagged "DelegatingConstructorCall" (.obj [("constructor", .nat constructor.index),
      ("arguments", .arr (optionsToJson arguments))])
  | .readVar var => .tagged "GetVariable" (.nat var.index)
  | .writeVar var value => .tagged "SetVariable" (.obj [("var", .nat var.index),("value", value.toJson)])
  | .readField field receiver =>
    .tagged "GetField" (.obj [("field", .nat field.index),("receiver", optionToJson receiver)])
  | .writeField field receiver value =>
    .tagged "SetField" (.obj [("field", .nat field.index),("receiver", optionToJson receiver),
      ("value", value.toJson)])
  | .constant value => .tagged "Constant" value.toJson
  | .returnFrom target value =>
    .tagged "Return" (.obj [("target", .nat target.index),("value", value.toJson)])
  | .choice branches => .tagged "When" (.obj [("branches", .arr (branchesToJson branches))])
  | .raise exception => .tagged "Throw" exception.toJson
  | .guarded body clauses finalizer =>
    .tagged "Try" (.obj [("body", body.toJson),("catches", .arr (clausesToJson clauses)),
      ("finally", optionToJson finalizer)])
  | .inlined function body =>
    .tagged "InlinedBody" (.obj [("function", .nat function.index),("body", body.toJson)])
  | .sequence statements => .tagged "Block" (.obj [("statements", .arr (statementsToJson statements))])
  | .whileLoop loop condition body =>
    .tagged "While" (.obj [("loop_id", .nat loop.index),("condition", condition.toJson),
      ("body", body.toJson)])
  | .repeatLoop loop body condition =>
    .tagged "DoWhile" (.obj [("loop_id", .nat loop.index),("body", body.toJson),
      ("condition", condition.toJson)])
  | .arrayLiteral elementType items =>
    .tagged "Vararg" (.obj [("element_type", elementType.toJson),("elements", .arr (itemsToJson items))])
  | .breakFrom loop => .tagged "Break" (.nat loop.index)
  | .continueWith loop => .tagged "Continue" (.nat loop.index)
  | .singleton cls => .tagged "GetObjectInstance" (.nat cls.index)
  | .functionRef function => .tagged "FunctionReference" (.nat function.index)
  | .typeOp operator operand target =>
    .tagged "TypeOperator" (.obj [("operator", .named TypeOperator.names operator),
      ("operand", operand.toJson),("type_operand", target.toJson)])

def optionToJson : Option Expr → Json
  | none => .null
  | some e => e.toJson

def optionsToJson : List (Option Expr) → List Json
  | [] => []
  | e :: rest => optionToJson e :: optionsToJson rest

def callToJson : Call Expr → Json
  | ⟨function,dispatchReceiver,extensionReceiver,arguments,superQualifier,lifetime⟩ =>
    .obj [("function", .nat function.index),("dispatch_receiver", optionToJson dispatchReceiver),
      ("extension_receiver", optionToJson extensionReceiver),("arguments", .arr (optionsToJson arguments)),
      ("super_qualifier", .option (fun cls => .nat cls.index) superQualifier),
      ("lifetime", .named Lifetime.names lifetime)]

def branchesToJson : List (Branch Expr) → List Json
  | [] => []
  | branch :: rest => branchToJson branch :: branchesToJson rest

def branchToJson : Branch Expr → Json
  | ⟨condition,result⟩ => .obj [("condition", condition.toJson),("result", result.toJson)]

def clausesToJson : List (CatchClause Expr) → List Json
  | [] => []
  | clause :: rest => clauseToJson clause :: clausesToJson rest

def clauseToJson : CatchClause Expr → Json
  | ⟨parameter,ty,body⟩ =>
    .obj [("parameter", .nat parameter.index),("ty", ty.toJson),("body", body.toJson)]

def statementsToJson : List (Statement Expr) → List Json
  | [] => []
  | statement :: rest => statementToJson statement :: statementsToJson rest

def statementToJson : Statement Expr → Json
  | .expression e => .tagged "Expression" e.toJson
  | .variable id name ty isMutable initializer =>
    .tagged "Variable" (.obj [("id", .nat id.index),("name", .str name),("ty", ty.toJson),
      ("mutable", .bool isMutable),("initializer", optionToJson initializer)])

def itemsToJson : List (ArrayItem Expr) → List Json
  | [] => []
  | item :: rest => itemToJson item :: itemsToJson rest

def itemToJson : ArrayItem Expr → Json
  | .element value => .tagged "Element" value.toJson
  | .spread array => .tagged "Spread" array.toJson

end

end Expr

end BlockLowering
