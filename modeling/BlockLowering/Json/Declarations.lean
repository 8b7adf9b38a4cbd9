import BlockLowering.Declarations
import BlockLowering.Json.Tree
/-!
The JSON form of declarations and units.
-/
namespace BlockLowering

def ClassKind.names : List (String × ClassKind) :=
  [("Class", .cls),("Interface", .interface),("Object", .object)]

def FunctionKind.names : List (String × FunctionKind) :=
  [("TopLevel", .topLevel),("Method", .method),("Constructor", .constructor)]

def Intrinsic.all : List Intrinsic :=
  [.plus,.minus,.times,.div,.rem,.less,.lessOrEqual,.greater,.greaterOrEqual,.equals,
    .identityEquals,.not,.and,.or,.xor,.shl,.shr,.unaryMinus,.inc,.dec]

def Intrinsic.names : List (String × Intrinsic) := all.map fun op => (op.name, op)

def ConstantFactory.names : List (String × ConstantFactory) :=
  [.listOf,.arrayOf].map fun factory => (factory.name, factory)

namespace ClassDecl

def toJson (c : ClassDecl) : Json :=
  .obj [("id", .nat c.id.index),("name", .str c.name),("kind", .named ClassKind.names c.kind),
    ("superclass", .option (fun id => .nat id.index) c.superclass),
    ("fields", .list (fun id => .nat id.index) c.fields),("is_external", .bool c.isExternal)]

def ofJson? (document : Json) : Option ClassDecl := do
  let some [id,name,kind,superclass,fields,isExternal] :=
    document.fields? ["id","name","kind","superclass","fields","is_external"] | none
  return {
    id := ← id.id? ClassId.mk
    name := ← name.string?
    kind := ← kind.named? ClassKind.names
    superclass := ← superclass.option? (Json.id? ClassId.mk)
    fields := ← fields.list? (Json.id? FieldId.mk)
    isExternal := ← isExternal.bool? }

end ClassDecl

namespace ParameterDecl

def toJson (p : ParameterDecl) : Json :=
  .obj [("id", .nat p.id.index),("name", .str p.name),("ty", p.ty.toJson)]

def ofJson? (document : Json) : Option ParameterDecl := do
  let some [id,name,ty] := document.fields? ["id","name","ty"] | none
  return ⟨← id.id? VarId.mk,← name.string?,← Ty.ofJson? ty⟩

end ParameterDecl

namespace FunctionDecl

def toJson (f : FunctionDecl) : Json :=
  .obj [("id", .nat f.id.index),("name", .str f.name),
    ("owner", .option (fun id => .nat id.index) f.owner),("kind", .named FunctionKind.names f.kind),
    ("dispatch_receiver", .option ParameterDecl.toJson f.dispatchReceiver),
    ("extension_receiver", .option ParameterDecl.toJson f.extensionReceiver),
    ("parameters", .list ParameterDecl.toJson f.parameters),("return_type", f.returnType.toJson),
    ("is_overridable", .bool f.isOverridable),
    ("overrides", .option (fun id => .nat id.index) f.overrides),
    ("intrinsic", .option (.named Intrinsic.names) f.intrinsic),
    ("constant_factory", .option (.named ConstantFactory.names) f.constantFactory),
    ("is_external", .bool f.isExternal),("symbol_name", .option .str f.symbolName)]

def ofJson? (document : Json) : Option FunctionDecl := do
  let some [id,name,owner,kind,dispatchReceiver,extensionReceiver,parameters,returnType,
      isOverridable,overrides,intrinsic,constantFactory,isExternal,symbolName] :=
    document.fields? ["id","name","owner","kind","dispatch_receiver","extension_receiver",
      "parameters","return_type","is_overridable","overrides","intrinsic","constant_factory",
      "is_external","symbol_name"] | none
  return {
    id := ← id.id? FunctionId.mk
    name := ← name.string?
    owner := ← owner.option? (Json.id? ClassId.mk)
    kind := ← kind.named? FunctionKind.names
    dispatchReceiver := ← dispatchReceiver.option? ParameterDecl.ofJson?
    extensionReceiver := ← extensionReceiver.option? ParameterDecl.ofJson?
    parameters := ← parameters.list? ParameterDecl.ofJson?
    returnType := ← Ty.ofJson? returnType
    isOverridable := ← isOverridable.bool?
    overrides := ← overrides.option? (Json.id? FunctionId.mk)
    intrinsic := ← intrinsic.option? (Json.named? Intrinsic.names)
    constantFactory := ← constantFactory.option? (Json.named? ConstantFactory.names)
    isExternal := ← isExternal.bool?
    symbolName := ← symbolName.option? Json.string? }

end FunctionDecl

namespace FieldDecl

def toJson (f : FieldDecl) : Json :=
  .obj [("id", .nat f.id.index),("name", .str f.name),
    ("owner", .option (fun id => .nat id.index) f.owner),("is_static", .bool f.isStatic),
    ("ty", f.ty.toJson),("constant_initializer", .option Constant.toJson f.constantInitializer),
    ("initializer", .option Expr.toJson f.initializer),("is_external", .bool f.isExternal)]

def ofJson? (document : Json) : Option FieldDecl := do
  let some [id,name,owner,isStatic,ty,constantInitializer,initializer,isExternal] :=
    document.fields? ["id","name","owner","is_static","ty","constant_initializer","initializer",
      "is_external"] | none
  return {
    id := ← id.id? FieldId.mk
    name := ← name.string?
    owner := ← owner.option? (Json.id? ClassId.mk)
    isStatic := ← isStatic.bool?
    ty := ← Ty.ofJson? ty
    constantInitializer := ← constantInitializer.option? Constant.ofJson?
    initializer := ← initializer.option? Expr.ofJson?
    isExternal := ← isExternal.bool? }

end FieldDecl

def FunctionBody.ofJson? (document : Json) : Option FunctionBody := do
  let some [function,body] := document.fields? ["function","body"] | none
  return ⟨← function.id? FunctionId.mk,← Expr.ofJson? body⟩

def FunctionBody.toJson (b : FunctionBody) : Json :=
  .obj [("function", .nat b.function.index),("body", b.body.toJson)]

namespace SourceUnit

def toJson (u : SourceUnit) : Json :=
  .obj [("name", .str u.name),("functions", .list FunctionBody.toJson u.functions),
    ("static_fields", .list (fun id => .nat id.index) u.staticFields)]

def ofJson? (document : Json) : Option SourceUnit := do
  let some [name,functions,staticFields] := document.fields? ["name","functions","static_fields"] | none
  return ⟨← name.string?,← functions.list? FunctionBody.ofJson?,← staticFields.list? (Json.id? FieldId.mk)⟩

end SourceUnit

namespace Declarations

def toJson (d : Declarations) : Json :=
  .obj [("classes", d.classes.toJson ClassId.index ClassDecl.toJson),
    ("functions", d.functions.toJson FunctionId.index FunctionDecl.toJson),
    ("fields", d.fields.toJson FieldId.index FieldDecl.toJson)]

end Declarations

end BlockLowering
