import BlockLowering.Json.Native
import BlockLowering.Module
/-!
The JSON form of modules and all that is in them. Tables are objects with the numbers of their keys as
names, in the order of the table.
-/
namespace BlockLowering

namespace Location

def toJson (l : Location) : Json :=
  .obj [("file_id", .nat l.file),("line", .nat l.line),("column", .nat l.column)]

def ofJson? (document : Json) : Option Location := do
  let some [file,line,column] := document.fields? ["file_id","line","column"] | none
  return ⟨← file.unsigned? 32,← line.unsigned? 32,← column.unsigned? 32⟩

end Location

def Lifetime.names : List (String × Lifetime) :=
  [("Local", .local),("ReturnValue", .returnValue),("Global", .global),("Escaping", .escaping),
    ("Irrelevant", .irrelevant)]

def BinaryOp.names : List (String × BinaryOp) :=
  [("Add", .add),("Sub", .sub),("Mul", .mul),("Div", .div),("Rem", .rem),("And", .and),("Or", .or),
    ("Xor", .xor),("Shl", .shl),("Shr", .shr),("FAdd", .fadd),("FSub", .fsub),("FMul", .fmul),
    ("FDiv", .fdiv),("FRem", .frem)]

def UnaryOp.names : List (String × UnaryOp) := [("Neg", .neg),("Not", .not),("FNeg", .fneg)]

def CompareOp.names : List (String × CompareOp) :=
  [("Eq", .eq),("Ne", .ne),("Lt", .lt),("Le", .le),("Gt", .gt),("Ge", .ge),("FEq", .feq),
    ("FNe", .fne),("FLt", .flt),("FLe", .fle),("FGt", .fgt),("FGe", .fge)]

def CastKind.names : List (String × CastKind) :=
  [("Trunc", .trunc),("SignExtend", .signExtend),("ZeroExtend", .zeroExtend),
    ("IntToFloat", .intToFloat),("FloatToInt", .floatToInt),("FloatResize", .floatResize),
    ("BitCast", .bitcast)]

def Linkage.names : List (String × Linkage) :=
  [("Private", .internal),("Public", .exported),("External", .imported)]

def Register.toJson (r : Register) : Json := .nat r.index

def Register.ofJson? : Json → Option Register := Json.id? Register.mk

def BlockId.toJson (b : BlockId) : Json := .nat b.index

def BlockId.ofJson? : Json → Option BlockId := Json.id? BlockId.mk

namespace Callee

def toJson : Callee → Json
  | .direct id => .tagged "Direct" (.nat id.index)
  | .indirect pointer => .tagged "Indirect" pointer.toJson

def ofJson? (document : Json) : Option Callee := do
  let (tag, contents) ← document.variant?
  match tag with
  | "Direct" => return .direct (← contents.id? ProcId.mk)
  | "Indirect" => return .indirect (← Register.ofJson? contents)
  | _ => none

end Callee

namespace CallSite

def members (site : CallSite) : List (String × Json) :=
  [("callee", site.callee.toJson),("args", .list Register.toJson site.args),
    ("signature", site.signature.toJson),("lifetime", .named Lifetime.names site.lifetime)]

def read (callee args signature lifetime : Json) : Option CallSite := do
  return ⟨← Callee.ofJson? callee,← args.list? Register.ofJson?,← Signature.ofJson? signature,
    ← lifetime.named? Lifetime.names⟩

end CallSite

namespace Instr

def toJson : Instr → Json
  | .const dest value => .tagged "Const" (.obj [("dest", dest.toJson),("value", value.toJson)])
  | .alloc dest type => .tagged "Alloc" (.obj [("dest", dest.toJson),("ty", type.toJson)])
  | .load dest ptr type =>
    .tagged "Load" (.obj [("dest", dest.toJson),("ptr", ptr.toJson),("ty", type.toJson)])
  | .store ptr value => .tagged "Store" (.obj [("ptr", ptr.toJson),("value", value.toJson)])
  | .element dest ptr indices type =>
    .tagged "GetElementPtr" (.obj [("dest", dest.toJson),("ptr", ptr.toJson),
      ("indices", .list .nat indices),("ty", type.toJson)])
  | .binary dest op left right =>
    .tagged "BinOp" (.obj [("dest", dest.toJson),("op", .named BinaryOp.names op),("left", left.toJson),
      ("right", right.toJson)])
  | .unary dest op operand =>
    .tagged "UnOp" (.obj [("dest", dest.toJson),("op", .named UnaryOp.names op),
      ("operand", operand.toJson)])
  | .compare dest op left right =>
    .tagged "Cmp" (.obj [("dest", dest.toJson),("op", .named CompareOp.names op),("left", left.toJson),
      ("right", right.toJson)])
  | .cast dest source kind type =>
    .tagged "Cast" (.obj [("dest", dest.toJson),("src", source.toJson),
      ("kind", .named CastKind.names kind),("to_ty", type.toJson)])
  | .call dest site => .tagged "Call" (.obj (("dest", .option Register.toJson dest) :: site.members))
  | .landingPad dest => .tagged "LandingPad" (.obj [("dest", dest.toJson)])

def ofJson? (document : Json) : Option Instr := do
  let (tag, contents) ← document.variant?
  match tag with
  | "Const" =>
    let some [dest,value] := contents.namedFields? ["dest","value"] | none
    return .const (← Register.ofJson? dest) (← Literal.ofJson? value)
  | "Alloc" =>
    let some [dest,type] := contents.namedFields? ["dest","ty"] | none
    return .alloc (← Register.ofJson? dest) (← NativeType.ofJson? type)
  | "Load" =>
    let some [dest,ptr,type] := contents.namedFields? ["dest","ptr","ty"] | none
    return .load (← Register.ofJson? dest) (← Register.ofJson? ptr) (← NativeType.ofJson? type)
  | "Store" =>
    let some [ptr,value] := contents.namedFields? ["ptr","value"] | none
    return .store (← Register.ofJson? ptr) (← Register.ofJson? value)
  | "GetElementPtr" =>
    let some [dest,ptr,indices,type] := contents.namedFields? ["dest","ptr","indices","ty"] | none
    return .element (← Register.ofJson? dest) (← Register.ofJson? ptr) (← indices.list? (Json.unsigned? 32))
      (← NativeType.ofJson? type)
  | "BinOp" =>
    let some [dest,op,left,right] := contents.namedFields? ["dest","op","left","right"] | none
    return .binary (← Register.ofJson? dest) (← op.named? BinaryOp.names) (← Register.ofJson? left)
      (← Register.ofJson? right)
  | "UnOp" =>
    let some [dest,op,operand] := contents.namedFields? ["dest","op","operand"] | none
    return .unary (← Register.ofJson? dest) (← op.named? UnaryOp.names) (← Register.ofJson? operand)
  | "Cmp" =>
    let some [dest,op,left,right] := contents.namedFields? ["dest","op","left","right"] | none
    return .compare (← Register.ofJson? dest) (← op.named? CompareOp.names) (← Register.ofJson? left)
      (← Register.ofJson? right)
  | "Cast" =>
    let some [dest,source,kind,type] := contents.namedFields? ["dest","src","kind","to_ty"] | none
    return .cast (← Register.ofJson? dest) (← Register.ofJson? source) (← kind.named? CastKind.names)
      (← NativeType.ofJson? type)
  | "Call" =>
    let some [dest,callee,args,signature,lifetime] :=
      contents.namedFields? ["dest","callee","args","signature","lifetime"] | none
    return .call (← dest.option? Register.ofJson?) (← CallSite.read callee args signature lifetime)
  | "LandingPad" =>
    let some [dest] := contents.namedFields? ["dest"] | none
    return .landingPad (← Register.ofJson? dest)
  | _ => none

end Instr

namespace Terminator

def toJson : Terminator → Json
  | .branch target => .tagged "Branch" (.obj [("target", target.toJson)])
  | .condBranch condition onTrue onFalse =>
    .tagged "CondBranch" (.obj [("condition", condition.toJson),("true_target", onTrue.toJson),
      ("false_target", onFalse.toJson)])
  | .ret value => .tagged "Return" (.obj [("value", .option Register.toJson value)])
  | .invoke dest site normal unwind =>
    .tagged "Invoke" (.obj (("dest", .option Register.toJson dest) :: site.members ++
      [("normal", normal.toJson),("unwind", unwind.toJson)]))
  | .unreachable => .str "Unreachable"

def ofJson? (document : Json) : Option Terminator := do
  let (tag, contents) ← document.variant?
  match tag with
  | "Branch" =>
    let some [target] := contents.namedFields? ["target"] | none
    return .branch (← BlockId.ofJson? target)
  | "CondBranch" =>
    let some [condition,onTrue,onFalse] :=
      contents.namedFields? ["condition","true_target","false_target"] | none
    return .condBranch (← Register.ofJson? condition) (← BlockId.ofJson? onTrue) (← BlockId.ofJson? onFalse)
  | "Return" =>
    let some [value] := contents.namedFields? ["value"] | none
    return .ret (← value.option? Register.ofJson?)
  | "Invoke" =>
    let some [dest,callee,args,signature,lifetime,normal,unwind] :=
      contents.namedFields? ["dest","callee","args","signature","lifetime","normal","unwind"] | none
    return .invoke (← dest.option? Register.ofJson?) (← CallSite.read callee args signature lifetime)
      (← BlockId.ofJson? normal) (← BlockId.ofJson? unwind)
  | "Unreachable" => contents.plain? .unreachable
  | _ => none

end Terminator

namespace Phi

def toJson (phi : Phi) : Json :=
  .obj [("dest", phi.dest.toJson),
    ("incoming", .list (fun edge => .arr [edge.1.toJson,edge.2.toJson]) phi.incoming),
    ("ty", phi.type.toJson)]

def ofJson? (document : Json) : Option Phi := do
  let some [dest,incoming,type] := document.fields? ["dest","incoming","ty"] | none
  return ⟨← Register.ofJson? dest,← incoming.list? (Json.pair? BlockId.ofJson? Register.ofJson?),
    ← NativeType.ofJson? type⟩

end Phi

namespace Block

def toJson (b : Block) : Json :=
  .obj [("id", b.id.toJson),("label", .option .str b.label),("phi_nodes", .list Phi.toJson b.phis),
    ("instructions", .list Instr.toJson b.instrs),("terminator", .option Terminator.toJson b.terminator),
    ("source_location", b.location.toJson),("predecessors", .list BlockId.toJson b.predecessors)]

def ofJson? (document : Json) : Option Block := do
  let some [id,label,phis,instrs,terminator,location,predecessors] :=
    document.fields? ["id","label","phi_nodes","instructions","terminator","source_location",
      "predecessors"] | none
  return {
    id := ← BlockId.ofJson? id
    label := ← label.option? Json.string?
    phis := ← phis.list? Phi.ofJson?
    instrs := ← instrs.list? Instr.ofJson?
    terminator := ← terminator.option? Terminator.ofJson?
    location := ← Location.ofJson? location
    predecessors := ← predecessors.list? BlockId.ofJson? }

end Block

namespace Table

def toJson {κ α : Type} (index : κ → Nat) (encode : α → Json) (t : Table κ α) : Json :=
  .obj (t.entries.map fun e => (toString (index e.1), encode e.2))

def ofJson? {κ α : Type} [DecidableEq κ] (make : Nat → κ) (read : Json → Option α) (document : Json) : Option (Table κ α) := do
  let members ← document.indexed? read
  return .ofList (members.map fun m => (make m.1, m.2))

end Table

namespace Graph

def toJson (g : Graph) : Json :=
  .obj [("blocks", g.blocks.toJson BlockId.index Block.toJson),("entry_block", g.entry.toJson),
    ("next_block_id", .nat g.nextBlock)]

def ofJson? (document : Json) : Option Graph := do
  let some [blocks,entry,nextBlock] := document.fields? ["blocks","entry_block","next_block_id"] | none
  return ⟨← Table.ofJson? BlockId.mk Block.ofJson? blocks,← BlockId.ofJson? entry,← nextBlock.unsigned? 32⟩

end Graph

namespace Parameter

def toJson (p : Parameter) : Json :=
  .obj [("name", .str p.name),("ty", p.type.toJson),("reg", p.register.toJson)]

def ofJson? (document : Json) : Option Parameter := do
  let some [name,type,register] := document.fields? ["name","ty","reg"] | none
  return ⟨← name.string?,← NativeType.ofJson? type,← Register.ofJson? register⟩

end Parameter

namespace Header

def toJson (h : Header) : Json :=
  .obj [("parameters", .list Parameter.toJson h.parameters),("return_type", h.result.toJson)]

def ofJson? (document : Json) : Option Header := do
  let some [parameters,result] := document.fields? ["parameters","return_type"] | none
  return ⟨← parameters.list? Parameter.ofJson?,← NativeType.ofJson? result⟩

end Header

namespace Procedure

def toJson (p : Procedure) : Json :=
  .obj [("id", .nat p.id.index),("name", .str p.name),("signature", p.header.toJson),
    ("cfg", p.graph.toJson),("register_types", p.registerTypes.toJson Register.index NativeType.toJson),
    ("linkage", .named Linkage.names p.linkage),("source_location", p.location.toJson),
    ("next_reg_id", .nat p.nextRegister)]

def ofJson? (document : Json) : Option Procedure := do
  let some [id,name,header,graph,registerTypes,linkage,location,nextRegister] :=
    document.fields? ["id","name","signature","cfg","register_types","linkage","source_location",
      "next_reg_id"] | none
  return {
    id := ← id.id? ProcId.mk
    name := ← name.string?
    header := ← Header.ofJson? header
    graph := ← Graph.ofJson? graph
    registerTypes := ← Table.ofJson? Register.mk NativeType.ofJson? registerTypes
    linkage := ← linkage.named? Linkage.names
    location := ← Location.ofJson? location
    nextRegister := ← nextRegister.unsigned? 32 }

end Procedure

namespace Global

def toJson (g : Global) : Json :=
  .obj [("id", .nat g.id.index),("name", .str g.name),("ty", g.type.toJson),
    ("initializer", .option Literal.toJson g.initializer),("mutable", .bool g.isMutable),
    ("linkage", .named Linkage.names g.linkage),("source_location", g.location.toJson)]

def ofJson? (document : Json) : Option Global := do
  let some [id,name,type,initializer,isMutable,linkage,location] :=
    document.fields? ["id","name","ty","initializer","mutable","linkage","source_location"] | none
  return {
    id := ← id.id? GlobalId.mk
    name := ← name.string?
    type := ← NativeType.ofJson? type
    initializer := ← initializer.option? Literal.ofJson?
    isMutable := ← isMutable.bool?
    linkage := ← linkage.named? Linkage.names
    location := ← Location.ofJson? location }

end Global

namespace ExternProcedure

def toJson (e : ExternProcedure) : Json :=
  .obj [("id", .nat e.id.index),("name", .str e.name),("signature", e.header.toJson),
    ("can_throw", .bool e.canThrow)]

def ofJson? (document : Json) : Option ExternProcedure := do
  let some [id,name,header,canThrow] := document.fields? ["id","name","signature","can_throw"] | none
  return ⟨← id.id? ProcId.mk,← name.string?,← Header.ofJson? header,← canThrow.bool?⟩

end ExternProcedure

namespace StaticContents

def toJson : StaticContents → Json
  | .string value => .tagged "String" (.str value)
  | .array elementType elements =>
    .tagged "Array" (.obj [("element_ty", elementType.toJson),("elements", .list Literal.toJson elements)])
  | .aggregate parts => .tagged "Aggregate" (.list Literal.toJson parts)

def ofJson? (document : Json) : Option StaticContents := do
  let (tag, contents) ← document.variant?
  match tag with
  | "String" => return .string (← contents.string?)
  | "Array" =>
    let some [elementType,elements] := contents.namedFields? ["element_ty","elements"] | none
    return .array (← NativeType.ofJson? elementType) (← elements.list? Literal.ofJson?)
  | "Aggregate" => return .aggregate (← contents.list? Literal.ofJson?)
  | _ => none

end StaticContents

namespace StaticDatum

def toJson (d : StaticDatum) : Json :=
  .obj [("id", .nat d.id.index),("name", .str d.name),("ty", d.type.toJson),("data", d.contents.toJson)]

def ofJson? (document : Json) : Option StaticDatum := do
  let some [id,name,type,contents] := document.fields? ["id","name","ty","data"] | none
  return ⟨← id.id? DataId.mk,← name.string?,← NativeType.ofJson? type,← StaticContents.ofJson? contents⟩

end StaticDatum

namespace Module

def toJson (m : Module) : Json :=
  .obj [("name", .str m.name),("functions", m.procedures.toJson ProcId.index Procedure.toJson),
    ("extern_functions", m.externs.toJson ProcId.index ExternProcedure.toJson),
    ("globals", m.globals.toJson GlobalId.index Global.toJson),
    ("constants", m.data.toJson DataId.index StaticDatum.toJson),
    ("global_ctors", .list (fun id => .nat id.index) m.constructors),
    ("next_function_id", .nat m.nextProcedure),("next_global_id", .nat m.nextGlobal),
    ("next_constant_id", .nat m.nextDatum)]

def ofJson? (document : Json) : Option Module := do
  let some [name,procedures,externs,globals,data,constructors,nextProcedure,nextGlobal,nextDatum] :=
    document.fields? ["name","functions","extern_functions","globals","constants","global_ctors",
      "next_function_id","next_global_id","next_constant_id"] | none
  return {
    name := ← name.string?
    procedures := ← Table.ofJson? ProcId.mk Procedure.ofJson? procedures
    externs := ← Table.ofJson? ProcId.mk ExternProcedure.ofJson? externs
    globals := ← Table.ofJson? GlobalId.mk Global.ofJson? globals
    data := ← Table.ofJson? DataId.mk StaticDatum.ofJson? data
    constructors := ← constructors.list? (Json.id? ProcId.mk)
    nextProcedure := ← nextProcedure.unsigned? 32
    nextGlobal := ← nextGlobal.unsigned? 32
    nextDatum := ← nextDatum.unsigned? 32 }

end Module

end BlockLowering
