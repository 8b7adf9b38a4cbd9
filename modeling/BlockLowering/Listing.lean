import BlockLowering.Module
import BlockLowering.Text.Quoted
/-!
The readable listing of a module: every construct on a line of its own, blocks in the order of
creation.
-/
namespace BlockLowering

def commaList {α : Type} [ToString α] (items : List α) : String := ", ".intercalate (items.map toString)

def linesText (lines : List String) : String := String.join (lines.map fun line => line ++ "\n")

def BinaryOp.mnemonic : BinaryOp → String
  | .add => "add"
  | .sub => "sub"
  | .mul => "mul"
  | .div => "sdiv"
  | .rem => "srem"
  | .and => "and"
  | .or => "or"
  | .xor => "xor"
  | .shl => "shl"
  | .shr => "ashr"
  | .fadd => "fadd"
  | .fsub => "fsub"
  | .fmul => "fmul"
  | .fdiv => "fdiv"
  | .frem => "frem"

def UnaryOp.mnemonic : UnaryOp → String
  | .neg => "neg"
  | .not => "not"
  | .fneg => "fneg"

def CompareOp.mnemonic : CompareOp → String
  | .eq => "eq"
  | .ne => "ne"
  | .lt => "slt"
  | .le => "sle"
  | .gt => "sgt"
  | .ge => "sge"
  | .feq => "oeq"
  | .fne => "one"
  | .flt => "olt"
  | .fle => "ole"
  | .fgt => "ogt"
  | .fge => "oge"

def CastKind.mnemonic : CastKind → String
  | .trunc => "trunc"
  | .signExtend => "sext"
  | .zeroExtend => "zext"
  | .intToFloat => "sitofp"
  | .floatToInt => "fptosi"
  | .floatResize => "fpcast"
  | .bitcast => "bitcast"

def Lifetime.mark : Lifetime → String
  | .local => " !local"
  | .returnValue => " !return"
  | .global => " !global"
  | .escaping => " !escaping"
  | .irrelevant => ""

def Callee.text : Callee → String
  | .direct id => s!"@{id}"
  | .indirect pointer => toString pointer

def CallSite.text (site : CallSite) : String :=
  s!"{site.signature} {site.callee.text}({commaList site.args}){site.lifetime.mark}"

def assigned (dest : Option Register) (text : String) : String :=
  match dest with
  | some register => s!"{register} = {text}"
  | none => text

def Instr.text : Instr → String
  | .const dest value => s!"{dest} = const {value}"
  | .alloc dest type => s!"{dest} = alloca {type}"
  | .load dest ptr type => s!"{dest} = load {type}, {ptr}"
  | .store ptr value => s!"store {value}, {ptr}"
  | .element dest ptr indices type => s!"{dest} = gep {type}, {ptr}, [{commaList indices}]"
  | .binary dest op left right => s!"{dest} = {op.mnemonic} {left}, {right}"
  | .unary dest op operand => s!"{dest} = {op.mnemonic} {operand}"
  | .compare dest op left right => s!"{dest} = cmp {op.mnemonic} {left}, {right}"
  | .cast dest source kind type => s!"{dest} = {kind.mnemonic} {source} to {type}"
  | .call dest site => assigned dest s!"call {site.text}"
  | .landingPad dest => s!"{dest} = landingpad"

def Terminator.text : Terminator → String
  | .branch target => s!"br {target}"
  | .condBranch condition onTrue onFalse => s!"br_if {condition}, {onTrue}, {onFalse}"
  | .ret (some value) => s!"ret {value}"
  | .ret none => "ret void"
  | .invoke dest site normal unwind => assigned dest s!"invoke {site.text} to {normal} unwind {unwind}"
  | .unreachable => "unreachable"

def Phi.text (phi : Phi) : String :=
  let edges := phi.incoming.map fun edge => s!"[{edge.1}: {edge.2}]"
  s!"{phi.dest} = phi {phi.type} {commaList edges}"

def Block.lines (b : Block) : List String :=
  let label := match b.label with
    | some label => s!" ; {label}"
    | none => ""
  let preds := if b.predecessors.isEmpty then [] else [s!"    ; preds: {commaList b.predecessors}"]
  let ending := match b.terminator with
    | some terminator => terminator.text
    | none => "; <no terminator>"
  s!"  {b.id}:{label}" :: preds ++
    (b.phis.map Phi.text ++ b.instrs.map Instr.text ++ [ending]).map fun line => s!"    {line}"

def Block.listing (b : Block) : String := linesText b.lines

def Procedure.lines (p : Procedure) : List String :=
  let params := p.header.parameters.map fun param => s!"{param.register}: {param.type}"
  s!"fn @{p.name}({commaList params}) -> {p.header.result} \x7b ; {p.id}" ::
    p.graph.blocks.values.flatMap Block.lines ++ ["\x7d"]

def Procedure.listing (p : Procedure) : String := linesText p.lines

def ExternProcedure.line (e : ExternProcedure) : String :=
  s!"declare @{e.name} {e.header.signature}" ++ (if e.canThrow then "" else " nothrow")

def Global.line (g : Global) : String :=
  let initial := match g.initializer with
    | some value => s!" = {value}"
    | none => " external"
  let kind := if g.isMutable then "global" else "constant"
  s!"@{g.name} ({g.id}): {kind} {g.type}{initial}"

def StaticContents.text : StaticContents → String
  | .string value => Text.quoted value
  | .array elementType elements => s!"[{elements.length} x {elementType}] [{commaList elements}]"
  | .aggregate parts => s!"\x7b{commaList parts}\x7d"

def StaticDatum.line (d : StaticDatum) : String := s!"@{d.name} ({d.id}) = data {d.contents.text}"

namespace Module

def lines (m : Module) : List String :=
  [s!"; Module: {m.name}",s!"; Functions: {m.procedures.size}",""] ++
    m.externs.values.map ExternProcedure.line ++
    m.globals.values.map Global.line ++
    m.data.values.map StaticDatum.line ++
    (if m.constructors.isEmpty then [] else [s!"global_ctors = [{commaList m.constructors}]"]) ++
    [""] ++ m.procedures.values.flatMap fun p => p.lines ++ [""]

def listing (m : Module) : String := linesText m.lines

end Module

end BlockLowering
