import BlockLowering.Module
/-!
What the code and the data of a module refer to.
-/
namespace BlockLowering

/-- Something that a module has and that its code and data may refer to. -/
inductive Reference where
  | proc (id : ProcId)
  | global (id : GlobalId)
  | data (id : DataId)
  deriving DecidableEq, Repr

namespace Literal

mutual

def references : Literal → List Reference
  | .proc id => [.proc id]
  | .global id => [.global id]
  | .data id => [.data id]
  | .aggregate parts => allReferences parts
  | .undef | .null | .bool _ | .i8 _ | .i16 _ | .i32 _ | .i64 _ | .f32 _ | .f64 _ => []

def allReferences : List Literal → List Reference
  | [] => []
  | literal :: rest => literal.references ++ allReferences rest

end

end Literal

def Callee.references : Callee → List Reference
  | .direct id => [.proc id]
  | .indirect _ => []

def Instr.references : Instr → List Reference
  | .const _ value => value.references
  | .call _ site => site.callee.references
  | .alloc .. | .load .. | .store .. | .element .. | .binary .. | .unary .. | .compare .. | .cast .. | .landingPad _ => []

def Terminator.references : Terminator → List Reference
  | .invoke _ site _ _ => site.callee.references
  | .branch _ | .condBranch .. | .ret _ | .unreachable => []

def Block.references (k : Block) : List Reference :=
  k.instrs.flatMap Instr.references ++ k.terminator.toList.flatMap Terminator.references

def StaticContents.references : StaticContents → List Reference
  | .string _ => []
  | .array _ elements => Literal.allReferences elements
  | .aggregate parts => Literal.allReferences parts

def Global.references (g : Global) : List Reference := (g.initializer.map Literal.references).getD []

/-- Everything that a module refers to: in its code, in the initial values of globals, in static data and among
    the functions to run before the program. -/
def Module.references (m : Module) : List Reference :=
  m.procedures.values.flatMap (fun p => p.graph.blocks.values.flatMap Block.references) ++
    m.globals.values.flatMap Global.references ++ m.data.values.flatMap (fun d => d.contents.references) ++
    m.constructors.map .proc

end BlockLowering
