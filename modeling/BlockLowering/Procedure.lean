import BlockLowering.Graph.Traversal
/-!
Functions of the output: a signature with a register for every parameter, a control flow graph, and
the types of the registers handed out so far.
-/
namespace BlockLowering

inductive Linkage where
  | internal
  | exported
  | imported
  deriving DecidableEq, Repr

structure Parameter where
  name : String
  type : NativeType
  register : Register
  deriving DecidableEq

/-- A parameter that has no register yet. -/
def Parameter.new (name : String) (type : NativeType) : Parameter := ⟨name,type,.unassigned⟩

structure Header where
  parameters : List Parameter
  result : NativeType
  deriving DecidableEq

def Header.signature (h : Header) : Signature := ⟨h.parameters.map Parameter.type,h.result⟩

structure Procedure where
  id : ProcId
  name : String
  header : Header
  graph : Graph
  registerTypes : Table Register NativeType
  linkage : Linkage
  location : Location
  nextRegister : Nat
  deriving DecidableEq

namespace Procedure

def numberParameters : Nat → List Parameter → List Parameter
  | _, [] => []
  | next, p :: rest => { p with register := ⟨next⟩ } :: numberParameters (next + 1) rest

/-- A function without code; its parameters take the first registers. -/
def new (id : ProcId) (name : String) (header : Header) : Procedure :=
  let parameters := numberParameters 0 header.parameters
  { id, name
    header := { header with parameters }
    graph := .new
    registerTypes := .ofList (parameters.map fun p => (p.register, p.type))
    linkage := .exported
    location := .unknown
    nextRegister := parameters.length }

def takeRegister (p : Procedure) : Register × Procedure :=
  (⟨p.nextRegister⟩, { p with nextRegister := p.nextRegister + 1 })

def allocRegister (p : Procedure) (type : NativeType) : Register × Procedure :=
  let (register, p) := p.takeRegister
  (register, { p with registerTypes := p.registerTypes.insert register type })

def modifyGraph (p : Procedure) (f : Graph → Graph) : Procedure := { p with graph := f p.graph }

def modifyBlock (p : Procedure) (id : BlockId) (f : Block → Block) : Procedure :=
  p.modifyGraph fun g => g.modifyBlock id f

def isLeaf (p : Procedure) : Bool :=
  p.graph.blocks.values.all fun b =>
    !b.instrs.any Instr.isCall && !(b.terminator.map Terminator.isInvoke).getD false

def blockCount (p : Procedure) : Nat := p.graph.blocks.size

def instrCount (p : Procedure) : Nat := p.graph.blocks.total fun b => b.instrs.length

def phiCount (p : Procedure) : Nat := p.graph.blocks.total fun b => b.phis.length

end Procedure

end BlockLowering
