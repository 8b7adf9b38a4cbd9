import BlockLowering.Instr
import BlockLowering.Table
/-!
Basic blocks and control flow graphs. A graph lists its blocks in the order of creation and hands out
block numbers; a block records its predecessors in the order in which the edges were drawn.
-/
namespace BlockLowering

/-- A basic block; it lacks a terminator only while it is being built. -/
structure Block where
  id : BlockId
  label : Option String
  phis : List Phi
  instrs : List Instr
  terminator : Option Terminator
  location : Location
  predecessors : List BlockId
  deriving DecidableEq

namespace Block

def new (id : BlockId) : Block := ⟨id,none,[],[],none,.unknown,[]⟩

def isTerminated (b : Block) : Bool := b.terminator.isSome

def successors (b : Block) : List BlockId := (b.terminator.map Terminator.successors).getD []

def append (b : Block) (instr : Instr) : Block := { b with instrs := b.instrs ++ [instr] }

def addPhi (b : Block) (phi : Phi) : Block := { b with phis := b.phis ++ [phi] }

/-- The block with a further stack slot after those at its head. -/
def addAlloc (b : Block) (instr : Instr) : Block :=
  { b with instrs := b.instrs.takeWhile Instr.isAlloc ++ instr :: b.instrs.dropWhile Instr.isAlloc }

/-- The block with an edge from `pred`, recorded once. -/
def addPredecessor (b : Block) (pred : BlockId) : Block :=
  if pred ∈ b.predecessors then b else { b with predecessors := b.predecessors ++ [pred] }

/-- The block without the edges from blocks that fail a test. -/
def keepPredecessors (b : Block) (keep : BlockId → Bool) : Block :=
  { b with
    predecessors := b.predecessors.filter keep
    phis := b.phis.map fun phi => { phi with incoming := phi.incoming.filter fun edge => keep edge.1 } }

end Block

structure Graph where
  blocks : Table BlockId Block
  entry : BlockId
  nextBlock : Nat
  deriving DecidableEq

namespace Graph

def new : Graph where
  blocks := Table.empty.insert .first { Block.new .first with label := some "entry" }
  entry := .first
  nextBlock := 1

def block? (g : Graph) (id : BlockId) : Option Block := g.blocks.get? id

def hasBlock (g : Graph) (id : BlockId) : Bool := g.blocks.contains id

/-- The successors of a block; a block that does not exist has none. -/
def successors (g : Graph) (id : BlockId) : List BlockId := ((g.block? id).map Block.successors).getD []

def createBlock (g : Graph) : BlockId × Graph :=
  let id : BlockId := ⟨g.nextBlock⟩
  (id, { g with blocks := g.blocks.insert id (Block.new id), nextBlock := g.nextBlock + 1 })

def modifyBlock (g : Graph) (id : BlockId) (f : Block → Block) : Graph :=
  { g with blocks := g.blocks.modify id f }

def connect (g : Graph) (source target : BlockId) : Graph :=
  g.modifyBlock target fun b => b.addPredecessor source

def removeBlock (g : Graph) (id : BlockId) : Graph :=
  { g with blocks := g.blocks.filterKeys fun other => other ≠ id }

inductive Defect where
  | noEntry
  | unterminated (block : BlockId)
  | danglingEdge (block target : BlockId)
  | foreignPhiEdge (block source : BlockId)
  deriving DecidableEq, Repr

def Defect.message : Defect → String
  | .noEntry => "Entry block not found"
  | .unterminated block => s!"Block {block} is not terminated"
  | .danglingEdge block target => s!"Block {block} references non-existent successor {target}"
  | .foreignPhiEdge block source => s!"Phi node in block {block} references non-predecessor block {source}"

/-- The first defect of a block: a missing terminator, then an edge to nowhere, then a phi edge that
    no predecessor has. -/
def blockDefect? (g : Graph) (id : BlockId) (b : Block) : Option Defect :=
  if !b.isTerminated then some (.unterminated id)
  else
    match b.successors.find? fun target => !g.hasBlock target with
    | some target => some (.danglingEdge id target)
    | none =>
      (((b.phis.flatMap Phi.incoming).map Prod.fst).find? fun source => !b.predecessors.contains source).map
        (.foreignPhiEdge id)

def defect? (g : Graph) : Option Defect :=
  if !g.hasBlock g.entry then some .noEntry
  else g.blocks.entries.findSome? fun e => g.blockDefect? e.1 e.2

end Graph

end BlockLowering
