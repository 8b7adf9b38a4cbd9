import BlockLowering.Graph.Basic
/-!
Depth-first orders of a control flow graph, computed with an explicit stack, and the removal of what
they do not reach. A preorder also lists successors that do not exist; a postorder follows existing
blocks only.
-/
namespace BlockLowering.Graph

/-- The number of edges, counting an edge for every successor that a terminator names. -/
def edgeCount (g : Graph) : Nat := g.blocks.total fun b => b.successors.length

/-- Take blocks off the stack and list each at its first visit, before its successors; `done` holds
    the blocks listed so far, last first. -/
def preorderFrom (g : Graph) : Nat → List BlockId → List BlockId → List BlockId
  | 0, _, done => done
  | _ + 1, [], done => done
  | fuel + 1, block :: stack, done =>
    if block ∈ done then g.preorderFrom fuel stack done
    else
      let fresh := (g.successors block).filter fun target => target ∉ block :: done
      g.preorderFrom fuel (fresh ++ stack) (block :: done)

/-- The blocks reachable from the entry, in depth-first preorder. Every edge puts at most one block on
    the stack, which bounds the steps. -/
def reachable (g : Graph) : List BlockId :=
  (g.preorderFrom (g.edgeCount + 2) [g.entry] []).reverse

/-- Walk the successors that are left at each block of the stack; a block with none left is done.
    `seen` holds the blocks that were ever on the stack, `done` the finished ones, last first. -/
def postorderFrom (g : Graph) : Nat → List (BlockId × List BlockId) → List BlockId → List BlockId → List BlockId
  | 0, _, _, done => done
  | _ + 1, [], _, done => done
  | fuel + 1, (block, []) :: stack, seen, done => g.postorderFrom fuel stack seen (block :: done)
  | fuel + 1, (block, target :: rest) :: stack, seen, done =>
    if g.hasBlock target ∧ target ∉ seen then
      g.postorderFrom fuel ((target, g.successors target) :: (block, rest) :: stack) (target :: seen) done
    else g.postorderFrom fuel ((block, rest) :: stack) seen done

/-- The existing blocks reachable from the entry in reverse depth-first postorder, the entry first.
    Each block is finished once and each edge is walked once, which bounds the steps. -/
def reversePostorder (g : Graph) : List BlockId :=
  g.postorderFrom (g.edgeCount + g.blocks.size + 2) [(g.entry, g.successors g.entry)] [g.entry] []

/-- Drop the blocks that the entry does not reach, and every edge from one of them. -/
def prune (g : Graph) : Graph :=
  let kept := g.reachable
  { g with
    blocks := (g.blocks.filterKeys fun id => kept.contains id).mapValues fun b =>
      b.keepPredecessors fun id => kept.contains id }

def prunedCount (g : Graph) : Nat := g.blocks.size - g.prune.blocks.size

end BlockLowering.Graph
