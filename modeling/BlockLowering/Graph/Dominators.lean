import BlockLowering.Graph.Traversal
/-!
Immediate dominators. The reachable blocks are numbered in reverse postorder, the entry being `0`, and
the tree is found by repeated passes: a block's immediate dominator is the nearest common ancestor of
those of its predecessors that have one already, until a pass changes nothing.
-/
namespace BlockLowering

/-- The reachable blocks in reverse postorder, and for each position that of its immediate dominator.
    The entry has itself. -/
structure DominatorTree where
  order : List BlockId
  parents : Array (Option Nat)
  deriving DecidableEq

namespace DominatorTree

def parentOf (parents : Array (Option Nat)) (i : Nat) : Nat := (parents[i]?.join).getD 0

/-- The nearest common ancestor: the later of two positions moves up until they meet. -/
def commonAncestor (parents : Array (Option Nat)) : Nat → Nat → Nat → Nat
  | 0, a, _ => a
  | fuel + 1, a, b =>
    if a = b then a
    else if b < a then commonAncestor parents fuel (parentOf parents a) b
    else commonAncestor parents fuel a (parentOf parents b)

/-- The common ancestor of the predecessors that have a parent already, if there is one. Positions
    fall at every step upwards, so their sum bounds the climb. -/
def mergedParent? (parents : Array (Option Nat)) (preds : List Nat) : Option Nat :=
  (preds.filter fun p => (parents[p]?.join).isSome).foldl
    (fun found p => some (match found with
      | none => p
      | some q => commonAncestor parents (p + q + 1) p q))
    none

def improve (preds : Nat → List Nat) (parents : Array (Option Nat)) (i : Nat) : Array (Option Nat) :=
  match mergedParent? parents (preds i) with
  | none => parents
  | some parent => parents.setIfInBounds i (some parent)

def pass (preds : Nat → List Nat) (parents : Array (Option Nat)) : Array (Option Nat) :=
  (List.range' 1 (parents.size - 1)).foldl (improve preds) parents

def settle (preds : Nat → List Nat) : Nat → Array (Option Nat) → Array (Option Nat)
  | 0, parents => parents
  | fuel + 1, parents =>
    let next := pass preds parents
    if next = parents then parents else settle preds fuel next

def predecessorPositions (g : Graph) (order : List BlockId) : Array (List Nat) :=
  let targets := order.map g.successors
  (order.map fun block =>
    (targets.zipIdx.filter fun entry => block ∈ entry.1).map Prod.snd).toArray

/-- The dominator tree of a graph. Once every block has a parent each further pass moves one of them
    up, so the square of the number of blocks bounds the passes. -/
def compute (g : Graph) : DominatorTree :=
  let order := g.reversePostorder
  let preds := predecessorPositions g order
  let start := (some 0 :: List.replicate (order.length - 1) none).toArray
  ⟨order,settle (fun i => preds.getD i []) (order.length * order.length + 2) start⟩

def position? (t : DominatorTree) (block : BlockId) : Option Nat := t.order.idxOf? block

def isReachable (t : DominatorTree) (block : BlockId) : Bool := t.order.contains block

/-- The immediate dominator; the entry and unreachable blocks have none. -/
def idom? (t : DominatorTree) (block : BlockId) : Option BlockId :=
  match t.position? block with
  | none | some 0 => none
  | some i => (t.parents[i]?.join).bind fun parent => t.order[parent]?

/-- Whether one position is another or an ancestor of it. -/
def isAncestor (parents : Array (Option Nat)) : Nat → Nat → Nat → Bool
  | 0, a, b => a == b
  | fuel + 1, a, b => a == b || (b != 0 && isAncestor parents fuel a (parentOf parents b))

/-- Whether every path from the entry to `b` passes `a`; false when `b` is unreachable. -/
def dominates (t : DominatorTree) (a b : BlockId) : Bool :=
  match t.position? a, t.position? b with
  | some i, some j => isAncestor t.parents j i j
  | _, _ => false

end DominatorTree

end BlockLowering
