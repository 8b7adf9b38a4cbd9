import BlockLowering.Proofs.Settling
/-!
The dominator tree and the routes of a graph. A route leads from the entry along successors that exist. The
blocks of the tree are the ends of routes, an ancestor is a block on every route, and the parent of a block is
the last one before it that every route passes. In which order predecessors are looked at makes no difference.
-/
namespace BlockLowering
open List Option Block BlockLowering.Graph

namespace Graph
variable {g : Graph} {a b d e : BlockId}

/-- The blocks, last one first, of a way from the entry along existing successors. -/
inductive Route (g : Graph) : List BlockId → Prop
  | entry : Route g [g.entry]
  | step {a x : BlockId} {rest : List BlockId} : Route g (a :: rest) → x ∈ g.successors a → g.hasBlock x = true →
      Route g (x :: a :: rest)

/-- Some route ends at a block. -/
def Accessible (g : Graph) (b : BlockId) : Prop := ∃ rest, g.Route (b :: rest)

/-- Every route to a block passes another one. -/
def OnEveryRoute (g : Graph) (a b : BlockId) : Prop := ∀ rest, g.Route (b :: rest) → a ∈ b :: rest

/-- A block other than `b` that every route to `b` passes. -/
def StrictlyDominates (g : Graph) (d b : BlockId) : Prop := d ≠ b ∧ g.OnEveryRoute d b

/-- A strict dominator that all the other ones dominate. -/
structure ImmediatelyDominates (g : Graph) (d b : BlockId) : Prop where
  strict : g.StrictlyDominates d b
  least : ∀ e, g.StrictlyDominates e b → g.OnEveryRoute e d

/-! ### Routes and paths -/

theorem Route.visited {route : List BlockId} (walked : g.Route route) : ∀ b, route.head? = some b → g.Visited b := by
  induction walked with
  | entry =>
    rintro b ⟨⟩
    exact ⟨.entry,.inl rfl⟩
  | step _ edge exist ih =>
    rintro b ⟨⟩
    exact ⟨.step (ih _ rfl).1 edge,.inr exist⟩

theorem Route.avoiding {route : List BlockId} (walked : g.Route route) (never : d ∉ route) :
    ∀ b, route.head? = some b → g.Avoiding d b := by
  induction walked with
  | entry =>
    rintro b ⟨⟩
    exact .entry fun same => never (same ▸ (.head _))
  | step _ edge _ ih =>
    rintro b ⟨⟩
    exact .step (ih (fun inside => never (.tail _ inside)) _ rfl) edge fun same => never (same ▸ (.head _))

theorem Visited.accessible (visited : g.Visited b) : g.Accessible b := by
  obtain ⟨reached,place⟩ := visited
  induction reached with
  | entry => exact ⟨[],.entry⟩
  | @step a x before edge ih =>
    rcases place with rfl | exist
    · exact ⟨[],.entry⟩
    · obtain ⟨rest,walked⟩ := ih (before.visited edge).2
      exact ⟨a :: rest,.step walked edge exist⟩

theorem accessible_iff : g.Accessible b ↔ g.Visited b := by
  refine ⟨fun accessible => ?_,Visited.accessible⟩
  obtain ⟨rest,walked⟩ := accessible
  exact walked.visited b rfl

theorem Avoiding.route (avoids : g.Avoiding d b) (visited : g.Visited b) : ∃ rest, g.Route (b :: rest) ∧ d ∉ b :: rest := by
  induction avoids with
  | entry other => exact ⟨[],.entry,by simpa using symm other⟩
  | @step a x before edge other ih =>
    rcases visited.2 with rfl | exist
    · exact ⟨[],.entry,by simpa using symm other⟩
    · obtain ⟨rest,walked,never⟩ := ih (before.reached.visited edge)
      exact ⟨a :: rest,.step walked edge exist,not_mem_cons_of_ne_of_not_mem (symm other) never⟩

theorem onEveryRoute_iff (visited : g.Visited b) : g.OnEveryRoute d b ↔ g.Dominates d b := by
  constructor
  · intro every avoids
    obtain ⟨rest,walked,never⟩ := avoids.route visited
    exact never (every rest walked)
  · intro dominates rest walked
    by_contra never
    exact dominates (walked.avoiding never b rfl)

theorem OnEveryRoute.visited (every : g.OnEveryRoute d b) (visited : g.Visited b) : g.Visited d := by
  obtain ⟨i,there⟩ := mem_iff_getElem?.mp ((g.listed_reversePostorder.mem b).mpr visited)
  obtain ⟨j,-,found⟩ := g.listed_reversePostorder.le there ((onEveryRoute_iff visited).mp every)
  exact (g.listed_reversePostorder.mem d).mp (mem_of_getElem? found)

theorem OnEveryRoute.antisymm (visited : g.Visited b) (every : g.OnEveryRoute a b) (back : g.OnEveryRoute b a) : a = b := by
  have listed := g.listed_reversePostorder
  obtain ⟨i,atB⟩ := mem_iff_getElem?.mp ((listed.mem b).mpr visited)
  obtain ⟨j,le,atA⟩ := listed.le atB ((onEveryRoute_iff visited).mp every)
  obtain ⟨i',ge,atB'⟩ := listed.le atA ((onEveryRoute_iff (every.visited visited)).mp back)
  have same := (List.getElem?_inj (List.getElem?_eq_some_iff.mp atB).1 listed.distinct).mp (atB.trans atB'.symm)
  obtain rfl : i = j := by omega
  exact mem_unique atA atB

theorem ImmediatelyDominates.unique (visited : g.Visited b) (first : g.ImmediatelyDominates d b)
    (second : g.ImmediatelyDominates e b) : e = d :=
  OnEveryRoute.antisymm (first.strict.2.visited visited) (first.least e second.strict) (second.least d first.strict)

end Graph

namespace DominatorTree
variable {g : Graph} {b d : BlockId}

/-! ### Parents -/

theorem idom?_of_parent {t : DominatorTree} {i parent : Nat} (here : t.position? b = some i) (inner : 0 < i)
    (found : t.parents[i]? = some (some parent)) (there : t.order[parent]? = some d) : t.idom? b = some d := by
  obtain ⟨n,rfl⟩ : ∃ n, i = n + 1 := ⟨i - 1,by omega⟩
  unfold idom?
  simp only [here,found,there,join_some,bind_some]

theorem exists_idom? (visited : g.Visited b) (inner : b ≠ g.entry) : ∃ d, (compute g).idom? b = some d ∧ g.ImmediatelyDominates d b := by
  have listed := g.listed_reversePostorder
  obtain ⟨settling,-⟩ := settling_compute g
  obtain ⟨i,position,atI⟩ := position?_of_listed listed visited
  have bound := (List.getElem?_eq_some_iff.mp atI).1
  have positive : 0 < i := by
    by_contra first
    obtain rfl : i = 0 := by omega
    exact inner (mem_unique atI listed.head)
  obtain ⟨parent,found⟩ := settling.all i bound
  obtain ⟨less,-,meet⟩ := settling.climbs.parent found positive
  obtain ⟨d,atD⟩ : ∃ d, g.reversePostorder[parent]? = some d := ⟨_,List.getElem?_eq_getElem (by omega)⟩
  have visitedD : g.Visited d := (listed.mem d).mp (mem_of_getElem? atD)
  have dominates : g.Dominates d b := dominates_of_above atD atI (.up found positive .refl)
  have other : d ≠ b := by
    rintro rfl
    have same := (List.getElem?_inj bound listed.distinct).mp (atI.trans atD.symm)
    omega
  refine ⟨d,idom?_of_parent position positive found atD,⟨other,(onEveryRoute_iff visited).mpr dominates⟩,fun e strict => ?_⟩
  -- A strict dominator comes before the block and so dominates its parent.
  have dominatesE := (onEveryRoute_iff visited).mp strict.2
  obtain ⟨j,-,atE⟩ := listed.le atI dominatesE
  have before : j ≠ i := fun same => strict.1 (mem_unique (same ▸ atE) atI)
  obtain ⟨x,y,atX,atY,further⟩ := meet ⟨e,b,atE,atI,dominatesE⟩ before
  obtain rfl := mem_unique atX atE
  obtain rfl := mem_unique atY atD
  exact (onEveryRoute_iff visitedD).mpr further

theorem idom?_entry (g : Graph) : (compute g).idom? g.entry = none := by
  have listed := g.listed_reversePostorder
  obtain ⟨i,position,atI⟩ := position?_of_listed listed ⟨.entry,.inl rfl⟩
  obtain rfl := (List.getElem?_inj (List.getElem?_eq_some_iff.mp atI).1 listed.distinct).mp (atI.trans listed.head.symm)
  have here : (compute g).position? g.entry = some 0 := position
  unfold idom?
  simp only [here]

theorem idom?_unvisited (unvisited : ¬ g.Visited b) : (compute g).idom? b = none := by
  have here : (compute g).position? b = none := by
    refine idxOf?_eq_none_iff.mpr fun inside => unvisited ?_
    exact (g.listed_reversePostorder.mem b).mp inside
  unfold idom?
  simp only [here]

/-! ### The order of predecessors -/

/-- The tree that passes over given lists of predecessors find for an order of the blocks. -/
def ofPredecessors (order : List BlockId) (preds : Nat → List Nat) : DominatorTree :=
  ⟨order,settle preds (order.length * order.length + 2) (some 0 :: replicate (order.length - 1) none).toArray⟩

theorem compute_eq_ofPredecessors (g : Graph) : compute g = ofPredecessors g.reversePostorder (predsOf g) := rfl

/-- Lists of predecessors, in any order, with any repetitions: at every position of an order those of the blocks
    with an edge to the block there. -/
def Enumerates (g : Graph) (order : List BlockId) (preds : Nat → List Nat) : Prop :=
  ∀ i x, order[i]? = some x → ∀ j, j ∈ preds i ↔ ∃ y, order[j]? = some y ∧ x ∈ g.successors y

section
variable {preds others : Nat → List Nat} {size : Nat} {dominates : Nat → Nat → Prop} {parents : Array (Option Nat)}

/-- Where positions meet depends on the set of them only. -/
theorem Climbs.mergedParent?_congr (climbs : Climbs size dominates parents) {ps qs : List Nat} (same : ∀ p, p ∈ ps ↔ p ∈ qs) :
    DominatorTree.mergedParent? parents ps = DominatorTree.mergedParent? parents qs := by
  cases found : DominatorTree.mergedParent? parents ps with
  | none =>
    rw [mergedParent?_eq_none_iff] at found
    exact (mergedParent?_eq_none_iff.mpr fun p inside => found p ((same p).mpr inside)).symm
  | some m =>
    cases found' : DominatorTree.mergedParent? parents qs with
    | none =>
      rw [mergedParent?_eq_none_iff] at found'
      rw [mergedParent?_eq_none_iff.mpr fun p inside => found' p ((same p).mp inside)] at found
      cases found
    | some m' =>
      -- Each of the two is above all the positions, so it is above the other one.
      have above : Above parents m m' := by
        rw [(climbs.above_mergedParent? found').2 m]
        exact fun p inside => ((climbs.above_mergedParent? found).2 m).mp .refl p ((same p).mpr inside)
      have below : Above parents m' m := by
        rw [(climbs.above_mergedParent? found).2 m']
        exact fun p inside => ((climbs.above_mergedParent? found').2 m').mp .refl p ((same p).mp inside)
      exact congrArg some (le_antisymm (above.le climbs) (below.le climbs))

variable (flow : Flow preds size dominates) (climbs : Climbs size dominates parents)
  (same : ∀ i, i < size → ∀ j, j ∈ others i ↔ j ∈ preds i)
include flow climbs same

theorem Climbs.passUpTo_congr {n : Nat} (bound : n < size) :
    DominatorTree.passUpTo others n parents = DominatorTree.passUpTo preds n parents := by
  induction n with
  | zero => rfl
  | succ n ih =>
    have good := (climbs.passUpTo flow (n := n) (by omega)).1
    rw [passUpTo_succ,passUpTo_succ,ih (by omega),DominatorTree.improve,DominatorTree.improve,
      good.mergedParent?_congr (same (n + 1) bound)]

theorem Climbs.pass_congr : DominatorTree.pass others parents = DominatorTree.pass preds parents := by
  have positive := climbs.positive
  rw [climbs.pass_eq,climbs.pass_eq]
  exact climbs.passUpTo_congr flow same (by omega)

theorem Climbs.settle_congr (fuel : Nat) : DominatorTree.settle others fuel parents = DominatorTree.settle preds fuel parents := by
  induction fuel generalizing parents with
  | zero => rfl
  | succ fuel ih =>
    rw [DominatorTree.settle,DominatorTree.settle,climbs.pass_congr flow same,ih (climbs.pass flow).1]

end

theorem ofPredecessors_eq_compute {preds : Nat → List Nat} (enumerates : Enumerates g g.reversePostorder preds) :
    ofPredecessors g.reversePostorder preds = compute g := by
  have same : ∀ i, i < g.reversePostorder.length → ∀ j, j ∈ preds i ↔ j ∈ predsOf g i := by
    intro i bound j
    have there : g.reversePostorder[i]? = some g.reversePostorder[i] := getElem?_eq_getElem bound
    rw [enumerates i _ there j]
    exact (mem_predecessorPositions there).symm
  rw [compute_eq_ofPredecessors,ofPredecessors,ofPredecessors,
    (climbs_start g).settle_congr (flow_of_listed g.listed_reversePostorder) same]

/-- Of every graph the tree holds the blocks to which a route leads, one is above another exactly if it is on
    every route to it, and the parent of a block other than the entry is its one immediate dominator; the entry
    and the blocks to which no route leads have no parent. Every enumeration of predecessors gives this tree. -/
theorem compute_follows_routes (g : Graph) : (∀ b, (compute g).isReachable b = true ↔ g.Accessible b) ∧
    (∀ a b, (compute g).dominates a b = true ↔ g.Accessible b ∧ g.OnEveryRoute a b) ∧ (∀ b, g.Accessible b → b ≠ g.entry →
      (∃! d, g.ImmediatelyDominates d b) ∧ ∀ d, (compute g).idom? b = some d ↔ g.ImmediatelyDominates d b) ∧
    (∀ b, ¬ g.Accessible b ∨ b = g.entry → (compute g).idom? b = none) ∧
    ∀ preds, Enumerates g g.reversePostorder preds → ofPredecessors g.reversePostorder preds = compute g := by
  refine ⟨fun b => ?_,fun a b => ?_,fun b accessible inner => ?_,fun b => ?_,fun preds => ofPredecessors_eq_compute⟩
  · rw [isReachable_compute,Graph.accessible_iff]
  · rw [dominates_compute_iff,Graph.accessible_iff]
    exact and_congr_right fun visited => (Graph.onEveryRoute_iff visited).symm
  · have visited := Graph.accessible_iff.mp accessible
    obtain ⟨d,found,immediate⟩ := exists_idom? visited inner
    refine ⟨⟨d,immediate,fun e other => immediate.unique visited other⟩,fun e => ⟨fun here => ?_,fun other => ?_⟩⟩
    · exact Option.mem_unique found here ▸ immediate
    · rw [immediate.unique visited other,found]
  · rintro (apart | rfl)
    · exact idom?_unvisited fun visited => apart visited.accessible
    · exact idom?_entry g

/-- A graph with a loop that is entered at two places, edges from a block to itself, back to the entry and to a
    block that does not exist, and a block that nothing leads to. -/
def tangled : Graph where
  blocks := .ofList ([
    { new ⟨0⟩ with terminator := some (.condBranch ⟨0⟩ ⟨1⟩ ⟨2⟩) },
    { new ⟨1⟩ with terminator := some (.branch ⟨2⟩) },
    { new ⟨2⟩ with terminator := some (.condBranch ⟨0⟩ ⟨1⟩ ⟨3⟩) },
    { new ⟨3⟩ with terminator := some (.condBranch ⟨0⟩ ⟨3⟩ ⟨5⟩) },
    { new ⟨4⟩ with terminator := some (.condBranch ⟨0⟩ ⟨3⟩ ⟨0⟩) },
    { new ⟨5⟩ with terminator := some (.condBranch ⟨0⟩ ⟨9⟩ ⟨0⟩) }].map fun b => (b.id, b))
  entry := ⟨0⟩
  nextBlock := 6

theorem tangled_follows_routes : ¬ tangled.Accessible ⟨4⟩ ∧ ¬ tangled.Accessible ⟨9⟩ ∧ ¬ tangled.OnEveryRoute ⟨1⟩ ⟨2⟩ ∧
      tangled.ImmediatelyDominates ⟨0⟩ ⟨1⟩ ∧ tangled.ImmediatelyDominates ⟨0⟩ ⟨2⟩ ∧
      tangled.ImmediatelyDominates ⟨2⟩ ⟨3⟩ ∧ tangled.ImmediatelyDominates ⟨3⟩ ⟨5⟩ := by
  obtain ⟨reachable,dominators,parents,-⟩ := compute_follows_routes tangled
  have inside : ∀ b, (compute tangled).isReachable b = true → b ≠ tangled.entry → ∀ d, (compute tangled).idom? b = some d →
      tangled.ImmediatelyDominates d b :=
    fun b there inner d => ((parents b ((reachable b).mp there) inner).2 d).mp
  refine ⟨fun wrong => absurd ((reachable _).mpr wrong) (by decide +kernel),
    fun wrong => absurd ((reachable _).mpr wrong) (by decide +kernel),fun wrong => ?_,
    inside _ (by decide +kernel) (by decide) _ (by decide +kernel),inside _ (by decide +kernel) (by decide) _ (by decide +kernel),
    inside _ (by decide +kernel) (by decide) _ (by decide +kernel),inside _ (by decide +kernel) (by decide) _ (by decide +kernel)⟩
  exact absurd ((dominators _ _).mpr ⟨(reachable ⟨2⟩).mp (by decide +kernel),wrong⟩) (by decide +kernel)

end DominatorTree

end BlockLowering
