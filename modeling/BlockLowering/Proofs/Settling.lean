import Mathlib.Algebra.GroupWithZero.Nat
import Mathlib.Algebra.Order.BigOperators.Group.List
import Mathlib.Algebra.Order.Group.Nat
import BlockLowering.Proofs.Dominance
/-!
The passes over the dominator tree settle. A pass moves every position to the place where its
predecessors meet. From the second pass on parents only move up, so that some pass changes nothing; then
the ancestors of a block are the blocks on every path to it.
-/
namespace BlockLowering
open List Option Nat

namespace DominatorTree

section
variable {preds : Nat → List Nat} {size : Nat} {dominates : Nat → Nat → Prop} {parents : Array (Option Nat)} {a b d i j n : Nat}
variable {fuel m : Nat}

/-! ### One pass -/

theorem getElem?_improve (other : j ≠ i) : (improve preds parents i)[j]? = parents[j]? := by
  unfold improve
  split
  · rfl
  · rw [Array.getElem?_setIfInBounds,if_neg (Ne.symm other)]

theorem getElem?_passUpTo_later (later : n < j) : (passUpTo preds n parents)[j]? = parents[j]? := by
  induction n with
  | zero => rfl
  | succ n ih => rw [passUpTo_succ,getElem?_improve (by omega),ih (by omega)]

theorem getElem?_passUpTo_stable (done : j ≤ n) (le : n ≤ m) : (passUpTo preds m parents)[j]? = (passUpTo preds n parents)[j]? := by
  induction m with
  | zero =>
    obtain rfl : n = 0 := by omega
    rfl
  | succ m ih =>
    by_cases last : n = m + 1
    · rw [last]
    · rw [passUpTo_succ,getElem?_improve (by omega),ih (by omega)]

/-- What is strictly above a position is above its earlier predecessors. -/
def Forward (preds : Nat → List Nat) (size : Nat) (parents : Array (Option Nat)) : Prop :=
  ∀ {i j d}, i < size → j ∈ preds i → j < i → d ≠ i → Above parents d i → Above parents d j

variable (flow : Flow preds size dominates) (climbs : Climbs size dominates parents)
include climbs

theorem Climbs.pass_eq : DominatorTree.pass preds parents = DominatorTree.passUpTo preds (size - 1) parents := by
  rw [DominatorTree.pass,climbs.size]
  rfl

theorem Climbs.getElem?_pass (bound : n < size) (done : j ≤ n) :
    (DominatorTree.pass preds parents)[j]? = (DominatorTree.passUpTo preds n parents)[j]? := by
  rw [climbs.pass_eq]
  exact getElem?_passUpTo_stable done (by omega)

include flow

theorem Climbs.above_passUpTo (bound : n < size) (done : j ≤ n) :
    Above (DominatorTree.passUpTo preds n parents) d j ↔ Above (DominatorTree.pass preds parents) d j := by
  have same : ∀ x, x ≤ j → (DominatorTree.pass preds parents)[x]? = (DominatorTree.passUpTo preds n parents)[x]? :=
    fun x le => climbs.getElem?_pass bound (by omega)
  exact ⟨fun above => above.congr (climbs.passUpTo flow bound).1 same,
    fun above => above.congr (climbs.pass flow).1 fun x le => (same x le).symm⟩

theorem Climbs.above_pass (bound : n + 1 < size) (other : d ≠ n + 1) :
    Above (DominatorTree.pass preds parents) d (n + 1) ↔ ∀ j ∈ preds (n + 1),
      HasParent (DominatorTree.passUpTo preds n parents) j → Above (DominatorTree.passUpTo preds n parents) d j := by
  obtain ⟨good,has,-⟩ := climbs.passUpTo flow (n := n) (by omega)
  obtain ⟨j,inside,less⟩ := flow.earlier (succ_pos n) bound
  obtain ⟨m,merged,-,le,-⟩ := good.mergedParent? flow inside (has j (by omega))
  have found : (DominatorTree.pass preds parents)[n + 1]? = some (some m) := by
    rw [climbs.getElem?_pass bound (le_refl _),passUpTo_succ,DominatorTree.improve,merged,
      Array.getElem?_setIfInBounds,if_pos rfl,if_pos (good.size ▸ bound)]
  rw [← (good.above_mergedParent? merged).2 d,climbs.above_passUpTo flow (n := n) (by omega) (by omega)]
  exact ⟨fun above => above.parent found other,fun above => .up found (succ_pos n) above⟩

theorem Climbs.forward : Forward preds size (DominatorTree.pass preds parents) := by
  intro i j d bound inside less other above
  obtain ⟨n,rfl⟩ : ∃ n, i = n + 1 := ⟨i - 1,by omega⟩
  obtain ⟨-,has,-⟩ := climbs.passUpTo flow (n := n) (by omega)
  have before := (climbs.above_pass flow bound other).mp above j inside (has j (by omega))
  exact (climbs.above_passUpTo flow (by omega) (by omega)).mp before

/-! ### Parents move up -/

omit flow climbs

/-- The first position up to a number on the way up from a later one. -/
def Crosses (parents : Array (Option Nat)) (n j u : Nat) : Prop :=
  u ≤ n ∧ ∃ v, n < v ∧ Above parents v j ∧ parents[v]? = some (some u)

theorem Climbs.exists_crosses (climbs : Climbs size dominates parents) (all : ∀ i, i < size → HasParent parents i)
    (later : n < j) (bound : j < size) : ∃ u, Crosses parents n j u := by
  induction j using Nat.strongRecOn with
  | ind j ih =>
    obtain ⟨parent,found⟩ := all j bound
    have less := (climbs.parent found (by omega)).1
    by_cases crossed : parent ≤ n
    · exact ⟨parent,crossed,j,later,.refl,found⟩
    · obtain ⟨u,le,v,above,below,found'⟩ := ih parent less (by omega) (by omega)
      exact ⟨u,le,v,above,.up found (by omega) below,found'⟩

theorem Crosses.above {u w : Nat} (climbs : Climbs size dominates parents) (crosses : Crosses parents n j w)
    (above : Above parents u j) (le : u ≤ n) : Above parents u w := by
  obtain ⟨-,v,later,below,found⟩ := crosses
  exact (above.chain climbs below (by omega)).parent found (by omega)

theorem Climbs.above_passUpTo_later (flow : Flow preds size dominates) (climbs : Climbs size dominates parents) (bound : n < size)
    (later : n < j) : Above (DominatorTree.passUpTo preds n parents) d j ↔
      (n < d ∧ Above parents d j) ∨ ∃ u, Crosses parents n j u ∧ Above (DominatorTree.pass preds parents) d u := by
  constructor
  · intro above
    induction above with
    | refl => exact .inl ⟨later,.refl⟩
    | @up i parent found inner above ih =>
      rw [getElem?_passUpTo_later later] at found
      by_cases crossed : parent ≤ n
      · exact .inr ⟨parent,⟨crossed,i,later,.refl,found⟩,(climbs.above_passUpTo flow bound crossed).mp above⟩
      · rcases ih (by omega) with ⟨large,further⟩ | ⟨u,⟨le,v,large,below,found'⟩,further⟩
        · exact .inl ⟨large,.up found inner further⟩
        · exact .inr ⟨u,⟨le,v,large,.up found inner below,found'⟩,further⟩
  · have kept : ∀ {v}, n < v → Above parents v j → Above (DominatorTree.passUpTo preds n parents) v j := by
      intro v large above
      induction above with
      | refl => exact .refl
      | up found inner above ih =>
        have le := above.le climbs
        exact .up (by rw [getElem?_passUpTo_later later,found]) inner (ih (by omega))
    rintro (⟨large,above⟩ | ⟨u,⟨le,v,large,below,found⟩,above⟩)
    · exact kept large above
    · have further : Above (DominatorTree.passUpTo preds n parents) d v :=
        .up (by rw [getElem?_passUpTo_later large,found]) (by omega) ((climbs.above_passUpTo flow bound le).mpr above)
      exact further.trans (kept large below)

theorem Forward.above {before after : Array (Option Nat)} {u w z : Nat} (flow : Flow preds size dominates)
    (climbs : Climbs size dominates before) (forward : Forward preds size before) (forward' : Forward preds size after)
    (bound : z < size) (old : Above before w z) (new : Above after u z) (le : u ≤ w) : Above after u w := by
  induction z using Nat.strongRecOn with
  | ind z ih =>
    by_cases same : w = z
    · exact same ▸ new
    · have below := old.le climbs
      obtain ⟨f,inside,less⟩ := flow.earlier (i := z) (by omega) bound
      exact ih f less (by omega) (forward bound inside less same old) (forward' bound inside less (by omega) new)

/-- Every ancestor after is an ancestor before. -/
def Shrinks (size : Nat) (before after : Array (Option Nat)) : Prop :=
  ∀ {d x}, x < size → Above after d x → Above before d x

theorem Climbs.shrinks_pass (flow : Flow preds size dominates) (climbs : Climbs size dominates parents)
    (cross : ∀ {n d j}, n < size → n < j → HasParent parents j →
      (∀ {d x}, x ≤ n → Above (DominatorTree.pass preds (DominatorTree.pass preds parents)) d x →
        Above (DominatorTree.pass preds parents) d x) → Above (DominatorTree.passUpTo preds n (DominatorTree.pass preds parents)) d j →
      Above (DominatorTree.passUpTo preds n parents) d j) :
    Shrinks size (DominatorTree.pass preds parents) (DominatorTree.pass preds (DominatorTree.pass preds parents)) := by
  obtain ⟨climbs',all⟩ := climbs.pass flow
  intro d x bound above
  induction x using Nat.strongRecOn generalizing d with
  | ind x ih =>
    by_cases same : d = x
    · exact same ▸ .refl
    · cases x with
      | zero =>
        have := above.le (climbs'.pass flow).1
        omega
      | succ n =>
        rw [climbs'.above_pass flow bound same] at above
        rw [climbs.above_pass flow bound same]
        obtain ⟨good,has,kept⟩ := climbs.passUpTo flow (n := n) (by omega)
        obtain ⟨-,has',kept'⟩ := climbs'.passUpTo flow (n := n) (by omega)
        intro j inside parent
        have above := above j inside (kept' (all j (parent.lt good)))
        by_cases done : j ≤ n
        · rw [climbs'.above_passUpTo flow (by omega) done] at above
          rw [climbs.above_passUpTo flow (by omega) done]
          exact ih j (by omega) (by omega) above
        · refine cross (by omega) (by omega) ?_ (fun le => ih _ (by omega) (by omega)) above
          obtain ⟨parent,found⟩ := parent
          exact ⟨parent,by rwa [getElem?_passUpTo_later (by omega)] at found⟩

/-- Every position has a parent, and a further pass moves parents only up. -/
structure Settling (preds : Nat → List Nat) (size : Nat) (dominates : Nat → Nat → Prop) (parents : Array (Option Nat)) : Prop where
  climbs : Climbs size dominates parents
  all : ∀ i, i < size → HasParent parents i
  forward : Forward preds size parents
  shrinks : Shrinks size parents (pass preds parents)

theorem Settling.pass (flow : Flow preds size dominates) (settling : Settling preds size dominates parents) :
    Settling preds size dominates (DominatorTree.pass preds parents) := by
  obtain ⟨climbs,all,forward,shrinks⟩ := settling
  obtain ⟨climbs',all'⟩ := climbs.pass flow
  refine ⟨climbs',all',climbs.forward flow,climbs.shrinks_pass flow ?_⟩
  intro n d j bound later parent done above
  have less := parent.lt climbs
  rw [climbs'.above_passUpTo_later flow bound later] at above
  rw [climbs.above_passUpTo_later flow bound later]
  rcases above with ⟨large,above⟩ | ⟨u,crosses,above⟩
  · exact .inl ⟨large,shrinks less above⟩
  · -- Before the pass the way up crossed at `w`, which the new crossing `u` is above.
    obtain ⟨le,v,large,below,found⟩ := crosses
    have new : Above (DominatorTree.pass preds parents) u j := (Above.up found (by omega) .refl).trans below
    obtain ⟨w,crossed⟩ := climbs.exists_crosses all later less
    have old : Above parents w j := by
      obtain ⟨-,v,large,below,found⟩ := crossed
      exact (Above.up found (by omega) .refl).trans below
    have between : u ≤ w := (crossed.above climbs (shrinks less new) le).le climbs
    have further := forward.above flow climbs (climbs.forward flow) less old new between
    exact .inr ⟨w,crossed,(done le above).trans further⟩

theorem Climbs.settling (flow : Flow preds size dominates) (climbs : Climbs size dominates parents)
    (bare : ∀ i, 0 < i → ¬ HasParent parents i) : Settling preds size dominates (DominatorTree.pass preds parents) where
  climbs := (climbs.pass flow).1
  all := (climbs.pass flow).2
  forward := climbs.forward flow
  shrinks := climbs.shrinks_pass flow fun _ later has => absurd has (bare _ (by omega))

/-! ### The last pass -/

/-- How far the parents are from the root, all together. -/
def depth (size : Nat) (parents : Array (Option Nat)) : Nat := ((range size).map (parentOf parents)).sum

theorem Settling.parentOf_pass_le (settling : Settling preds size dominates parents) (flow : Flow preds size dominates)
    (bound : i < size) : DominatorTree.parentOf (DominatorTree.pass preds parents) i ≤ DominatorTree.parentOf parents i := by
  obtain ⟨climbs',all'⟩ := settling.climbs.pass flow
  obtain ⟨q,new⟩ := all' i bound
  obtain ⟨p,old⟩ := settling.all i bound
  have newParent : DominatorTree.parentOf (DominatorTree.pass preds parents) i = q := by simp [DominatorTree.parentOf,new]
  have oldParent : parentOf parents i = p := by simp [parentOf,old]
  rw [newParent,oldParent]
  by_cases first : i = 0
  · subst first
    rw [climbs'.root] at new
    cases (some.inj new)
    exact zero_le _
  · have less := (climbs'.parent new (by omega)).1
    have above := settling.shrinks bound (.up new (by omega) .refl)
    exact (above.parent old (by omega)).le settling.climbs

theorem Settling.depth_pass_lt (settling : Settling preds size dominates parents) (flow : Flow preds size dominates)
    (changed : DominatorTree.pass preds parents ≠ parents) : depth size (DominatorTree.pass preds parents) < depth size parents := by
  obtain ⟨climbs',all'⟩ := settling.climbs.pass flow
  have some_lt : ∃ i, i < size ∧
      DominatorTree.parentOf (DominatorTree.pass preds parents) i < DominatorTree.parentOf parents i := by
    by_contra none
    apply changed
    refine Array.ext (climbs'.size.trans settling.climbs.size.symm) fun i bound bound' => ?_
    have inside : i < size := settling.climbs.size ▸ bound'
    obtain ⟨q,new⟩ := all' i inside
    obtain ⟨p,old⟩ := settling.all i inside
    have le := settling.parentOf_pass_le flow inside
    have ge : ¬ DominatorTree.parentOf (DominatorTree.pass preds parents) i < DominatorTree.parentOf parents i :=
      fun less => none ⟨i,inside,less⟩
    simp only [DominatorTree.parentOf,new,old,join_some,getD_some] at le ge
    obtain rfl : q = p := by omega
    exact mem_unique (Array.getElem?_eq_getElem bound) (new.trans (old.symm.trans
      (Array.getElem?_eq_getElem bound')))
  obtain ⟨i,inside,less⟩ := some_lt
  refine sum_lt_sum _ _ (fun x member => settling.parentOf_pass_le flow (mem_range.mp member)) ⟨i,?_,less⟩
  exact mem_range.mpr inside

theorem Settling.settle (flow : Flow preds size dominates) (settling : Settling preds size dominates parents)
    (enough : depth size parents < fuel) : Settling preds size dominates (settle preds fuel parents) ∧
      DominatorTree.pass preds (DominatorTree.settle preds fuel parents) = DominatorTree.settle preds fuel parents := by
  induction fuel generalizing parents with
  | zero => omega
  | succ fuel ih =>
    unfold settle
    dsimp only
    split
    · rename_i same
      exact ⟨settling,same⟩
    · rename_i changed
      have less := settling.depth_pass_lt flow changed
      exact ih (settling.pass flow) (by omega)

theorem Settling.depth_le (settling : Settling preds size dominates parents) : depth size parents ≤ size * size := by
  have bound : ∀ x ∈ (range size).map (parentOf parents), x ≤ size := by
    intro x inside
    obtain ⟨i,member,rfl⟩ := mem_map.mp inside
    have less := mem_range.mp member
    obtain ⟨parent,found⟩ := settling.all i less
    have here : parentOf parents i = parent := by simp [parentOf,found]
    by_cases first : i = 0
    · subst first
      rw [settling.climbs.root] at found
      cases (some.inj found)
      omega
    · have := (settling.climbs.parent found (by omega)).1
      omega
  have total := sum_le_card_nsmul _ size bound
  simpa [depth] using total

/-- When a pass changes nothing, the strict ancestors of a position are the common ancestors of its
    predecessors. -/
theorem Settling.above_iff (flow : Flow preds size dominates) (settling : Settling preds size dominates parents)
    (fixed : DominatorTree.pass preds parents = parents) (inner : 0 < i) (bound : i < size) (other : d ≠ i) :
    Above parents d i ↔ ∀ j ∈ preds i, j < size → Above parents d j := by
  obtain ⟨n,rfl⟩ : ∃ n, i = n + 1 := ⟨i - 1,by omega⟩
  have climbs := settling.climbs
  have middle : DominatorTree.passUpTo preds n parents = parents := by
    refine Array.ext_getElem? fun x => ?_
    by_cases done : x ≤ n
    · rw [← climbs.getElem?_pass (by omega) done,fixed]
    · exact getElem?_passUpTo_later (by omega)
  have above := climbs.above_pass flow bound other
  rw [fixed,middle] at above
  rw [above]
  exact forall₂_congr fun j _ => ⟨fun has less => has (settling.all j less),fun has parent => has (parent.lt climbs)⟩

end

/-! ### The tree of a graph -/

variable {g : Graph} {a b d : BlockId}

/-- One block comes at a position, another at a second one, and the first is on every path to the second. -/
abbrev DominatesAt (g : Graph) (d i : Nat) : Prop :=
  ∃ x y, g.reversePostorder[d]? = some x ∧ g.reversePostorder[i]? = some y ∧ g.Dominates x y

abbrev predsOf (g : Graph) (i : Nat) : List Nat := (predecessorPositions g g.reversePostorder).getD i []

theorem settling_compute (g : Graph) : Settling (predsOf g) g.reversePostorder.length (DominatesAt g) (compute g).parents ∧
      pass (predsOf g) (compute g).parents = (compute g).parents := by
  have flow := flow_of_listed g.listed_reversePostorder
  have start := climbs_start g
  have bare : ∀ i, 0 < i → ¬ HasParent (some 0 :: replicate (g.reversePostorder.length - 1) none).toArray i := by
    rintro i inner ⟨parent,found⟩
    obtain ⟨n,rfl⟩ : ∃ n, i = n + 1 := ⟨i - 1,by omega⟩
    simp [getElem?_replicate] at found
  have settling := start.settling flow bare
  unfold compute
  unfold settle
  dsimp only
  split
  · rename_i same
    exact ⟨same ▸ settling,same⟩
  · have bound := settling.depth_le
    exact settling.settle flow (by omega)

/-- An ancestor in the tree lies on every path. -/
theorem dominates_of_above {i j : Nat} (atI : g.reversePostorder[i]? = some d) (atJ : g.reversePostorder[j]? = some b)
    (above : Above (compute g).parents i j) : g.Dominates d b := by
  have listed := g.listed_reversePostorder
  have flow := flow_of_listed listed
  obtain ⟨settling,fixed⟩ := settling_compute g
  intro avoids
  induction avoids generalizing j with
  | entry other =>
    have first := (List.getElem?_inj (List.getElem?_eq_some_iff.mp atJ).1 listed.distinct).mp (atJ.trans listed.head.symm)
    have le := above.le settling.climbs
    obtain rfl : i = 0 := by omega
    exact other (mem_unique listed.head atI)
  | @step a x before edge other ih =>
    obtain ⟨k,-,atK⟩ := position?_of_listed listed (before.reached.visited edge)
    have strict : i ≠ j := fun same => other (mem_unique atJ (same ▸ atI))
    have bound := (List.getElem?_eq_some_iff.mp atJ).1
    have inner : 0 < j := by
      have le := above.le settling.climbs
      omega
    have inside : k ∈ predsOf g j := (mem_predecessorPositions atJ).mpr ⟨a,atK,edge⟩
    exact ih atK ((settling.above_iff flow fixed inner bound strict).mp above k inside (List.getElem?_eq_some_iff.mp atK).1)

/-- The tree tells for every block that is visited which blocks lie on every path to it. -/
theorem dominates_compute_iff : (compute g).dominates d b = true ↔ g.Visited b ∧ g.Dominates d b := by
  refine ⟨fun found => ?_,fun ⟨visited,dominates⟩ => dominates_compute visited dominates⟩
  have listed := g.listed_reversePostorder
  obtain ⟨settling,-⟩ := settling_compute g
  unfold dominates position? at found
  split at found
  · rename_i i j positionI positionJ
    obtain ⟨boundI,atI,-⟩ := idxOf?_eq_some_iff.mp positionI
    obtain ⟨boundJ,atJ,-⟩ := idxOf?_eq_some_iff.mp positionJ
    have atJ : g.reversePostorder[j]? = some b := List.getElem?_eq_some_iff.mpr ⟨boundJ,atJ⟩
    refine ⟨(listed.mem b).mp (mem_of_getElem? atJ),?_⟩
    refine dominates_of_above (List.getElem?_eq_some_iff.mpr ⟨boundI,atI⟩) atJ ?_
    exact (isAncestor_iff settling.climbs (settling.all j boundJ) (le_refl j)).mp found
  · cases found

end DominatorTree

end BlockLowering
