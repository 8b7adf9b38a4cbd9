import BlockLowering.Graph.Dominators
import BlockLowering.Proofs.Reachability
/-!
Dominance. A block dominates another if every path from the entry to that one passes it. The reverse
postorder lists the reached blocks, each after one of its predecessors, so that dominators come first;
climbing the tree therefore meets every dominator, however many passes were made.
-/
namespace BlockLowering
open List DominatorTree Table

namespace Graph
variable {g : Graph} {a b d x : BlockId}

/-- A path leads from the entry to a block without passing another one. -/
inductive Avoiding (g : Graph) (d : BlockId) : BlockId → Prop
  | entry : g.entry ≠ d → Avoiding g d g.entry
  | step {a x : BlockId} : Avoiding g d a → x ∈ g.successors a → x ≠ d → Avoiding g d x

/-- Every path from the entry to a block passes another one. -/
def Dominates (g : Graph) (d b : BlockId) : Prop := ¬ g.Avoiding d b

theorem Avoiding.ne (avoids : g.Avoiding d b) : b ≠ d := by
  cases avoids with
  | entry other => exact other
  | step _ _ other => exact other

theorem Dominates.refl (g : Graph) (b : BlockId) : g.Dominates b b := fun avoids => avoids.ne rfl

theorem dominates_entry (g : Graph) (b : BlockId) : g.Dominates g.entry b := by
  intro avoids
  induction avoids with
  | entry other => exact other rfl
  | step _ _ _ ih => exact ih

theorem Dominates.pred (dominates : g.Dominates d b) (strict : b ≠ d) (edge : b ∈ g.successors a) : g.Dominates d a :=
  fun avoids => dominates (.step avoids edge strict)

theorem Avoiding.reached (avoids : g.Avoiding d b) : g.Reached b := by
  induction avoids with
  | entry => exact .entry
  | step _ edge _ ih => exact .step ih edge

theorem Reached.visited_block {k : Block} (reached : g.Reached b) (found : g.block? b = some k) : g.Visited b :=
  ⟨reached,.inr (contains_iff.mpr ⟨k,found⟩)⟩

theorem Reached.entry_exists (reached : g.Reached b) (exist : g.hasBlock b = true) : g.hasBlock g.entry = true := by
  induction reached with
  | entry => exact exist
  | step _ edge ih => exact ih (hasBlock_of_edge edge)

/-- A block that is entered only past another one, or from blocks of which the same holds, is dominated
    by that one. -/
theorem dominates_of_closed (within : BlockId → Prop) (entry : ¬ within g.entry)
    (closed : ∀ {a x}, g.Reached a → x ∈ g.successors a → within x → x = d ∨ within a ∨ a = d) (inside : within b) : g.Dominates d b := by
  intro avoids
  induction avoids with
  | entry => exact entry inside
  | step before edge other ih =>
    rcases closed before.reached edge inside with same | before' | same
    · exact other same
    · exact ih before'
    · exact before.ne same

/-- Every block that is reached exists. -/
def Whole (g : Graph) : Prop := ∀ b, g.Reached b → g.hasBlock b = true

theorem Wired.whole (wired : Wired g) : g.Whole := by
  intro b reached
  cases reached with
  | entry =>
    obtain ⟨k,found,-⟩ := wired.entry
    exact contains_iff.mpr ⟨k,found⟩
  | @step a _ _ edge =>
    obtain ⟨k,found,edge⟩ := exists_block_of_edge edge
    obtain ⟨-,k',there,-⟩ := wired.targets found edge
    exact contains_iff.mpr ⟨k',there⟩

theorem Whole.visited (whole : g.Whole) (reached : g.Reached b) : g.Visited b := ⟨reached,.inr (whole b reached)⟩

theorem Listed.le {order : List BlockId} (listed : g.Listed order) {i : Nat} (there : order[i]? = some b)
    (dominates : g.Dominates d b) : ∃ j, j ≤ i ∧ order[j]? = some d := by
  induction i using Nat.strongRecOn generalizing b with
  | ind i ih =>
    by_cases same : b = d
    · exact ⟨i,Nat.le_refl _,same ▸ there⟩
    · by_cases first : b = g.entry
      · subst first
        exact absurd (Avoiding.entry same) dominates
      · obtain ⟨j,less,a,found,edge⟩ := listed.ordered there first
        obtain ⟨k,bound',found'⟩ := ih j less found (dominates.pred same edge)
        exact ⟨k,by omega,found'⟩

end Graph

/-! ### The tree -/

namespace DominatorTree

/-- Positions with their predecessors and a relation of dominance between them: what dominates a position
    strictly dominates its predecessors, and every position but the first has a predecessor before it. -/
structure Flow (preds : Nat → List Nat) (size : Nat) (dominates : Nat → Nat → Prop) : Prop where
  pred : ∀ {d i j}, dominates d i → d ≠ i → j ∈ preds i → dominates d j
  le : ∀ {d i}, dominates d i → d ≤ i
  earlier : ∀ {i}, 0 < i → i < size → ∃ j ∈ preds i, j < i

def HasParent (parents : Array (Option Nat)) (i : Nat) : Prop := ∃ parent, parents[i]? = some (some parent)

/-- Parents come first, have parents and are dominated by what dominates their children strictly. -/
structure Climbs (size : Nat) (dominates : Nat → Nat → Prop) (parents : Array (Option Nat)) : Prop where
  size : parents.size = size
  root : parents[0]? = some (some 0)
  parent : ∀ {i parent}, parents[i]? = some (some parent) → 0 < i →
    parent < i ∧ HasParent parents parent ∧ ∀ {d}, dominates d i → d ≠ i → dominates d parent

section
variable {preds : Nat → List Nat} {size : Nat} {dominates : Nat → Nat → Prop} {parents : Array (Option Nat)}
variable {a b d i j m fuel : Nat} {ps : List Nat}

theorem Climbs.parentOf (climbs : Climbs size dominates parents) (has : HasParent parents i) (inner : 0 < i) :
    parentOf parents i < i ∧ HasParent parents (parentOf parents i) ∧
      ∀ {d}, dominates d i → d ≠ i → dominates d (parentOf parents i) := by
  obtain ⟨parent,found⟩ := has
  have same : DominatorTree.parentOf parents i = parent := by simp [DominatorTree.parentOf,found]
  rw [same]
  exact climbs.parent found inner

theorem Climbs.positive (climbs : Climbs size dominates parents) : 0 < size := by
  rw [← climbs.size]
  exact (getElem?_eq_some_iff.mp climbs.root).1

/-- One position is another or an ancestor of it. -/
inductive Above (parents : Array (Option Nat)) (a : Nat) : Nat → Prop
  | refl : Above parents a a
  | up {i parent : Nat} : parents[i]? = some (some parent) → 0 < i → Above parents a parent → Above parents a i

/-! ### Ancestors -/

theorem Above.trans (first : Above parents a b) (second : Above parents b i) : Above parents a i := by
  induction second with
  | refl => exact first
  | up found inner _ ih => exact .up found inner ih

theorem Above.le (climbs : Climbs size dominates parents) (above : Above parents a i) : a ≤ i := by
  induction above with
  | refl => exact Nat.le_refl _
  | up found inner _ ih =>
    have less := (climbs.parent found inner).1
    omega

theorem Above.parent {parent : Nat} (above : Above parents a i) (found : parents[i]? = some (some parent)) (strict : a ≠ i) :
    Above parents a parent := by
  cases above with
  | refl => exact absurd rfl strict
  | up found' _ further =>
    rw [found'] at found
    exact Option.some.inj (Option.some.inj found) ▸ further

section
variable (climbs : Climbs size dominates parents)
include climbs

theorem Above.chain (first : Above parents a i) (second : Above parents b i) (le : a ≤ b) : Above parents a b := by
  induction second with
  | refl => exact first
  | up found inner above ih =>
    have below := above.le climbs
    have less := (climbs.parent found inner).1
    exact ih (first.parent found (by omega))

theorem Above.congr {others : Array (Option Nat)} (above : Above parents a i)
    (same : ∀ x, x ≤ i → others[x]? = parents[x]?) : Above others a i := by
  induction above with
  | refl => exact .refl
  | @up i parent found inner _ ih =>
    have less := (climbs.parent found inner).1
    refine .up ?_ inner (ih fun x le => same x (by omega))
    rw [same i (Nat.le_refl i),found]

theorem HasParent.lt (has : HasParent parents i) : i < size := by
  obtain ⟨parent,found⟩ := has
  rw [← climbs.size]
  exact (getElem?_eq_some_iff.mp found).1

theorem isAncestor_iff (has : HasParent parents i) (enough : i ≤ fuel) : isAncestor parents fuel a i = true ↔ Above parents a i := by
  induction fuel generalizing i with
  | zero =>
    obtain rfl : i = 0 := by omega
    rw [isAncestor,beq_iff_eq]
    refine ⟨fun same => same ▸ .refl,fun above => ?_⟩
    have := above.le climbs
    omega
  | succ fuel ih =>
    rw [isAncestor,Bool.or_eq_true,Bool.and_eq_true,beq_iff_eq,bne_iff_ne]
    by_cases first : i = 0
    · subst first
      refine ⟨fun same => ?_,fun above => ?_⟩
      · rw [same.resolve_right fun wrong => wrong.1 rfl]
        exact .refl
      · have := above.le climbs
        omega
    · obtain ⟨less,hasParent,-⟩ := climbs.parentOf has (by omega)
      obtain ⟨parent,found⟩ := has
      have here : parentOf parents i = parent := by simp [parentOf,found]
      rw [here] at less hasParent ⊢
      rw [ih hasParent (by omega)]
      constructor
      · rintro (rfl | ⟨-,above⟩)
        · exact .refl
        · exact .up found (by omega) above
      · intro above
        by_cases same : a = i
        · exact .inl same
        · exact .inr ⟨first,above.parent found same⟩

theorem Climbs.between (above : Above parents m i) (dominated : dominates d i) (le : d ≤ m) : dominates d m := by
  induction above with
  | refl => exact dominated
  | up found inner further ih =>
    obtain ⟨less,-,meet⟩ := climbs.parent found inner
    have := further.le climbs
    exact ih (meet dominated (by omega))

/-! ### Where positions meet -/

theorem Climbs.above_commonAncestor (hasA : HasParent parents a) (hasB : HasParent parents b) (enough : a + b < fuel) :
    HasParent parents (commonAncestor parents fuel a b) ∧
      ∀ d, Above parents d (commonAncestor parents fuel a b) ↔ Above parents d a ∧ Above parents d b := by
  -- The later of two positions is no ancestor of the other, so its parent has the same common ancestors.
  have step : ∀ {x y}, HasParent parents x → y < x → ∀ d,
      Above parents d (DominatorTree.parentOf parents x) ∧ Above parents d y ↔ Above parents d x ∧ Above parents d y := by
    rintro x y ⟨parent,found⟩ less d
    have here : DominatorTree.parentOf parents x = parent := by simp [DominatorTree.parentOf,found]
    rw [here]
    refine ⟨fun both => ⟨.up found (by omega) both.1,both.2⟩,fun both => ⟨both.1.parent found ?_,both.2⟩⟩
    have := both.2.le climbs
    omega
  fun_induction commonAncestor parents fuel a b with
  | case1 => omega
  | case2 fuel a => exact ⟨hasA,fun d => by rw [and_self]⟩
  | case3 fuel a b other less ih =>
    obtain ⟨before,has,-⟩ := climbs.parentOf hasA (by omega)
    obtain ⟨hasMeet,meet⟩ := ih has hasB (by omega)
    exact ⟨hasMeet,fun d => (meet d).trans (step hasA less d)⟩
  | case4 fuel a b other less ih =>
    obtain ⟨before,has,-⟩ := climbs.parentOf hasB (by omega)
    obtain ⟨hasMeet,meet⟩ := ih hasA has (by omega)
    refine ⟨hasMeet,fun d => ?_⟩
    rw [meet d,and_comm,step hasB (by omega) d,and_comm]

theorem Climbs.above_foldl {todo : List Nat} {q : Nat} (has : ∀ p ∈ todo, HasParent parents p) (first : HasParent parents q)
    (found : todo.foldl (fun found p => some (match found with
      | none => p
      | some q => commonAncestor parents (p + q + 1) p q)) (some q) = some m) :
    HasParent parents m ∧ ∀ d, Above parents d m ↔ Above parents d q ∧ ∀ p ∈ todo, Above parents d p := by
  induction todo generalizing q with
  | nil =>
    cases found
    exact ⟨first,fun d => by simp⟩
  | cons p rest ih =>
    obtain ⟨hasFirst,hasRest⟩ := forall_mem_cons.mp has
    obtain ⟨hasMeet,meet⟩ := climbs.above_commonAncestor hasFirst first (Nat.lt_succ_self (p + q))
    obtain ⟨hasLast,all⟩ := ih hasRest hasMeet found
    refine ⟨hasLast,fun d => ?_⟩
    rw [all d,meet d,forall_mem_cons,and_assoc,and_left_comm]

theorem Climbs.above_mergedParent? (found : mergedParent? parents ps = some m) :
    HasParent parents m ∧ ∀ d, Above parents d m ↔ ∀ p ∈ ps, HasParent parents p → Above parents d p := by
  have mem : ∀ p, p ∈ (ps.filter fun p => (parents[p]?.join).isSome) ↔ p ∈ ps ∧ HasParent parents p := by
    intro p
    rw [mem_filter,Option.isSome_iff_exists]
    simp only [Option.join_eq_some_iff,HasParent]
  unfold mergedParent? at found
  have all : ∀ P : Nat → Prop, (∀ p ∈ ps.filter fun p => (parents[p]?.join).isSome, P p) ↔
      ∀ p ∈ ps, HasParent parents p → P p := fun P => by simp only [mem,and_imp]
  simp only [← all]
  cases listed : ps.filter fun p => (parents[p]?.join).isSome with
  | nil =>
    rw [listed] at found
    cases found
  | cons p rest =>
    have has : ∀ x ∈ p :: rest, HasParent parents x := fun x inside => ((mem x).mp (listed ▸ inside)).2
    rw [listed] at found
    obtain ⟨hasFirst,hasRest⟩ := forall_mem_cons.mp has
    simp only [forall_mem_cons]
    exact climbs.above_foldl hasRest hasFirst found

end

theorem foldl_commonAncestor_ne_none (todo : List Nat) (q : Nat) : todo.foldl (fun found p => some (match found with
    | none => p
    | some q => commonAncestor parents (p + q + 1) p q)) (some q) ≠ none := by
  induction todo generalizing q with
  | nil => exact Option.some_ne_none q
  | cons p rest ih => exact ih _

theorem mergedParent?_eq_none_iff {ps : List Nat} : mergedParent? parents ps = none ↔ ∀ p ∈ ps, ¬ HasParent parents p := by
  have empty_iff : (ps.filter fun p => (parents[p]?.join).isSome) = [] ↔ ∀ p ∈ ps, ¬ HasParent parents p := by
    simp only [filter_eq_nil_iff,Option.isSome_iff_exists,Option.join_eq_some_iff,HasParent]
  rw [← empty_iff,mergedParent?]
  cases ps.filter fun p => (parents[p]?.join).isSome with
  | nil => exact iff_of_true rfl rfl
  | cons p rest => exact iff_of_false (foldl_commonAncestor_ne_none rest p) (cons_ne_nil p rest)

/-! ### Passes -/

def passUpTo (preds : Nat → List Nat) (n : Nat) (parents : Array (Option Nat)) : Array (Option Nat) :=
  (range' 1 n).foldl (improve preds) parents

theorem passUpTo_succ (n : Nat) : passUpTo preds (n + 1) parents = improve preds (passUpTo preds n parents) (n + 1) := by
  rw [passUpTo,range'_1_concat,foldl_append,Nat.add_comm 1 n]
  rfl

variable (flow : Flow preds size dominates) (climbs : Climbs size dominates parents)
include flow climbs

theorem Climbs.above (has : HasParent parents i) (dominated : dominates d i) : Above parents d i := by
  induction i using Nat.strongRecOn with
  | ind i ih =>
    have le := flow.le dominated
    by_cases same : d = i
    · exact same ▸ .refl
    · obtain ⟨parent,found⟩ := has
      obtain ⟨less,has,meet⟩ := climbs.parent found (by omega)
      exact .up found (by omega) (ih parent less has (meet dominated same))

theorem Climbs.mergedParent? (inside : j ∈ ps) (has : HasParent parents j) :
    ∃ m, DominatorTree.mergedParent? parents ps = some m ∧ HasParent parents m ∧ m ≤ j ∧
      ∀ {d}, (∀ p ∈ ps, dominates d p) → dominates d m := by
  cases found : DominatorTree.mergedParent? parents ps with
  | none => exact absurd has (mergedParent?_eq_none_iff.mp found j inside)
  | some m =>
    obtain ⟨hasMeet,meet⟩ := climbs.above_mergedParent? found
    have above := (meet m).mp .refl j inside has
    refine ⟨m,rfl,hasMeet,above.le climbs,fun {d} all => climbs.between above (all j inside) ?_⟩
    exact ((meet d).mpr fun p listed has => climbs.above flow has (all p listed)).le climbs

theorem Climbs.improve (inner : 0 < i) (bound : i < size) (before : ∀ j, j < i → HasParent parents j) :
    Climbs size dominates (improve preds parents i) ∧ HasParent (improve preds parents i) i ∧
      ∀ {j}, HasParent parents j → HasParent (improve preds parents i) j := by
  obtain ⟨j,inside,less⟩ := flow.earlier inner bound
  obtain ⟨m,found,has,le,meet⟩ := climbs.mergedParent? flow inside (before j less)
  have lookup : ∀ x, (parents.setIfInBounds i (some m))[x]? = if i = x then some (some m) else parents[x]? := by
    intro x
    rw [Array.getElem?_setIfInBounds,climbs.size,if_pos bound]
  have kept : ∀ {x}, HasParent parents x → HasParent (parents.setIfInBounds i (some m)) x := by
    rintro x ⟨parent,there⟩
    by_cases same : i = x
    · exact ⟨m,by rw [lookup,if_pos same]⟩
    · exact ⟨parent,by rw [lookup,if_neg same,there]⟩
  simp only [DominatorTree.improve,found]
  refine ⟨⟨?_,?_,?_⟩,⟨m,by rw [lookup,if_pos rfl]⟩,kept⟩
  · rw [Array.size_setIfInBounds,climbs.size]
  · rw [lookup,if_neg (by omega),climbs.root]
  · intro x parent there positive
    rw [lookup] at there
    split at there
    · rename_i same
      subst same
      cases (Option.some.inj there)
      exact ⟨by omega,kept has,fun dominated strict => meet fun p pred => flow.pred dominated strict pred⟩
    · obtain ⟨less',has',dominated⟩ := climbs.parent there positive
      exact ⟨less',kept has',dominated⟩

theorem Climbs.passUpTo {n : Nat} (bound : n < size) : Climbs size dominates (passUpTo preds n parents) ∧
      (∀ i, i ≤ n → HasParent (passUpTo preds n parents) i) ∧
      ∀ {j}, HasParent parents j → HasParent (passUpTo preds n parents) j := by
  induction n with
  | zero =>
    refine ⟨climbs,fun i le => ⟨0,?_⟩,fun has => has⟩
    rw [Nat.le_zero.mp le]
    exact climbs.root
  | succ n ih =>
    obtain ⟨good,has,old⟩ := ih (by omega)
    obtain ⟨better,hasLast,kept⟩ := good.improve flow (i := n + 1) (by omega) bound fun j less => has j (by omega)
    rw [passUpTo_succ]
    refine ⟨better,fun i le => ?_,fun before => kept (old before)⟩
    by_cases last : i = n + 1
    · exact last ▸ hasLast
    · exact kept (has i (by omega))

theorem Climbs.pass : Climbs size dominates (pass preds parents) ∧
      ∀ i, i < size → HasParent (pass preds parents) i := by
  have positive := climbs.positive
  obtain ⟨good,has,-⟩ := climbs.passUpTo flow (n := size - 1) (by omega)
  unfold DominatorTree.pass
  rw [climbs.size]
  exact ⟨good,fun i less => has i (by omega)⟩

theorem Climbs.settle (fuel : Nat) : Climbs size dominates (settle preds (fuel + 1) parents) ∧
      ∀ i, i < size → HasParent (settle preds (fuel + 1) parents) i := by
  induction fuel generalizing parents with
  | zero =>
    unfold settle
    dsimp only
    split
    · rename_i same
      exact same ▸ climbs.pass flow
    · exact climbs.pass flow
  | succ fuel ih =>
    unfold settle
    dsimp only
    split
    · rename_i same
      exact same ▸ climbs.pass flow
    · exact ih (climbs.pass flow).1

end

variable {g : Graph} {a b d : BlockId} {order : List BlockId}

theorem mem_predecessorPositions {i j : Nat} {x : BlockId} (there : order[i]? = some x) :
    j ∈ (predecessorPositions g order).getD i [] ↔ ∃ y, order[j]? = some y ∧ x ∈ g.successors y := by
  have entry : (predecessorPositions g order).getD i [] =
      (((order.map g.successors).zipIdx.filter fun entry => decide (x ∈ entry.1)).map Prod.snd) := by
    simp [predecessorPositions,Array.getD_eq_getD_getElem?,there]
  rw [entry]
  constructor
  · intro inside
    obtain ⟨⟨targets,j'⟩,member,rfl⟩ := mem_map.mp inside
    obtain ⟨listed,edge⟩ := mem_filter.mp member
    have found := mem_zipIdx_iff_getElem?.mp listed
    rw [getElem?_map] at found
    obtain ⟨y,source,rfl⟩ := Option.map_eq_some_iff.mp found
    exact ⟨y,source,of_decide_eq_true edge⟩
  · rintro ⟨y,source,edge⟩
    refine mem_map.mpr ⟨(g.successors y, j),mem_filter.mpr ⟨?_,by simpa using edge⟩,rfl⟩
    rw [mem_zipIdx_iff_getElem?,getElem?_map,source]
    rfl

theorem flow_of_listed (listed : g.Listed order) : Flow (fun i => (predecessorPositions g order).getD i []) order.length fun d i =>
      ∃ x y, order[d]? = some x ∧ order[i]? = some y ∧ g.Dominates x y where
  pred := by
    rintro d i j ⟨x,y,atD,atI,dominates⟩ strict inside
    obtain ⟨z,atJ,edge⟩ := (mem_predecessorPositions atI).mp inside
    refine ⟨x,z,atD,atJ,dominates.pred ?_ edge⟩
    rintro rfl
    exact strict ((List.getElem?_inj (List.getElem?_eq_some_iff.mp atD).1 listed.distinct).mp (atD.trans atI.symm))
  le := by
    rintro d i ⟨x,y,atD,atI,dominates⟩
    obtain ⟨j,le,atJ⟩ := listed.le atI dominates
    have same := (List.getElem?_inj (List.getElem?_eq_some_iff.mp atD).1 listed.distinct).mp (atD.trans atJ.symm)
    omega
  earlier := by
    intro i inner bound
    obtain ⟨x,atI⟩ : ∃ x, order[i]? = some x := ⟨_,getElem?_eq_getElem bound⟩
    have other : x ≠ g.entry := by
      rintro rfl
      have same := (getElem?_inj bound listed.distinct).mp (atI.trans listed.head.symm)
      omega
    obtain ⟨j,less,y,earlier,edge⟩ := listed.ordered atI other
    exact ⟨j,(mem_predecessorPositions atI).mpr ⟨y,earlier,edge⟩,less⟩

theorem position?_of_listed (listed : g.Listed order) (visited : g.Visited b) : ∃ i, order.idxOf? b = some i ∧ order[i]? = some b := by
  obtain ⟨i,there⟩ := mem_iff_getElem?.mp ((listed.mem b).mpr visited)
  obtain ⟨bound,here⟩ := List.getElem?_eq_some_iff.mp there
  refine ⟨i,List.idxOf?_eq_some_iff.mpr ⟨bound,here,fun j less same => ?_⟩,there⟩
  have := (List.getElem?_inj bound listed.distinct).mp (there.trans (List.getElem?_eq_some_iff.mpr ⟨by omega,same⟩).symm)
  omega

theorem isReachable_compute : (compute g).isReachable b = true ↔ g.Visited b := by
  rw [← g.listed_reversePostorder.mem b]
  exact contains_iff_mem

theorem climbs_start (g : Graph) : Climbs g.reversePostorder.length (fun d i => ∃ x y, g.reversePostorder[d]? = some x ∧
    g.reversePostorder[i]? = some y ∧ g.Dominates x y) (some 0 :: List.replicate (g.reversePostorder.length - 1) none).toArray := by
  have positive := (List.getElem?_eq_some_iff.mp g.listed_reversePostorder.head).1
  refine ⟨?_,rfl,?_⟩
  · simp only [size_toArray,length_cons,length_replicate]
    omega
  · intro i parent found inner
    obtain ⟨n,rfl⟩ : ∃ n, i = n + 1 := ⟨i - 1,by omega⟩
    simp [getElem?_replicate] at found

/-- A block that lies on every path to another one is its ancestor in the tree. -/
theorem dominates_compute (visited : g.Visited b) (dominates : g.Dominates d b) : (compute g).dominates d b = true := by
  have listed := g.listed_reversePostorder
  have flow := flow_of_listed listed
  obtain ⟨climbs,all⟩ := (climbs_start g).settle flow (g.reversePostorder.length * g.reversePostorder.length + 1)
  obtain ⟨i,position,atI⟩ := position?_of_listed listed visited
  obtain ⟨j,-,atJ⟩ := listed.le atI dominates
  obtain ⟨j',position',atJ'⟩ := position?_of_listed listed ((listed.mem d).mp (mem_of_getElem? atJ))
  have has := all i (List.getElem?_eq_some_iff.mp atI).1
  have ancestor := (isAncestor_iff climbs has (Nat.le_refl i)).mpr (climbs.above flow has ⟨d,b,atJ',atI,dominates⟩)
  unfold DominatorTree.dominates position?
  simp only [compute,position,position']
  exact ancestor

end DominatorTree

end BlockLowering
