import BlockLowering.Proofs.DominatorTrees
/-!
The computation of dominators comes to an end on every graph. Its loops are written down here without a bound, as relations
that hold only of runs which end and in which every lookup finds an entry. Parents come before their children at every
moment, so two positions that move up meet; later passes move parents up only, so some pass changes nothing.
-/
namespace BlockLowering.DominatorTree
open List

/-- The later of two positions moves to its parent until they meet. -/
inductive Meeting (parents : Array (Option Nat)) : Nat → Nat → Nat → Prop
  | met {a : Nat} : Meeting parents a a a
  | left {a b up m : Nat} : b < a → parents[a]? = some (some up) → Meeting parents up b m → Meeting parents a b m
  | right {a b up m : Nat} : a < b → parents[b]? = some (some up) → Meeting parents a up m → Meeting parents a b m

/-- Predecessors are merged in order into what has been found: one without a parent is passed over, the first other one is
    taken, and every further one is met. -/
inductive Merging (parents : Array (Option Nat)) : Option Nat → List Nat → Option Nat → Prop
  | done {found : Option Nat} : Merging parents found [] found
  | skip {found merged : Option Nat} {p : Nat} {rest : List Nat} :
    parents[p]? = some none → Merging parents found rest merged → Merging parents found (p :: rest) merged
  | first {merged : Option Nat} {p : Nat} {rest : List Nat} :
    HasParent parents p → Merging parents (some p) rest merged → Merging parents none (p :: rest) merged
  | meet {merged : Option Nat} {p q m : Nat} {rest : List Nat} :
    HasParent parents p → Meeting parents p q m → Merging parents (some m) rest merged → Merging parents (some q) (p :: rest) merged

/-- The walk from a block towards the root in search of another one. -/
inductive Walk (t : DominatorTree) (a : BlockId) : BlockId → Bool → Prop
  | found : Walk t a a true
  | root {b : BlockId} : b ≠ a → t.idom? b = none → Walk t a b false
  | up {b parent : BlockId} {answer : Bool} : b ≠ a → t.idom? b = some parent → Walk t a parent answer → Walk t a b answer

/-- The parents after a number of passes and then the positions up to a number. -/
def stage (g : Graph) (passes n : Nat) : Array (Option Nat) :=
  passUpTo (predsOf g) n ((pass (predsOf g))^[passes] (some 0 :: replicate (g.reversePostorder.length - 1) none).toArray)

section
variable {preds : Nat → List Nat} {size : Nat} {dominates : Nat → Nat → Prop} {parents : Array (Option Nat)}

/-! ### Positions that meet -/

theorem Climbs.meeting (climbs : Climbs size dominates parents) {fuel a b : Nat} (hasA : HasParent parents a)
    (hasB : HasParent parents b) (enough : a + b < fuel) : Meeting parents a b (commonAncestor parents fuel a b) := by
  fun_induction commonAncestor parents fuel a b with
  | case1 => omega
  | case2 fuel a => exact .met
  | case3 fuel a b other less ih =>
    obtain ⟨before,has,-⟩ := climbs.parentOf hasA (by omega)
    obtain ⟨up,found⟩ := hasA
    have here : DominatorTree.parentOf parents a = up := by simp [DominatorTree.parentOf,found]
    exact .left less found (here ▸ ih has hasB (by omega))
  | case4 fuel a b other less ih =>
    obtain ⟨before,has,-⟩ := climbs.parentOf hasB (by omega)
    obtain ⟨up,found⟩ := hasB
    have here : DominatorTree.parentOf parents b = up := by simp [DominatorTree.parentOf,found]
    exact .right (by omega) found (here ▸ ih hasA has (by omega))

theorem Climbs.merging_foldl (climbs : Climbs size dominates parents) {ps : List Nat} (inside : ∀ p ∈ ps, p < size)
    {found : Option Nat} (has : ∀ q, found = some q → HasParent parents q) :
    Merging parents found ps ((ps.filter fun p => (parents[p]?.join).isSome).foldl (fun found p => some (match found with
      | none => p
      | some q => DominatorTree.commonAncestor parents (p + q + 1) p q)) found) := by
  induction ps generalizing found with
  | nil => exact .done
  | cons p rest ih =>
    obtain ⟨bound,others⟩ := forall_mem_cons.mp inside
    obtain ⟨entry,there⟩ : ∃ entry, parents[p]? = some entry :=
      ⟨_,Array.getElem?_eq_getElem (climbs.size ▸ bound)⟩
    cases entry with
    | none =>
      rw [filter_cons_of_neg (by simp [there])]
      exact .skip there (ih others has)
    | some parent =>
      have hasP : HasParent parents p := ⟨parent,there⟩
      rw [filter_cons_of_pos (by simp [there]),foldl_cons]
      cases found with
      | none => exact .first hasP (ih others fun q same => Option.some.inj same ▸ hasP)
      | some q =>
        have enough := Nat.lt_succ_self (p + q)
        refine .meet hasP (climbs.meeting hasP (has q rfl) enough) (ih others fun m same => Option.some.inj same ▸ ?_)
        exact (climbs.above_commonAncestor hasP (has q rfl) enough).1

/-! ### Passes -/

theorem exists_settle_eq {fuel : Nat} (fixed : pass preds (settle preds fuel parents) = settle preds fuel parents) :
    ∃ k ≤ fuel, settle preds fuel parents = (pass preds)^[k] parents ∧
      ∀ j < k, (pass preds)^[j + 1] parents ≠ (pass preds)^[j] parents := by
  induction fuel generalizing parents with
  | zero => exact ⟨0,Nat.le_refl _,rfl,fun j less => absurd less (Nat.not_lt_zero j)⟩
  | succ fuel ih =>
    rw [settle] at fixed ⊢
    split
    · exact ⟨0,Nat.zero_le _,rfl,fun j less => absurd less (Nat.not_lt_zero j)⟩
    · rename_i changed
      rw [if_neg changed] at fixed
      obtain ⟨k,le,last,before⟩ := ih fixed
      refine ⟨k + 1,by omega,last,fun j less => ?_⟩
      cases j with
      | zero => exact changed
      | succ j => exact before j (by omega)

theorem Climbs.iterate (flow : Flow preds size dominates) (climbs : Climbs size dominates parents) (k : Nat) :
    Climbs size dominates ((DominatorTree.pass preds)^[k] parents) := by
  induction k with
  | zero => exact climbs
  | succ k ih =>
    rw [Function.iterate_succ_apply']
    exact (ih.pass flow).1

end

variable {g : Graph} {a b : BlockId}

theorem climbs_stage (g : Graph) (passes : Nat) {n : Nat} (bound : n < g.reversePostorder.length) :
    Climbs g.reversePostorder.length (DominatesAt g) (stage g passes n) := by
  have flow := flow_of_listed g.listed_reversePostorder
  exact (((climbs_start g).iterate flow passes).passUpTo flow bound).1

/-! ### The walk up the tree -/

theorem walk_compute (visited : g.Visited b) : Walk (compute g) a b ((compute g).dominates a b) := by
  have listed := g.listed_reversePostorder
  obtain ⟨settling,-⟩ := settling_compute g
  obtain ⟨j,position,atJ⟩ := position?_of_listed listed visited
  induction j using Nat.strongRecOn generalizing b with
  | ind j ih =>
    by_cases same : b = a
    · subst same
      have self : (compute g).dominates b b = true := dominates_compute visited (.refl g b)
      exact self ▸ .found
    · have bound := (List.getElem?_eq_some_iff.mp atJ).1
      obtain ⟨parent,found⟩ := settling.all j bound
      have here : (compute g).position? b = some j := position
      by_cases first : j = 0
      · subst first
        have answer : (compute g).dominates a b = false := by
          refine Bool.eq_false_iff.mpr fun above => same ?_
          have dominates := (dominates_compute_iff.mp above).2
          obtain ⟨i,le,atI⟩ := listed.le atJ dominates
          obtain rfl : i = 0 := by omega
          exact Option.mem_unique atJ atI
        refine answer ▸ .root same ?_
        unfold idom?
        simp only [here]
      · have less := (settling.climbs.parent found (by omega)).1
        obtain ⟨d,atD⟩ : ∃ d, g.reversePostorder[parent]? = some d := ⟨_,getElem?_eq_getElem (by omega)⟩
        have visitedD : g.Visited d := (listed.mem d).mp (mem_of_getElem? atD)
        obtain ⟨i,positionD,atI⟩ := position?_of_listed listed visitedD
        obtain rfl := (List.getElem?_inj (List.getElem?_eq_some_iff.mp atI).1 listed.distinct).mp (atI.trans atD.symm)
        have step : (compute g).idom? b = some d := idom?_of_parent here (by omega) found atD
        -- What is above the block and not the block itself is above its parent.
        have answer : (compute g).dominates a b = (compute g).dominates a d := by
          have there : (compute g).position? d = some i := positionD
          unfold DominatorTree.dominates
          rw [here,there]
          cases placed : (compute g).position? a with
          | none => rfl
          | some k =>
            refine Bool.eq_iff_iff.mpr ?_
            rw [isAncestor_iff settling.climbs (settling.all j bound) (Nat.le_refl j),
              isAncestor_iff settling.climbs (settling.all i (by omega)) (Nat.le_refl i)]
            refine ⟨fun above => above.parent found ?_,fun above => .up found (by omega) above⟩
            rintro rfl
            obtain ⟨boundA,atA,-⟩ := idxOf?_eq_some_iff.mp placed
            exact same (Option.mem_unique atJ (List.getElem?_eq_some_iff.mpr ⟨boundA,atA⟩))
        exact answer ▸ .up same step (ih i less visitedD positionD atD)

/-- On every graph the computation of the tree comes to an end and looks up only what is there. At every moment a position
    but the first has an earlier one as its parent; the predecessors of the position that is next are merged, in whatever
    order, by loops that end; after the first pass every block that a route leads to has a parent; the tree is found by the
    first pass that changes nothing; and the walk that answers a question about two blocks ends. -/
theorem compute_comes_to_end (g : Graph) : (∀ passes n, n < g.reversePostorder.length →
      (∀ i parent, 0 < i → (stage g passes n)[i]? = some (some parent) → parent < i ∧ HasParent (stage g passes n) parent) ∧
      ∀ ps, (∀ p, p ∈ ps ↔ p ∈ predsOf g (n + 1)) →
        Merging (stage g passes n) none ps (mergedParent? (stage g passes n) (predsOf g (n + 1)))) ∧
    (∀ b, g.Accessible b → ∃ i, g.reversePostorder[i]? = some b ∧ HasParent (stage g 1 0) i) ∧
    (∃ k ≤ g.reversePostorder.length * g.reversePostorder.length + 2, (compute g).parents = stage g k 0 ∧
      stage g (k + 1) 0 = stage g k 0 ∧ ∀ j < k, stage g (j + 1) 0 ≠ stage g j 0) ∧
    ∀ a b, ((compute g).isReachable b = false → (compute g).dominates a b = false) ∧
      ((compute g).isReachable b = true → Walk (compute g) a b ((compute g).dominates a b)) := by
  have listed := g.listed_reversePostorder
  have flow := flow_of_listed listed
  refine ⟨fun passes n bound => ?_,fun b accessible => ?_,?_,fun a b => ⟨fun apart => ?_,fun reachable => ?_⟩⟩
  · have climbs := climbs_stage g passes bound
    refine ⟨fun i parent inner found => ?_,fun ps same => ?_⟩
    · obtain ⟨less,has,-⟩ := climbs.parent found inner
      exact ⟨less,has⟩
    · rw [← climbs.mergedParent?_congr same]
      refine climbs.merging_foldl (fun p listed => ?_) (by simp)
      have inside := (same p).mp listed
      by_cases last : n + 1 < g.reversePostorder.length
      · obtain ⟨y,there,-⟩ := (mem_predecessorPositions (List.getElem?_eq_getElem last)).mp inside
        exact (List.getElem?_eq_some_iff.mp there).1
      · have none : predsOf g (n + 1) = [] := by
          simp [predsOf,predecessorPositions,Array.getD_eq_getD_getElem?,List.getElem?_eq_none (Nat.le_of_not_lt last)]
        rw [none] at inside
        cases inside
  · obtain ⟨i,-,there⟩ := position?_of_listed listed (Graph.accessible_iff.mp accessible)
    exact ⟨i,there,((climbs_start g).pass flow).2 i (List.getElem?_eq_some_iff.mp there).1⟩
  · obtain ⟨-,fixed⟩ := settling_compute g
    obtain ⟨k,le,last,before⟩ := exists_settle_eq fixed
    have last : (compute g).parents = stage g k 0 := last
    rw [last] at fixed
    exact ⟨k,le,last,(Function.iterate_succ_apply' _ _ _).trans fixed,before⟩
  · refine Bool.eq_false_iff.mpr fun above => ?_
    rw [isReachable_compute.mpr (dominates_compute_iff.mp above).1] at apart
    cases apart
  · exact walk_compute (isReachable_compute.mp reachable)

end BlockLowering.DominatorTree
