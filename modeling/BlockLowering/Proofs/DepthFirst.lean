import BlockLowering.Proofs.Wiring
/-!
Depth-first walks. A walk visits the blocks of a list in order: from a block that is new it goes on, before the rest of the
list, with the blocks that are next to it. The traversals, which keep a stack instead, list the blocks of a graph in the
order in which the walk from the entry enters them, and in the reverse of the order in which it leaves them.
-/
namespace BlockLowering.Graph
open List
variable {P : BlockId → Prop} {measure : Block → Nat}

/-- A path leads from the entry to a block. -/
inductive Reached (g : Graph) : BlockId → Prop
  | entry : Reached g g.entry
  | step {a x : BlockId} : Reached g a → x ∈ g.successors a → Reached g x

/-- A path leads from the entry to a block that exists; the entry counts in any case. -/
def Visited (g : Graph) (b : BlockId) : Prop := g.Reached b ∧ (b = g.entry ∨ g.hasBlock b = true)

/-- The walk through `todo` finds the blocks in `entered` visited, and afterwards those in `entered'` are, the last one
    first. It leaves the blocks in `left`, the last one first. -/
inductive Visits (next : BlockId → List BlockId) : List BlockId → List BlockId → List BlockId → List BlockId → Prop
  | done {entered} : Visits next [] entered entered []
  | pass {b todo entered entered' left} : b ∈ entered → Visits next todo entered entered' left →
      Visits next (b :: todo) entered entered' left
  | enter {b todo entered entered' entered'' left left'} : b ∉ entered → Visits next (next b) (b :: entered) entered' left →
      Visits next todo entered' entered'' left' → Visits next (b :: todo) entered entered'' (left' ++ b :: left)

/-- Every block of an order is one of the roots or next to an earlier block. -/
def Follows (next : BlockId → List BlockId) : List BlockId → List BlockId → Prop
  | _, [] => True
  | roots, b :: rest => b ∈ roots ∧ Follows next (next b ++ roots) rest

variable {g : Graph} {a b x : BlockId}
variable {next next' : BlockId → List BlockId} {todo entered entered' entered'' left left' : List BlockId}

section
variable {roots roots' order : List BlockId}

theorem Follows.mono (follows : Follows next roots order) (more : roots ⊆ roots') : Follows next roots' order := by
  induction order generalizing roots roots' with
  | nil => trivial
  | cons b rest ih => exact ⟨more follows.1,ih follows.2 (append_subset.mpr ⟨subset_append_left _ _,fun _ h => mem_append_right _ (more h)⟩)⟩

theorem Follows.append {order' : List BlockId} (first : Follows next roots order) (second : Follows next roots order') :
    Follows next roots (order ++ order') := by
  induction order generalizing roots with
  | nil => exact second
  | cons b rest ih => exact ⟨first.1,ih first.2 (second.mono (subset_append_right _ _))⟩

theorem Follows.all (follows : Follows next roots order) (start : ∀ b ∈ roots, P b)
    (step : ∀ b, P b → ∀ x ∈ next b, P x) : ∀ b ∈ order, P b := by
  induction order generalizing roots with
  | nil => simp
  | cons b rest ih =>
    have here := start b follows.1
    exact forall_mem_cons.mpr ⟨here,ih follows.2 fun x inside => (mem_append.mp inside).elim (step b here x) (start x)⟩

theorem Follows.earlier (follows : Follows next roots order) {i : Nat} (there : order[i]? = some x) :
    x ∈ roots ∨ ∃ j < i, ∃ a, order[j]? = some a ∧ x ∈ next a := by
  induction order generalizing roots i with
  | nil => cases there
  | cons b rest ih =>
    cases i with
    | zero => exact .inl (Option.some.inj there ▸ follows.1)
    | succ i =>
      rcases ih follows.2 there with inside | ⟨j,less,a,found,edge⟩
      · exact (mem_append.mp inside).symm.imp_right fun edge => ⟨0,Nat.succ_pos i,b,rfl,edge⟩
      · exact .inr ⟨j + 1,Nat.succ_lt_succ less,a,found,edge⟩

end

namespace Visits

/-- The blocks that a walk enters are those that it leaves. -/
theorem perm (visits : Visits next todo entered entered' left) : entered'.Perm (left ++ entered) := by
  induction visits with
  | done => exact .refl _
  | pass _ _ ih => exact ih
  | enter _ _ _ inner rest => simpa using rest.trans ((inner.trans perm_middle).append_left _)

theorem nodup (visits : Visits next todo entered entered' left) (distinct : entered.Nodup) : entered'.Nodup := by
  induction visits with
  | done => exact distinct
  | pass _ _ ih => exact ih distinct
  | enter new _ _ inner rest => exact rest (inner (nodup_cons.mpr ⟨new,distinct⟩))

theorem subset (visits : Visits next todo entered entered' left) : entered ⊆ entered' :=
  fun _ inside => visits.perm.mem_iff.mpr (mem_append_right _ inside)

/-- A walk enters what it is asked to, and what is next to a block that it leaves. -/
theorem closed (visits : Visits next todo entered entered' left) : todo ⊆ entered' ∧ ∀ b ∈ left, next b ⊆ entered' := by
  induction visits with
  | done => simp
  | pass old visits ih => exact ⟨cons_subset.mpr ⟨visits.subset old,ih.1⟩,ih.2⟩
  | enter _ visits later inner rest =>
    refine ⟨cons_subset.mpr ⟨later.subset (visits.subset (.head _)),rest.1⟩,fun x inside => ?_⟩
    rcases mem_append.mp inside with inside | inside
    · exact rest.2 x inside
    · rcases mem_cons.mp inside with rfl | inside
      · exact List.Subset.trans inner.1 later.subset
      · exact List.Subset.trans (inner.2 x inside) later.subset

theorem follows (visits : Visits next todo entered entered' left) : Follows next todo left := by
  induction visits with
  | done => trivial
  | pass _ _ ih => exact ih.mono (subset_cons_self _ _)
  | enter _ _ _ inner rest =>
    exact (rest.mono (subset_cons_self _ _)).append ⟨.head _,inner.mono (subset_append_left _ _)⟩

theorem unique (visits : Visits next todo entered entered' left) (other : Visits next todo entered entered'' left') :
    entered'' = entered' ∧ left' = left := by
  induction visits generalizing entered'' left' with
  | done =>
    cases other
    exact ⟨rfl,rfl⟩
  | pass old _ ih =>
    cases other with
    | pass _ rest => exact ih rest
    | enter new _ _ => exact absurd old new
  | enter new _ _ inner rest =>
    cases other with
    | pass old _ => exact absurd old new
    | enter _ inner' rest' =>
      obtain ⟨rfl,rfl⟩ := inner inner'
      obtain ⟨rfl,rfl⟩ := rest rest'
      exact ⟨rfl,rfl⟩

theorem congr (visits : Visits next todo entered entered' left) (start : ∀ b ∈ todo, P b)
    (same : ∀ b, P b → next' b = next b ∧ ∀ x ∈ next b, P x) : Visits next' todo entered entered' left := by
  induction visits with
  | done => exact .done
  | pass old _ ih => exact .pass old (ih (forall_mem_cons.mp start).2)
  | enter new _ _ inner rest =>
    obtain ⟨here,start⟩ := forall_mem_cons.mp start
    obtain ⟨same,step⟩ := same _ here
    exact .enter new (same ▸ inner step) (rest start)

theorem split {more : List BlockId} (visits : Visits next (todo ++ more) entered entered'' left) : ∃ entered' left₁ left₂,
    Visits next todo entered entered' left₁ ∧ Visits next more entered' entered'' left₂ := by
  induction todo generalizing entered left with
  | nil => exact ⟨_,_,_,.done,visits⟩
  | cons b rest ih =>
    cases visits with
    | pass old visits =>
      obtain ⟨_,_,_,first,second⟩ := ih visits
      exact ⟨_,_,_,.pass old first,second⟩
    | enter new inner visits =>
      obtain ⟨_,_,_,first,second⟩ := ih visits
      exact ⟨_,_,_,.enter new inner first,second⟩

/-- Blocks that are visited already need not be asked for. -/
theorem unfilter {keep : BlockId → Bool} (visits : Visits next (todo.filter keep) entered entered' left)
    (old : ∀ b ∈ todo, keep b = false → b ∈ entered) : Visits next todo entered entered' left := by
  induction todo generalizing entered left with
  | nil => exact visits
  | cons b rest ih =>
    obtain ⟨here,old⟩ := forall_mem_cons.mp old
    cases kept : keep b with
    | false =>
      rw [filter_cons_of_neg (by simp [kept])] at visits
      exact .pass (here kept) (ih visits old)
    | true =>
      rw [filter_cons_of_pos kept] at visits
      cases visits with
      | pass there visits => exact .pass there (ih visits old)
      | enter new inner visits =>
        exact .enter new inner (ih visits fun x inside out => inner.subset (.tail _ (old x inside out)))

end Visits

/-! ### Traversals -/

variable {done : List BlockId} {k : Block}

/-- The sum of a measure over the blocks other than some. -/
def outside (g : Graph) (measure : Block → Nat) (done : List BlockId) : Nat :=
  g.blocks.entries.foldr (fun e n => (if e.1 ∈ done then 0 else measure e.2) + n) 0

theorem outside_nil : g.outside measure [] = g.blocks.total measure := by
  simp [outside,Table.total,Table.values,foldr_map]

private theorem sum_outside_le (measure : Block → Nat) (entries : List (BlockId × Block)) (done : List BlockId) :
    entries.foldr (fun e n => (if e.1 ∈ b :: done then 0 else measure e.2) + n) 0 ≤
      entries.foldr (fun e n => (if e.1 ∈ done then 0 else measure e.2) + n) 0 := by
  induction entries with
  | nil => exact Nat.le_refl _
  | cons e rest ih =>
    simp only [foldr_cons,mem_cons] at ih ⊢
    by_cases old : e.1 ∈ done <;> by_cases same : e.1 = b <;> simp [old,same] <;> omega

private theorem sum_outside_lt {entries : List (BlockId × Block)} (inside : (b, k) ∈ entries) (new : b ∉ done) :
    entries.foldr (fun e n => (if e.1 ∈ b :: done then 0 else measure e.2) + n) 0 + measure k ≤
      entries.foldr (fun e n => (if e.1 ∈ done then 0 else measure e.2) + n) 0 := by
  induction entries with
  | nil => cases inside
  | cons e rest ih =>
    simp only [foldr_cons]
    rcases mem_cons.mp inside with rfl | inside
    · have rests := sum_outside_le (b := b) measure rest done
      simp only [mem_cons_self,if_true,if_neg new]
      omega
    · have step := ih inside
      have head : (if e.1 ∈ b :: done then 0 else measure e.2) ≤ if e.1 ∈ done then 0 else measure e.2 := by
        by_cases old : e.1 ∈ done <;> by_cases same : e.1 = b <;> simp [old,same]
      omega

theorem outside_cons (measure : Block → Nat) (new : b ∉ done) :
    g.outside measure (b :: done) + ((g.block? b).map measure).getD 0 ≤ g.outside measure done := by
  cases found : g.block? b with
  | some k => exact sum_outside_lt (Table.mem_entries_iff.mpr found) new
  | none => exact sum_outside_le measure _ _

theorem length_successors : (g.successors b).length = ((g.block? b).map fun k => k.successors.length).getD 0 := by
  unfold successors
  cases g.block? b <;> rfl

theorem visits_preorderFrom {fuel : Nat} {stack : List BlockId}
    (enough : stack.length + g.outside (fun k => k.successors.length) done < fuel) :
    ∃ left, Visits g.successors stack done (g.preorderFrom fuel stack done) left := by
  fun_induction preorderFrom g fuel stack done with
  | case1 => omega
  | case2 => exact ⟨[],.done⟩
  | case3 fuel block stack done old ih =>
    obtain ⟨left,visits⟩ := ih (by simp only [length_cons] at enough; omega)
    exact ⟨left,.pass old visits⟩
  | case4 fuel block stack done new fresh ih =>
    have fewer := outside_cons (g := g) (fun k => k.successors.length) new
    have bound : fresh.length ≤ (g.successors block).length := length_filter_le _ _
    rw [← length_successors] at fewer
    obtain ⟨left,visits⟩ := ih (by simp only [length_append,length_cons] at enough ⊢; omega)
    -- The stack may hold a block several times; the walk passes over all but the first.
    obtain ⟨_,_,_,inner,rest⟩ := visits.split
    exact ⟨_,.enter new (inner.unfilter fun b _ out => Classical.not_not.mp (of_decide_eq_false out)) rest⟩

theorem visits_reachable (g : Graph) : ∃ left, Visits g.successors [g.entry] [] g.reachable.reverse left := by
  rw [reachable,reverse_reverse]
  exact visits_preorderFrom (by simp only [outside_nil,edgeCount,length_singleton]; omega)

theorem mem_reachable : b ∈ g.reachable ↔ g.Reached b := by
  obtain ⟨left,visits⟩ := g.visits_reachable
  have same : ∀ b, b ∈ g.reachable ↔ b ∈ left := fun b => by simpa using visits.perm.mem_iff (a := b)
  refine ⟨fun inside => visits.follows.all (by simpa using .entry) (fun _ before _ => .step before) b ((same b).mp inside),
    fun reached => ?_⟩
  induction reached with
  | entry => exact mem_reverse.mp (visits.closed.1 (.head _))
  | step _ edge ih => exact mem_reverse.mp (visits.closed.2 _ ((same _).mp ih) edge)

instance : Decidable (g.Reached b) := decidable_of_iff _ mem_reachable

/-- The successors of a block that exist. -/
def existing (g : Graph) (b : BlockId) : List BlockId := (g.successors b).filter g.hasBlock

/-- How the walk goes on from a stack of blocks that it has not left yet, each with the rest of its successors. -/
def Unwinds (g : Graph) : List (BlockId × List BlockId) → List BlockId → List BlockId → Prop
  | [], _, left => left = []
  | (b, rest) :: stack, entered, left => ∃ entered' inner later, Visits g.existing (rest.filter g.hasBlock) entered entered' inner ∧
      g.Unwinds stack entered' later ∧ left = later ++ b :: inner

def stackSteps (stack : List (BlockId × List BlockId)) : Nat :=
  stack.foldr (fun frame n => frame.2.length + 1 + n) 0

theorem unwinds_postorderFrom (fuel : Nat) (stack : List (BlockId × List BlockId)) (entered done : List BlockId)
    (enough : stackSteps stack + g.outside (fun k => k.successors.length + 1) entered < fuel) :
    ∃ left, g.Unwinds stack entered left ∧ g.postorderFrom fuel stack entered done = left ++ done := by
  fun_induction postorderFrom g fuel stack entered done with
  | case1 => omega
  | case2 => exact ⟨[],rfl,rfl⟩
  | case3 fuel block stack entered done ih =>
    obtain ⟨later,unwinds,same⟩ := ih (by simp only [stackSteps,foldr_cons] at enough ⊢; omega)
    exact ⟨_,⟨_,_,_,.done,unwinds,rfl⟩,by simpa using same⟩
  | case4 fuel block target rest stack entered done new ih =>
    have fewer := outside_cons (g := g) (fun k => k.successors.length + 1) new.2
    obtain ⟨k,found⟩ := Table.contains_iff.mp new.1
    have found : g.block? target = some k := found
    simp only [found,Option.map_some,Option.getD_some] at fewer
    obtain ⟨_,⟨_,_,_,inner,⟨_,_,_,visits,unwinds,rfl⟩,rfl⟩,same⟩ := ih (by
      simp only [stackSteps,foldr_cons,length_cons,successors_of_block found] at enough ⊢
      omega)
    have deeper := Visits.enter new.2 inner visits
    rw [← filter_cons_of_pos new.1] at deeper
    exact ⟨_,⟨_,_,_,deeper,unwinds,rfl⟩,by simpa using same⟩
  | case5 fuel block target rest stack entered done old ih =>
    obtain ⟨_,⟨_,_,_,visits,unwinds,rfl⟩,same⟩ := ih (by simp only [stackSteps,foldr_cons,length_cons] at enough ⊢; omega)
    refine ⟨_,⟨_,_,_,?_,unwinds,rfl⟩,same⟩
    by_cases exist : g.hasBlock target = true
    · rw [filter_cons_of_pos exist]
      exact .pass (Classical.not_not.mp fun new => old ⟨exist,new⟩) visits
    · rwa [filter_cons_of_neg exist]

theorem visits_reversePostorder (g : Graph) : ∃ entered, Visits g.existing [g.entry] [] entered g.reversePostorder := by
  have fewer := outside_cons (g := g) (fun k => k.successors.length + 1) (not_mem_nil (a := g.entry))
  have total := g.blocks.total_succ fun k => k.successors.length
  rw [outside_nil,total] at fewer
  obtain ⟨_,⟨entered,inner,_,visits,rfl,rfl⟩,same⟩ := unwinds_postorderFrom (g := g) (g.edgeCount + g.blocks.size + 2)
    [(g.entry, g.successors g.entry)] [g.entry] [] (by
      simp only [stackSteps,foldr_cons,foldr_nil,length_successors,edgeCount]
      cases found : g.block? g.entry with
      | none =>
        simp only [found,Option.map_none,Option.getD_none] at fewer ⊢
        omega
      | some k =>
        simp only [found,Option.map_some,Option.getD_some] at fewer ⊢
        omega)
  rw [reversePostorder,same,append_nil]
  exact ⟨entered,.enter not_mem_nil visits .done⟩

theorem hasBlock_of_edge (edge : x ∈ g.successors a) : g.hasBlock a = true := by
  obtain ⟨k,found,-⟩ := exists_block_of_edge edge
  exact Table.contains_iff.mpr ⟨k,found⟩

theorem Reached.visited (reached : g.Reached a) (edge : x ∈ g.successors a) : g.Visited a :=
  ⟨reached,.inr (hasBlock_of_edge edge)⟩

/-- The reverse postorder lists the visited blocks once, the entry first and every other block after one
    of its predecessors. -/
structure Listed (g : Graph) (order : List BlockId) : Prop where
  distinct : order.Nodup
  mem : ∀ b, b ∈ order ↔ g.Visited b
  head : order[0]? = some g.entry
  ordered : ∀ {i : Nat} {b}, order[i]? = some b → b ≠ g.entry → ∃ j < i, ∃ a, order[j]? = some a ∧ b ∈ g.successors a

theorem listed_reversePostorder (g : Graph) : g.Listed g.reversePostorder := by
  obtain ⟨entered,visits⟩ := g.visits_reversePostorder
  have same : entered.Perm g.reversePostorder := by simpa using visits.perm
  refine ⟨same.nodup_iff.mp (visits.nodup nodup_nil),fun b => ⟨fun inside => ?_,?_⟩,?_,fun there inner => ?_⟩
  · refine visits.follows.all (by simpa using ⟨.entry,.inl rfl⟩) (fun a before x edge => ?_) b inside
    obtain ⟨edge,exist⟩ := mem_filter.mp edge
    exact ⟨.step before.1 edge,.inr exist⟩
  · rintro ⟨reached,place⟩
    have first : g.entry ∈ g.reversePostorder := same.mem_iff.mp (visits.closed.1 (.head _))
    induction reached with
    | entry => exact first
    | step before edge ih =>
      rcases place with rfl | exist
      · exact first
      · exact same.mem_iff.mp (visits.closed.2 _ (ih (before.visited edge).2) (mem_filter.mpr ⟨edge,exist⟩))
  · generalize g.reversePostorder = order at visits
    cases visits with
    | pass old _ => cases old
    | enter _ _ rest =>
      cases rest
      rfl
  · obtain ⟨j,less,a,found,edge⟩ := (visits.follows.earlier there).resolve_left (by simpa using inner)
    exact ⟨j,less,a,found,(mem_filter.mp edge).1⟩

/-- The traversals follow the depth-first walk from the entry: one lists the blocks as they are entered, also those that do
    not exist, and the other the existing ones in the reverse of the order in which they are left. Either lists a block
    once, and the second one, which begins with the entry, after a predecessor. -/
theorem traversals_depthFirst (g : Graph) :
    (∀ order, (∃ left, Visits g.successors [g.entry] [] order.reverse left) ↔ order = g.reachable) ∧ g.reachable.Nodup ∧
    (∀ order, (∃ entered, Visits g.existing [g.entry] [] entered order) ↔ order = g.reversePostorder) ∧
    g.reversePostorder.Nodup ∧ g.reversePostorder[0]? = some g.entry ∧
    ∀ b, g.Reached b → g.hasBlock b = true → b ≠ g.entry → ∃ i j : Nat, ∃ a, g.reversePostorder[i]? = some b ∧ j < i ∧
      g.reversePostorder[j]? = some a ∧ b ∈ g.successors a := by
  obtain ⟨left,preorder⟩ := g.visits_reachable
  obtain ⟨entered,postorder⟩ := g.visits_reversePostorder
  have listed := g.listed_reversePostorder
  refine ⟨fun order => ⟨?_,?_⟩,(reverse_perm _).nodup_iff.mp (preorder.nodup nodup_nil),fun order => ⟨?_,?_⟩,listed.distinct,listed.head,?_⟩
  · rintro ⟨_,other⟩
    exact reverse_inj.mp (preorder.unique other).1
  · rintro rfl
    exact ⟨left,preorder⟩
  · rintro ⟨_,other⟩
    exact (postorder.unique other).2
  · rintro rfl
    exact ⟨entered,postorder⟩
  · intro b reached exist inner
    obtain ⟨i,there⟩ := mem_iff_getElem?.mp ((listed.mem b).mpr ⟨reached,.inr exist⟩)
    obtain ⟨j,less,a,found,edge⟩ := listed.ordered there inner
    exact ⟨i,j,a,there,less,found,edge⟩

end BlockLowering.Graph
