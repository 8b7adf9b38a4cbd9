import BlockLowering.Proofs.Exactness
/-!
Results of invokes in functions that the check accepts. Control has entered the block behind the normal
edge before it reads the result; whether it came over the normal edge the check does not see, so that the
result is there on every path only if no other edge leads into that block.
-/
namespace BlockLowering
open List Validator Definition Block
variable {earlier : List Register} {available : Site → Bool} {a n : BlockId}

namespace Validator
variable {v : Validator} {p : Procedure} {b : BlockId} {k : Block} {r : Register} {site : Site}

/-! ### What acceptance means -/

theorem nodup_of_repeated {block : Option BlockId} {ds : List Definition}
    (none : v.repeated block earlier ds = []) : (ds.map register).Nodup ∧ ∀ d ∈ ds, d.register ∉ earlier := by
  induction ds generalizing earlier with
  | nil => exact ⟨nodup_nil,by simp⟩
  | cons d rest ih =>
    obtain ⟨first,later⟩ := append_eq_nil_iff.mp none
    obtain ⟨distinct,apart⟩ := ih later
    have new : d.register ∉ earlier := fun old => by simp [old] at first
    refine ⟨nodup_cons.mpr ⟨fun again => ?_,distinct⟩,fun d' member => ?_⟩
    · obtain ⟨d',member,same⟩ := mem_map.mp again
      exact apart d' member (same ▸ (.head _))
    · rcases mem_cons.mp member with rfl | member
      · exact new
      · exact fun old => apart d' member (.tail _ old)

theorem of_shapeFaults {entries : List (BlockId × Block)}
    (none : v.shapeFaults earlier entries = []) (before : earlier.Nodup) :
    (earlier ++ (entries.flatMap fun e => e.2.definitions e.1).map register).Nodup ∧
      ∀ e ∈ entries, ∀ x ∈ e.2.successors, x ≠ v.procedure.graph.entry := by
  induction entries generalizing earlier with
  | nil => exact ⟨by simpa using before,by simp⟩
  | cons e rest ih =>
    obtain ⟨b,k⟩ := e
    simp only [shapeFaults,append_eq_nil_iff] at none
    obtain ⟨⟨⟨repeats,-⟩,edges⟩,later⟩ := none
    obtain ⟨single,apart⟩ := nodup_of_repeated repeats
    have both : (earlier ++ (k.definitions b).map register).Nodup := by
      refine nodup_append.mpr ⟨before,single,?_⟩
      rintro r old _ new rfl
      obtain ⟨d,member,rfl⟩ := mem_map.mp new
      exact apart d member old
    obtain ⟨distinct,targets⟩ := ih later both
    refine ⟨by simpa using distinct,fun e member => ?_⟩
    rcases mem_cons.mp member with rfl | member
    · intro x target first
      have fault := flatMap_eq_nil_iff.mp edges x target
      rw [edgeFaults,if_pos first] at fault
      split at fault <;> cases fault
    · exact targets e member

theorem exists_site (none : (new p).useFaults b available r = []) :
    ∃ site, ⟨r,site⟩ ∈ p.definitions ∧ available site = true := by
  unfold useFaults at none
  split at none
  · cases none
  · rename_i site found
    split at none
    · rename_i there
      obtain ⟨d,searched,rfl⟩ := Option.map_eq_some_iff.mp found
      have same : d.register = r := by simpa using find?_some searched
      have inside : d ∈ (new p).definitions := mem_reverse.mp (mem_of_find?_eq_some searched)
      rw [definitions_new] at inside
      exact ⟨d.site,same ▸ inside,there⟩
    · cases none

theorem useFaults_of_incoming {phi : Register} {preds seen : List BlockId} {incoming : List (BlockId × Register)}
    (none : v.incomingFaults b phi preds seen incoming = []) (member : (a, r) ∈ incoming)
    (reachable : v.tree.isReachable a = true) : v.useFaults b (v.availableOn a b) r = [] := by
  induction incoming generalizing seen with
  | nil => cases member
  | cons edge rest ih =>
    obtain ⟨source,value⟩ := edge
    unfold incomingFaults at none
    split at none
    · rename_i unreached
      refine ih none ((mem_cons.mp member).resolve_left fun same => ?_)
      obtain ⟨rfl,-⟩ := Prod.mk.inj same
      simp [reachable] at unreached
    · simp only [append_eq_nil_iff] at none
      rcases mem_cons.mp member with same | member
      · obtain ⟨rfl,rfl⟩ := Prod.mk.inj same
        exact none.1.2
      · exact ih none.2 member

end Validator

namespace Procedure
variable {p : Procedure} {b x : BlockId} {k : Block} {r : Register}
variable {site : Site}

section
variable (accepted : p.validate = [])
include accepted

theorem parts_of_accepted : (Validator.new p).shapeFaults p.inputs p.reachedBlocks = [] ∧ p.inputs.Nodup ∧
      ∀ b k, p.graph.Reached b → p.graph.block? b = some k → (Validator.new p).blockFaults b k = [] := by
  rw [validate_eq,append_eq_nil_iff,append_eq_nil_iff] at accepted
  obtain ⟨⟨repeats,shape⟩,code⟩ := accepted
  have inputs := (Validator.nodup_of_repeated repeats).1
  rw [map_map] at inputs
  exact ⟨shape,inputs,fun b k reached found =>
    flatMap_eq_nil_iff.mp code (b, k) (mem_reachedBlocks.mpr ⟨reached,found⟩)⟩

theorem nodup_of_accepted : (p.definitions.map register).Nodup := by
  obtain ⟨shape,inputs,-⟩ := parts_of_accepted accepted
  rw [definitions,map_append,map_map]
  exact (Validator.of_shapeFaults shape inputs).1

theorem target_of_accepted (reached : p.graph.Reached b) (found : p.graph.block? b = some k)
    (target : x ∈ k.successors) : x ≠ p.graph.entry := by
  obtain ⟨shape,inputs,-⟩ := parts_of_accepted accepted
  exact (of_shapeFaults shape inputs).2 (b, k) (mem_reachedBlocks.mpr ⟨reached,found⟩) x target

theorem available_of_accepted
    (defined : ⟨r,site⟩ ∈ p.definitions) (none : (Validator.new p).useFaults b available r = []) : available site = true := by
  have single := nodup_of_accepted accepted
  obtain ⟨site',defined',there⟩ := exists_site none
  have found := (find?_definitions single defined).symm.trans (find?_definitions single defined')
  exact (Definition.mk.inj (Option.some.inj found)).2 ▸ there

theorem covers_of_accepted {index : Nat} (reached : p.graph.Reached b)
    (found : p.graph.block? b = some k) (defined : ⟨r,site⟩ ∈ p.definitions) (read : (r, .inside index) ∈ k.reads) :
    site.CoversAt p.graph b index := by
  obtain ⟨-,-,blocks⟩ := parts_of_accepted accepted
  have code := blocks b k reached found
  simp only [Validator.blockFaults,append_eq_nil_iff,flatMap_eq_nil_iff] at code
  obtain ⟨⟨-,instrs⟩,last⟩ := code
  have none : (Validator.new p).useFaults b ((Validator.new p).availableAt b index) r = [] := by
    simp only [reads,mem_append,mem_flatMap,mem_map,Prod.mk.injEq,reduceCtorEq,and_false,
      exists_false,false_or,Place.inside.injEq] at read
    rcases read with ⟨entry,inside,r,use,rfl,rfl⟩ | ⟨t,ended,r,use,rfl,rfl⟩
    · exact flatMap_eq_nil_iff.mp (append_eq_nil_iff.mp (instrs entry inside)).1 r use
    · exact flatMap_eq_nil_iff.mp (append_eq_nil_iff.mp (last t ended)).1 r use
  exact (Validator.availableAt_iff (reached.visited_block found)).mp (available_of_accepted accepted defined none)

theorem coversEdge_of_accepted {k' : Block}
    (reached : p.graph.Reached b) (found : p.graph.block? b = some k) (defined : ⟨r,site⟩ ∈ p.definitions)
    (read : (r, .edge a) ∈ k.reads) (reached' : p.graph.Reached a) (found' : p.graph.block? a = some k') : site.CoversEdge p.graph a b := by
  obtain ⟨-,-,blocks⟩ := parts_of_accepted accepted
  have visited := reached'.visited_block found'
  have code := blocks b k reached found
  simp only [Validator.blockFaults,append_eq_nil_iff,flatMap_eq_nil_iff] at code
  obtain ⟨⟨phis,-⟩,-⟩ := code
  have none : (Validator.new p).useFaults b ((Validator.new p).availableOn a b) r = [] := by
    simp only [reads,mem_append,mem_flatMap,mem_map,Prod.mk.injEq,reduceCtorEq,and_false,
      exists_false,or_false,Place.edge.injEq] at read
    obtain ⟨phi,inside,edge,member,rfl,rfl⟩ := read
    exact Validator.useFaults_of_incoming (phis phi inside) member (DominatorTree.isReachable_compute.mpr visited)
  exact (Validator.availableOn_iff visited).mp (available_of_accepted accepted defined none)

end

/-! ### The normal edge -/

/-- One edge, the one with a number at a block, is the only way from a reached block into another. -/
def EntersOnlyBy (p : Procedure) (n b : BlockId) (number : Nat) : Prop :=
  ∀ a k other, p.graph.Reached a → p.graph.block? a = some k → k.successors[other]? = some n → a = b ∧ other = number

theorem edge_mem_of_entered {moves : List Move} {place number : Nat} (path : p.graph.Path moves x place)
    (entered : .head n ∈ moves) (inner : n ≠ p.graph.entry) (only : p.EntersOnlyBy n b number) : .edge b number ∈ moves := by
  obtain ⟨a,k,other,inside,reached,found,there⟩ := path.exists_edge entered inner
  obtain ⟨rfl,rfl⟩ := only a k other reached found there
  exact inside

/-- In an accepted function a path that comes to a read of the result of an invoke, or takes an edge on which
    a phi reads it, has entered the normal successor or enters it over this edge. If the normal edge is the
    only way into that block, the path has taken it. -/
theorem accepted_invoke_result {site : CallSite} {n u : BlockId} (accepted : p.validate = []) (reached : p.graph.Reached b)
    (found : p.graph.block? b = some k) (ended : k.terminator = some (.invoke (some r) site n u)) :
    (∀ moves x kx index, p.graph.Path moves x index → p.graph.block? x = some kx → (r, .inside index) ∈ kx.reads →
      .head n ∈ moves ∧ (p.EntersOnlyBy n b 0 → .edge b 0 ∈ moves)) ∧
    ∀ moves a ka number x kx, p.graph.Path moves a ka.instrs.length → p.graph.block? a = some ka →
      ka.successors[number]? = some x → p.graph.block? x = some kx → (r, .edge a) ∈ kx.reads →
      (x = n ∨ .head n ∈ moves) ∧ (p.EntersOnlyBy n b 0 → .edge b 0 ∈ .edge a number :: moves) := by
  have defined : ⟨r,.invoke n⟩ ∈ p.definitions :=
    mem_definitions.mpr (.inr ⟨b,k,reached,found,Block.mem_definitions.mpr (.inr (.inr ⟨site,n,u,rfl,ended⟩))⟩)
  have inner : n ≠ p.graph.entry := target_of_accepted accepted reached found (by simp [Block.successors,ended,Terminator.successors])
  constructor
  · intro moves x kx index path there read
    have dominates : p.graph.Dominates n x := covers_of_accepted accepted path.reached there defined read
    have entered : .head n ∈ moves := Classical.byContradiction fun never => dominates (path.avoiding never)
    exact ⟨entered,edge_mem_of_entered path entered inner⟩
  · intro moves a ka number x kx path there next there' read
    have reached' : p.graph.Reached x := .step path.reached (Graph.mem_successors there next)
    have covers : n = x ∨ p.graph.Dominates n a :=
      coversEdge_of_accepted accepted reached' there' defined read path.reached there
    rcases covers with rfl | dominates
    · refine ⟨.inl rfl,fun only => ?_⟩
      obtain ⟨rfl,rfl⟩ := only a ka number path.reached there next
      exact mem_cons_self
    · have entered : .head n ∈ moves := Classical.byContradiction fun never => dominates (path.avoiding never)
      exact ⟨.inr entered,fun only => mem_cons_of_mem _ (edge_mem_of_entered path entered inner only)⟩

end Procedure

def plainSite : CallSite := ⟨.direct ⟨7⟩,[],⟨[],.i32⟩,.local⟩

/-- A function that returns the result of an invoke, and does not return from its landing pad. -/
def invokedOnce : Procedure := .ofBlocks .i32 [
  { new ⟨0⟩ with terminator := some (.invoke (some ⟨0⟩) plainSite ⟨1⟩ ⟨2⟩) },
  { new ⟨1⟩ with terminator := some (.ret (some ⟨0⟩)) },
  { new ⟨2⟩ with instrs := [.landingPad ⟨1⟩], terminator := some .unreachable }]

theorem invokedOnce_result : invokedOnce.validate = [] ∧ invokedOnce.EntersOnlyBy ⟨1⟩ ⟨0⟩ 0 ∧
    ∀ moves, invokedOnce.graph.Path moves ⟨1⟩ 0 → .edge ⟨0⟩ 0 ∈ moves := by
  have accepted : invokedOnce.validate = [] := by decide +kernel
  have reached : invokedOnce.graph.Reached ⟨0⟩ := .entry
  have found : invokedOnce.graph.block? ⟨0⟩ = some { Block.new ⟨0⟩ with
    terminator := some (.invoke (some ⟨0⟩) plainSite ⟨1⟩ ⟨2⟩) } := by decide +kernel
  have normal : invokedOnce.graph.block? ⟨1⟩ = some { Block.new ⟨1⟩ with terminator := some (.ret (some ⟨0⟩)) } := by
    decide +kernel
  have only : invokedOnce.EntersOnlyBy ⟨1⟩ ⟨0⟩ 0 := by
    have edges : ∀ e ∈ invokedOnce.reachedBlocks, ∀ other < e.2.successors.length,
        e.2.successors[other]? = some ⟨1⟩ → e.1 = ⟨0⟩ ∧ other = 0 := by decide +kernel
    intro a k other reached found there
    exact edges (a, k) (Procedure.mem_reachedBlocks.mpr ⟨reached,found⟩) other (List.getElem?_eq_some_iff.mp there).1 there
  refine ⟨accepted,only,fun moves path => ?_⟩
  have read : (⟨0⟩, .inside 0) ∈ Block.reads { Block.new ⟨1⟩ with terminator := some (.ret (some ⟨0⟩)) } := by decide +kernel
  exact ((Procedure.accepted_invoke_result accepted reached found rfl).1 moves ⟨1⟩ _ 0 path normal read).2 only

/-- A function in which control comes from the landing pad of an invoke to a read of its result. -/
def rejoined : Procedure := .ofBlocks .i32 [
  { new ⟨0⟩ with terminator := some (.invoke (some ⟨0⟩) plainSite ⟨1⟩ ⟨2⟩) },
  { new ⟨1⟩ with terminator := some (.ret (some ⟨0⟩)) },
  { new ⟨2⟩ with instrs := [.landingPad ⟨1⟩], terminator := some (.branch ⟨1⟩) }]

/-- The check accepts the function although a path leads to the read over the unwind edge. -/
theorem rejoined_reads_without_normal_edge : rejoined.validate = [] ∧
    (∃ k, rejoined.graph.block? ⟨0⟩ = some k ∧ k.terminator = some (.invoke (some ⟨0⟩) plainSite ⟨1⟩ ⟨2⟩)) ∧
    ∃ k moves, rejoined.graph.block? ⟨1⟩ = some k ∧ (⟨0⟩, .inside 0) ∈ k.reads ∧ rejoined.graph.Path moves ⟨1⟩ 0 ∧ .edge ⟨0⟩ 0 ∉ moves := by
  have first : rejoined.graph.block? ⟨0⟩ = some { Block.new ⟨0⟩ with
    terminator := some (.invoke (some ⟨0⟩) plainSite ⟨1⟩ ⟨2⟩) } := by decide +kernel
  have normal : rejoined.graph.block? ⟨1⟩ = some { Block.new ⟨1⟩ with terminator := some (.ret (some ⟨0⟩)) } := by
    decide +kernel
  have pad : rejoined.graph.block? ⟨2⟩ = some { Block.new ⟨2⟩ with
    instrs := [.landingPad ⟨1⟩], terminator := some (.branch ⟨1⟩) } := by decide +kernel
  have unwound : rejoined.graph.Path [.head ⟨2⟩,.edge ⟨0⟩ 1,.head ⟨0⟩,.start] ⟨2⟩ 0 :=
    .edge .start first rfl (by decide +kernel)
  have landed := Graph.Path.instr unwound pad (by decide)
  have rejoins : rejoined.graph.Path (.head ⟨1⟩ :: .edge ⟨2⟩ 0 :: .instr ⟨2⟩ 0 ::
      [.head ⟨2⟩,.edge ⟨0⟩ 1,.head ⟨0⟩,.start]) ⟨1⟩ 0 := by
    refine .edge ?_ pad rfl (by decide +kernel)
    exact landed
  exact ⟨by decide +kernel,⟨_,first,rfl⟩,_,_,normal,by decide +kernel,rejoins,by decide⟩

end BlockLowering
