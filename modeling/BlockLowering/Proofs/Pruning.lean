import BlockLowering.Validation
import BlockLowering.Proofs.Dominance
import BlockLowering.Proofs.Labels
/-!
What the check of a function looks at. Blocks that are not reached, the edges from them, labels and locations
leave no trace in it: functions that agree on the reached blocks have one dominator tree and the same faults.
-/
namespace BlockLowering
open List DominatorTree Block Table BlockLowering.Graph Function Bool

namespace Graph
variable {g g' : Graph} {b x : BlockId}

/-- Graphs with the same reached blocks and the same edges between them. -/
structure SameFlow (g g' : Graph) : Prop where
  entry : g'.entry = g.entry
  edges : ∀ b, g.Reached b → g'.successors b = g.successors b ∧ g'.hasBlock b = g.hasBlock b

namespace SameFlow

section
variable (same : g.SameFlow g')
include same

theorem reached_iff : g'.Reached b ↔ g.Reached b := by
  constructor
  · intro reached
    induction reached with
    | entry => exact same.entry ▸ .entry
    | step _ edge ih => exact .step ih ((same.edges _ ih).1 ▸ edge)
  · intro reached
    induction reached with
    | entry => exact same.entry ▸ .entry
    | step before edge ih => exact .step ih ((same.edges _ before).1 ▸ edge)

theorem reversePostorder : g'.reversePostorder = g.reversePostorder := by
  obtain ⟨_,visits⟩ := g.visits_reversePostorder
  obtain ⟨_,visits'⟩ := g'.visits_reversePostorder
  refine ((visits.congr (P := g.Reached) (by simpa using .entry) fun b reached => ⟨?_,?_⟩).unique (same.entry ▸ visits')).2
  · unfold existing
    rw [(same.edges b reached).1]
    exact filter_congr fun x edge => (same.edges x (.step reached edge)).2
  · exact fun x edge => .step reached (mem_filter.mp edge).1

theorem compute : compute g' = compute g := by
  have targets : g.reversePostorder.map g'.successors = g.reversePostorder.map g.successors := by
    refine map_congr_left fun b inside => ?_
    exact (same.edges b ((g.listed_reversePostorder.mem b).mp inside).1).1
  unfold DominatorTree.compute DominatorTree.predecessorPositions
  dsimp only
  rw [same.reversePostorder,targets]

theorem contains_reachable (b : BlockId) : g'.reachable.contains b = g.reachable.contains b := by
  rw [Bool.eq_iff_iff,contains_iff_mem,contains_iff_mem,mem_reachable,mem_reachable,same.reached_iff]

end

end SameFlow

/-! ### Pruning -/

theorem sameFlow_prune (g : Graph) : g.SameFlow g.prune where
  entry := rfl
  edges b reached := by
    unfold successors hasBlock Table.contains
    rw [← block?,← block?,block?_prune,if_pos reached]
    cases g.block? b <;> exact ⟨rfl,rfl⟩

theorem sameFlow_unlabelled (g : Graph) : g.SameFlow g.unlabelled where
  entry := rfl
  edges b _ := by
    refine ⟨?_,hasBlock_unlabelled⟩
    unfold successors
    rw [block?_unlabelled]
    cases g.block? b <;> rfl

theorem entries_prune (g : Graph) : g.prune.blocks.entries =
    (g.blocks.entries.filter fun e => g.reachable.contains e.1).map fun e => (e.1, g.trimmed e.2) := rfl

theorem trimmed_eq (same : g.SameFlow g') : g'.trimmed = g.trimmed := by
  funext k
  simp only [trimmed,same.contains_reachable]

theorem trimmed_trimmed (g : Graph) (k : Block) : g.trimmed (g.trimmed k) = g.trimmed k := by
  simp [trimmed,keepPredecessors,filter_filter,comp_def]

theorem prune_prune (g : Graph) : g.prune.prune = g.prune := by
  have entries : g.prune.prune.blocks.entries = g.prune.blocks.entries := by
    rw [entries_prune g.prune,trimmed_eq g.sameFlow_prune,entries_prune g,filter_map,map_map]
    simp only [comp_def,g.sameFlow_prune.contains_reachable,filter_filter,Bool.and_self,trimmed_trimmed]
  have blocks : g.prune.prune.blocks = g.prune.blocks := Table.mk.injEq .. ▸ entries
  exact congrArg (fun blocks => { g.prune with blocks }) blocks

theorem prune_new : new.prune = .new := by decide

theorem unlabelled_prune (g : Graph) : g.prune.unlabelled = g.unlabelled.prune := by
  have entries : g.prune.unlabelled.blocks.entries = g.unlabelled.prune.blocks.entries := by
    rw [entries_prune g.unlabelled,trimmed_eq g.sameFlow_unlabelled]
    simp only [g.sameFlow_unlabelled.contains_reachable]
    show (g.prune.blocks.entries.map fun e => (e.1, e.2.unlabelled)) =
      ((g.blocks.entries.map fun e => (e.1, e.2.unlabelled)).filter fun e => g.reachable.contains e.1).map fun e => (e.1, g.trimmed e.2)
    rw [entries_prune,map_map,filter_map,map_map]
    rfl
  have blocks : g.prune.unlabelled.blocks = g.unlabelled.prune.blocks := Table.mk.injEq .. ▸ entries
  exact congrArg (fun blocks => { g with blocks }) blocks

end Graph

/-! ### The check -/

theorem Block.definitions_eq {k k' : Block} (instrs : k'.instrs = k.instrs) (terminator : k'.terminator = k.terminator)
    {keep : BlockId → Bool} (phis : k'.phis = k.phis.map fun phi => { phi with incoming := phi.incoming.filter fun edge => keep edge.1 })
    (b : BlockId) : k'.definitions b = k.definitions b := by
  rw [definitions,definitions,instrs,terminator,phis,map_map]
  rfl

namespace Validator
variable {v v' : Validator} {keep : BlockId → Bool} {F : Block → Block}

/-- A validator of a function whose reached blocks are those of another one, without some edges from blocks
    that are not reached. -/
structure Looks (v v' : Validator) (keep : BlockId → Bool) (F : Block → Block) : Prop where
  id : v'.procedure.id = v.procedure.id
  header : v'.procedure.header = v.procedure.header
  entry : v'.procedure.graph.entry = v.procedure.graph.entry
  tree : v'.tree = v.tree
  definitions : v'.definitions = v.definitions
  blocks : v'.blocks = v.blocks.map fun e => (e.1, F e.2)
  targets : ∀ e ∈ v.blocks, ∀ t ∈ e.2.successors, v'.procedure.graph.hasBlock t = v.procedure.graph.hasBlock t
  instrs : ∀ k, (F k).instrs = k.instrs
  terminator : ∀ k, (F k).terminator = k.terminator
  phis : ∀ k, (F k).phis = k.phis.map fun phi => { phi with incoming := phi.incoming.filter fun edge => keep edge.1 }
  keeps : ∀ b, v.tree.isReachable b = true → keep b = true

namespace Looks

section
variable (looks : v.Looks v' keep F)
include looks

theorem report (block : Option BlockId) (fault : Fault) : v'.report block fault = v.report block fault := by
  rw [Validator.report,Validator.report,looks.id]

theorem repeated (block : Option BlockId) (earlier : List Register) (definitions : List Definition) :
    v'.repeated block earlier definitions = v.repeated block earlier definitions := by
  induction definitions generalizing earlier with
  | nil => rfl
  | cons d rest ih => rw [Validator.repeated,Validator.repeated,ih,looks.report]

theorem successors (k : Block) : (F k).successors = k.successors := by
  rw [Block.successors,Block.successors,looks.terminator]

theorem definitions_block (b : BlockId) (k : Block) : (F k).definitions b = k.definitions b :=
  definitions_eq (looks.instrs k) (looks.terminator k) (looks.phis k) b

theorem shapeFaults (earlier : List Register) {blocks : List (BlockId × Block)} (inside : blocks ⊆ v.blocks) :
    v'.shapeFaults earlier (blocks.map fun e => (e.1, F e.2)) = v.shapeFaults earlier blocks := by
  induction blocks generalizing earlier with
  | nil => rfl
  | cons e rest ih =>
    have edges : (F e.2).successors.flatMap (v'.edgeFaults e.1) = e.2.successors.flatMap (v.edgeFaults e.1) := by
      rw [looks.successors]
      refine congrArg flatten (map_congr_left fun t target => ?_)
      rw [edgeFaults,edgeFaults,looks.targets e (inside (.head _)) t target,looks.entry,looks.report,looks.report]
    have rests := fun earlier => ih earlier fun _ h => inside (.tail _ h)
    have isOpen : (F e.2).isTerminated = e.2.isTerminated := by rw [isTerminated,looks.terminator,isTerminated]
    rw [map_cons,Validator.shapeFaults,Validator.shapeFaults,looks.definitions_block,looks.repeated,isOpen,looks.report,edges,rests]

theorem useFaults (block : BlockId) (available : Site → Bool) (register : Register) :
    v'.useFaults block available register = v.useFaults block available register := by
  rw [Validator.useFaults,Validator.useFaults,site?,site?,looks.definitions]
  simp only [looks.report]

theorem availableAt : v'.availableAt = v.availableAt := by
  funext block index site
  cases site <;> simp only [Validator.availableAt,looks.tree]

theorem availableOn : v'.availableOn = v.availableOn := by
  funext pred block site
  cases site <;> simp only [Validator.availableOn,looks.tree]

theorem predecessors (block : BlockId) : v'.predecessors block = v.predecessors block := by
  rw [Validator.predecessors,Validator.predecessors,looks.blocks,filter_map,map_map]
  congr 1
  refine filter_congr fun e _ => ?_
  simp only [comp_apply,looks.successors]

theorem incomingFaults (block : BlockId) (phi : Register) (preds seen : List BlockId) (incoming : List (BlockId × Register)) :
    v'.incomingFaults block phi preds seen (incoming.filter fun edge => keep edge.1) = v.incomingFaults block phi preds seen incoming := by
  induction incoming generalizing seen with
  | nil =>
    simp only [filter_nil,Validator.incomingFaults,looks.report]
  | cons edge rest ih =>
    by_cases reached : v.tree.isReachable edge.1 = true
    · rw [filter_cons_of_pos (by exact looks.keeps _ reached),Validator.incomingFaults,Validator.incomingFaults,looks.tree,
        ih,ih,looks.report,looks.report,looks.useFaults,looks.availableOn]
    · have skip : v.incomingFaults block phi preds seen (edge :: rest) = v.incomingFaults block phi preds seen rest := by
        simp [Validator.incomingFaults,reached]
      rw [skip,← ih,filter_cons]
      split
      · simp [Validator.incomingFaults,looks.tree,reached]
      · rfl

theorem blockFaults (block : BlockId) (k : Block) : v'.blockFaults block (F k) = v.blockFaults block k := by
  have phis : (F k).phis.flatMap (fun phi => v'.incomingFaults block phi.dest (v'.predecessors block) [] phi.incoming) =
      k.phis.flatMap fun phi => v.incomingFaults block phi.dest (v.predecessors block) [] phi.incoming := by
    rw [looks.phis,flatMap_map,looks.predecessors]
    exact congrArg flatten (map_congr_left fun phi _ => looks.incomingFaults _ _ _ _ _)
  have uses : ∀ index (registers : List Register), registers.flatMap (v'.useFaults block (v'.availableAt block index)) =
      registers.flatMap (v.useFaults block (v.availableAt block index)) := by
    intro index registers
    rw [looks.availableAt]
    exact congrArg flatten (map_congr_left fun r _ => looks.useFaults _ _ r)
  have calls : ∀ site, v'.callFaults block site = v.callFaults block site := by
    intro site
    rw [callFaults,callFaults,looks.report]
  have instrs : (fun entry : Instr × Nat => v'.instrFaults block entry.2 entry.1) = fun entry => v.instrFaults block entry.2 entry.1 := by
    funext entry
    obtain ⟨i,index⟩ := entry
    cases i <;> simp only [instrFaults,uses,calls]
  have ending : v'.terminatorFaults block k.instrs.length = v.terminatorFaults block k.instrs.length := by
    funext t
    cases t <;> simp only [terminatorFaults,uses,calls,looks.header,looks.report]
  rw [Validator.blockFaults,Validator.blockFaults,phis,looks.instrs,looks.terminator,instrs,ending]

theorem faults : v'.faults = v.faults := by
  rw [Validator.faults,Validator.faults,looks.header,looks.repeated,looks.blocks,looks.shapeFaults _ (Subset.refl _),flatMap_map]
  congr 1
  exact congrArg List.flatten (map_congr_left fun e _ => looks.blockFaults e.1 e.2)

end

end Looks

end Validator

namespace Procedure
variable {p p' : Procedure}

theorem reached_of_isReachable {g : Graph} {b : BlockId} (reachable : (compute g).isReachable b = true) : g.Reached b :=
  ((g.listed_reversePostorder.mem b).mp (contains_iff_mem.mp reachable)).1

/-- The check finds the same in functions whose reached blocks differ in labels, locations and edges from blocks
    that are not reached. -/
theorem validate_congr (keep : BlockId → Bool) (F : Block → Block) (id : p'.id = p.id) (header : p'.header = p.header)
    (same : p.graph.SameFlow p'.graph) (blocks : (p'.graph.blocks.entries.filter fun e => (compute p.graph).isReachable e.1) =
      (p.graph.blocks.entries.filter fun e => (compute p.graph).isReachable e.1).map fun e => (e.1, F e.2))
    (instrs : ∀ k, (F k).instrs = k.instrs) (terminator : ∀ k, (F k).terminator = k.terminator)
    (phis : ∀ k, (F k).phis = k.phis.map fun phi => { phi with incoming := phi.incoming.filter fun edge => keep edge.1 })
    (keeps : ∀ b, p.graph.Reached b → keep b = true) : p'.validate = p.validate := by
  have blocks : (Validator.new p').blocks = (Validator.new p).blocks.map fun e => (e.1, F e.2) := by
    show (p'.graph.blocks.entries.filter fun e => (compute p'.graph).isReachable e.1) = _
    rw [same.compute]
    exact blocks
  have definitions : ∀ b k, (F k).definitions b = k.definitions b := fun b k =>
    definitions_eq (instrs k) (terminator k) (phis k) b
  refine Validator.Looks.faults (F := F) ⟨id,header,same.entry,same.compute,?_,blocks,?_,instrs,terminator,phis,?_⟩
  · show p'.header.parameters.map _ ++ (Validator.new p').blocks.flatMap _ = p.header.parameters.map _ ++ (Validator.new p).blocks.flatMap _
    rw [blocks,header,flatMap_map]
    simp only [definitions]
  · intro e inside t target
    obtain ⟨member,reachable⟩ := mem_filter.mp inside
    have found : p.graph.block? e.1 = some e.2 := mem_entries_iff.mp member
    refine (same.edges t (.step (reached_of_isReachable reachable) ?_)).2
    rwa [successors_of_block found]
  · exact fun b reachable => keeps b (reached_of_isReachable reachable)

theorem validate_pruned (p : Procedure) : p.pruned.validate = p.validate := by
  refine validate_congr (fun b => p.graph.reachable.contains b) p.graph.trimmed rfl rfl p.graph.sameFlow_prune ?_ (fun _ => rfl)
    (fun _ => rfl) (fun _ => rfl) fun b reached => contains_iff_mem.mpr (mem_reachable.mpr reached)
  show p.graph.prune.blocks.entries.filter _ = _
  rw [entries_prune,filter_map,filter_filter]
  refine congrArg _ (filter_congr fun e _ => ?_)
  simp only [comp_apply,and_eq_left_iff_imp]
  exact fun reachable => contains_iff_mem.mpr (mem_reachable.mpr (reached_of_isReachable reachable))

theorem contains_reachable_iff {g : Graph} {b : BlockId} (exist : g.hasBlock b = true) :
    g.reachable.contains b = (compute g).isReachable b := by
  rw [Bool.eq_iff_iff,contains_iff_mem,mem_reachable,isReachable_compute]
  exact ⟨fun reached => ⟨reached,.inr exist⟩,fun visited => visited.1⟩

theorem keys_prune (g : Graph) : g.prune.blocks.keys = g.blocks.keys.filter (compute g).isReachable := by
  have kept : g.prune.blocks.keys = g.blocks.keys.filter fun b => g.reachable.contains b := by
    unfold Table.keys
    rw [entries_prune,map_map,filter_map]
    rfl
  rw [kept]
  refine filter_congr fun b inside => contains_reachable_iff (contains_iff.mpr ?_)
  exact mem_keys_iff.mp inside

theorem prunedCount_eq (g : Graph) : g.prunedCount = (g.blocks.keys.filter fun b => !(compute g).isReachable b).length := by
  have size : ∀ t : Table BlockId Block, t.size = t.keys.length := fun t => (length_map ..).symm
  rw [prunedCount,size,size,keys_prune]
  have parts := length_eq_countP_add_countP (l := g.blocks.keys) (compute g).isReachable
  simp only [countP_eq_length_filter,not_eq_true,decide_eq_false] at parts
  omega

/-- Pruning drops exactly the blocks that the dominator tree does not have and counts them. The other blocks keep
    their order and all they hold but the edges from blocks that are not reached, and no edge names a block that
    was dropped. Pruning again changes nothing; the check finds the same faults and the tree is the same. -/
theorem pruned_exact (p : Procedure) : p.pruned.graph.blocks.keys = p.graph.blocks.keys.filter (DominatorTree.compute p.graph).isReachable ∧
    p.graph.prunedCount = (p.graph.blocks.keys.filter fun b => !(DominatorTree.compute p.graph).isReachable b).length ∧
    (∀ b k, p.graph.block? b = some k → (DominatorTree.compute p.graph).isReachable b = true → p.pruned.graph.block? b = some { k with
        predecessors := k.predecessors.filter fun a => p.graph.Reached a
        phis := k.phis.map fun phi => { phi with incoming := phi.incoming.filter fun edge => p.graph.Reached edge.1 } }) ∧
    (∀ b k a, p.pruned.graph.block? b = some k → p.graph.hasBlock a = true → p.pruned.graph.hasBlock a = false →
      a ∉ k.predecessors ∧ ∀ phi ∈ k.phis, a ∉ phi.incoming.map Prod.fst) ∧
    p.pruned.pruned = p.pruned ∧
    p.pruned.validate = p.validate ∧
    DominatorTree.compute p.pruned.graph = DominatorTree.compute p.graph := by
  have kept : ∀ a, p.graph.reachable.contains a = decide (p.graph.Reached a) := by
    intro a
    rw [Bool.eq_iff_iff,contains_iff_mem,Graph.mem_reachable,decide_eq_true_iff]
  have pruned : ∀ b k, p.graph.block? b = some k → p.graph.Reached b → p.pruned.graph.block? b = some { k with
      predecessors := k.predecessors.filter fun a => p.graph.Reached a
      phis := k.phis.map fun phi => { phi with incoming := phi.incoming.filter fun edge => p.graph.Reached edge.1 } } := by
    intro b k found reached
    refine (Graph.prune_of_exists reached found).trans ?_
    simp only [Graph.trimmed,Block.keepPredecessors,kept]
  refine ⟨keys_prune _,prunedCount_eq _,fun b k found reachable => pruned b k found (reached_of_isReachable reachable),
    fun b k a found exist dropped => ?_,?_,p.validate_pruned,p.graph.sameFlow_prune.compute⟩
  · obtain ⟨reached,k₀,there,-⟩ := Graph.exists_of_prune found
    obtain rfl := Option.some.inj ((pruned b k₀ there reached).symm.trans found)
    have unreached : ¬ p.graph.Reached a := by
      intro reachedA
      have still := (p.graph.sameFlow_prune.edges a reachedA).2
      exact absurd (still.trans exist) (Bool.eq_false_iff.mp dropped)
    refine ⟨fun inside => unreached (of_decide_eq_true (mem_filter.mp inside).2),fun phi inside named => ?_⟩
    obtain ⟨phi₀,-,rfl⟩ := mem_map.mp inside
    obtain ⟨edge,inside,rfl⟩ := mem_map.mp named
    exact unreached (of_decide_eq_true (mem_filter.mp inside).2)
  · show { p with graph := p.graph.prune.prune } = { p with graph := p.graph.prune }
    rw [p.graph.prune_prune]

theorem keep_all (phis : List Phi) : phis = phis.map fun phi => { phi with incoming := phi.incoming.filter fun _ => true } := by
  have each : ∀ phi : Phi, { phi with incoming := phi.incoming.filter fun _ => true } = phi := by
    intro phi
    rw [filter_eq_self.mpr fun _ _ => rfl]
  rw [funext each,map_id']

theorem validate_unlabelled (p : Procedure) : p.unlabelled.validate = p.validate := by
  refine validate_congr (fun _ => true) Block.unlabelled rfl rfl p.graph.sameFlow_unlabelled ?_ (fun _ => rfl) (fun _ => rfl)
    (fun k => keep_all k.phis) fun _ _ => rfl
  show (p.graph.blocks.entries.map _).filter _ = _
  rw [filter_map]
  rfl

end Procedure

end BlockLowering
