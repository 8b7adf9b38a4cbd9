import BlockLowering.Proofs.Construction
import BlockLowering.Proofs.DepthFirst
/-!
Pruned functions. The blocks to which no path leads from the entry are dropped, and a function stays sound.
-/
namespace BlockLowering
open List BlockLowering.Graph Block

namespace Graph
variable {g : Graph} {x : BlockId} {k : Block}

abbrev trimmed (g : Graph) (k : Block) : Block := k.keepPredecessors fun id => g.reachable.contains id

theorem block?_prune : g.prune.block? x = if g.Reached x then (g.block? x).map g.trimmed else none := by
  show ((g.blocks.filterKeys _).mapValues _).get? x = _
  rw [Table.get?_mapValues,Table.get?_filterKeys]
  by_cases reached : g.Reached x
  · rw [if_pos reached,if_pos (contains_iff_mem.mpr (mem_reachable.mpr reached))]
    rfl
  · rw [if_neg reached,if_neg fun kept => reached (mem_reachable.mp (contains_iff_mem.mp kept))]
    rfl

theorem exists_of_prune (found : g.prune.block? x = some k) : g.Reached x ∧ ∃ k₀, g.block? x = some k₀ ∧ k = g.trimmed k₀ := by
  rw [block?_prune] at found
  split at found
  · obtain ⟨k₀,there,rfl⟩ := Option.map_eq_some_iff.mp found
    exact ⟨‹_›,k₀,there,rfl⟩
  · cases found

theorem prune_of_exists (reached : g.Reached x) (found : g.block? x = some k) : g.prune.block? x = some (g.trimmed k) := by
  rw [block?_prune,if_pos reached,found,Option.map_some]

theorem Wired.prune (wired : Wired g) : Wired g.prune where
  entry := by
    obtain ⟨k,found,bare⟩ := wired.entry
    exact ⟨g.trimmed k,prune_of_exists .entry found,by simp [trimmed,keepPredecessors,bare]⟩
  inner found target := by
    obtain ⟨-,k₀,there,rfl⟩ := exists_of_prune found
    exact wired.inner there target
  reached _ {b k t} found target := by
    obtain ⟨reached,k₀,there,rfl⟩ := exists_of_prune found
    obtain ⟨k',found',inside⟩ := wired.reached trivial there target
    have next : g.Reached t := .step reached (by rwa [successors_of_block there])
    refine ⟨g.trimmed k',prune_of_exists next found',mem_filter.mpr ⟨inside,?_⟩⟩
    exact contains_iff_mem.mpr (mem_reachable.mpr reached)
  sources {b k a} found inside := by
    obtain ⟨-,k₀,there,rfl⟩ := exists_of_prune found
    obtain ⟨inside,kept⟩ := mem_filter.mp inside
    obtain ⟨k',found',target⟩ := wired.sources there inside
    exact ⟨g.trimmed k',prune_of_exists (mem_reachable.mp (contains_iff_mem.mp kept)) found',target⟩
  distinct found := by
    obtain ⟨-,k₀,there,rfl⟩ := exists_of_prune found
    exact (wired.distinct there).filter _
  merges {b k phi} found inside := by
    obtain ⟨-,k₀,there,rfl⟩ := exists_of_prune found
    obtain ⟨phi₀,inside₀,rfl⟩ := mem_map.mp inside
    show (phi₀.incoming.filter fun edge => g.reachable.contains edge.1).map Prod.fst = k₀.predecessors.filter _
    rw [← wired.merges there inside₀,filter_map]
    rfl
  numbered found := by
    obtain ⟨-,k₀,there,-⟩ := exists_of_prune found
    exact wired.numbered there

end Graph

namespace Procedure
variable {supply : Supply} {p : Procedure}

abbrev pruned (p : Procedure) : Procedure := p.modifyGraph prune

theorem defs_trimmed (g : Graph) (k : Block) : (g.trimmed k).defs = k.defs := by
  simp [defs,trimmed,keepPredecessors,map_map,Function.comp_def]

theorem slots_pruned (sound : Sound supply p) : p.pruned.slots = p.slots := by
  obtain ⟨k,found⟩ := sound.entry
  have kept : p.graph.prune.block? p.graph.entry = some (p.graph.trimmed k) := prune_of_exists .entry found
  show ((p.graph.prune.block? p.graph.entry).map Block.slots).getD [] = _
  rw [kept,slots,found]
  rfl

theorem Holds.pruned {b : BlockId} {k : Block} {before : List Instr} {r : Register} (sound : Sound supply p)
    (holds : Holds supply p b k before r) : Holds supply p.pruned b (p.graph.trimmed k) before r := by
  refine holds.mono rfl (slots_pruned sound ▸ fun _ h => h) ?_ fun _ h => h
  simp [trimmed,keepPredecessors,map_map,Function.comp_def]

theorem Sound.pruned (sound : Sound supply p) : Sound supply p.pruned where
  wired := sound.wired.prune
  numbered := {
    single := fun found => by
      obtain ⟨-,k,there,rfl⟩ := exists_of_prune found
      rw [defs_trimmed]
      exact sound.numbered.single there
    separate := fun found found' inside inside' => by
      obtain ⟨-,k,there,rfl⟩ := exists_of_prune found
      obtain ⟨-,k',there',rfl⟩ := exists_of_prune found'
      rw [defs_trimmed] at inside inside'
      exact sound.numbered.separate there there' inside inside'
    defined := fun found inside => by
      obtain ⟨-,k,there,rfl⟩ := exists_of_prune found
      rw [defs_trimmed] at inside
      exact sound.numbered.defined there inside
    inputs := sound.numbered.inputs
    bounded := sound.numbered.bounded
    typed := sound.numbered.typed
    headed := fun found => by
      obtain ⟨-,k,there,rfl⟩ := exists_of_prune found
      have headed := sound.numbered.headed there
      exact headed }
  supplied := {
    operands := fun found code use => by
      obtain ⟨-,k,there,rfl⟩ := exists_of_prune found
      exact (sound.supplied.operands there code use).pruned sound
    endings := fun found ended use => by
      obtain ⟨-,k,there,rfl⟩ := exists_of_prune found
      exact (sound.supplied.endings there ended use).pruned sound
    edges := fun found ended target counted => by
      obtain ⟨-,k,there,rfl⟩ := exists_of_prune found
      exact (sound.supplied.edges there ended target counted).imp_left fun holds => holds.pruned sound
    merged := fun {b k phi a r} found inside edge => by
      obtain ⟨-,k₀,there,rfl⟩ := exists_of_prune found
      obtain ⟨phi₀,inside₀,rfl⟩ := mem_map.mp inside
      obtain ⟨edge,kept⟩ := mem_filter.mp edge
      obtain ⟨k',found',holds⟩ := sound.supplied.merged there inside₀ edge
      exact ⟨_,prune_of_exists (mem_reachable.mp (contains_iff_mem.mp kept)) found',
        holds.pruned sound⟩
    first := sound.supplied.first
    apart := fun found counted => by
      obtain ⟨-,k,there,rfl⟩ := exists_of_prune found
      rw [defs_trimmed]
      exact sound.supplied.apart there counted
    bounded := fun found counted => by
      obtain ⟨-,k,there,-⟩ := exists_of_prune found
      exact sound.supplied.bounded there counted }

end Procedure

end BlockLowering
