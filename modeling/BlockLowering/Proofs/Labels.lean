import BlockLowering.Proofs.Effects
/-!
Functions without labels. Nothing that construction does to a function looks at the labels of its blocks:
every operation gives the same function without labels whether or not there were labels before.
-/
namespace BlockLowering
open Table List

namespace Table
variable {κ α β γ : Type}
variable {t : Table κ α} {k : κ} {f : α → β}

theorem mapValues_mapValues (t : Table κ α) (f : α → β) (g : β → γ) : (t.mapValues f).mapValues g = t.mapValues fun v => g (f v) := by
  simp [mapValues]

variable [DecidableEq κ]

theorem mapValues_modify {f : α → α} {g : α → β} {f' : β → β} (same : ∀ v, g (f v) = f' (g v)) :
    (t.modify k f).mapValues g = (t.mapValues g).modify k f' := by
  simp only [mapValues,modify,Table.mk.injEq,map_map]
  refine map_congr_left fun e _ => ?_
  by_cases here : e.1 = k <;> simp [here,same]

theorem mapValues_modify_hidden {f : α → α} {g : α → β} (hidden : ∀ v, g (f v) = g v) : (t.modify k f).mapValues g = t.mapValues g := by
  rw [mapValues_modify (show ∀ v, g (f v) = id (g v) from hidden)]
  simp [modify]

private theorem map_put {v : α} {es : List (κ × α)} :
    (put k v es).map (fun e => (e.1, f e.2)) = put k (f v) (es.map fun e => (e.1, f e.2)) := by
  induction es with
  | nil => rfl
  | cons e rest ih => by_cases here : e.1 = k <;> simp [put,here,ih]

theorem mapValues_insert {v : α} : (t.insert k v).mapValues f = (t.mapValues f).insert k (f v) := by
  simp only [mapValues,insert,mk.injEq]
  exact map_put

theorem contains_mapValues {x : κ} : (t.mapValues f).contains x = t.contains x := by
  simp [contains]

end Table

def Block.unlabelled (b : Block) : Block := { b with label := none }

theorem Block.unlabelled_addPredecessor (k : Block) (b : BlockId) : (k.addPredecessor b).unlabelled = k.unlabelled.addPredecessor b := by
  unfold addPredecessor
  by_cases old : b ∈ k.predecessors
  · rw [if_pos old,if_pos (show b ∈ k.unlabelled.predecessors from old)]
  · rw [if_neg old,if_neg (show b ∉ k.unlabelled.predecessors from old)]
    rfl

def Graph.unlabelled (g : Graph) : Graph := { g with blocks := g.blocks.mapValues Block.unlabelled }

def Procedure.unlabelled (p : Procedure) : Procedure := p.modifyGraph Graph.unlabelled

namespace Graph
variable {g : Graph} {b : BlockId}

theorem block?_unlabelled : g.unlabelled.block? b = (g.block? b).map Block.unlabelled := get?_mapValues

theorem hasBlock_unlabelled : g.unlabelled.hasBlock b = g.hasBlock b := contains_mapValues

theorem unlabelled_modifyBlock {f : Block → Block} (same : ∀ k : Block, (f k).unlabelled = f k.unlabelled) :
    (g.modifyBlock b f).unlabelled = g.unlabelled.modifyBlock b f := by
  simp only [unlabelled,modifyBlock,mapValues_modify same]

theorem unlabelled_createBlock : g.createBlock.2.unlabelled = g.unlabelled.createBlock.2 := by
  simp only [unlabelled,createBlock,mapValues_insert]
  rfl

theorem unlabelled_connectAll {targets : List BlockId} : (g.connectAll b targets).unlabelled = g.unlabelled.connectAll b targets := by
  induction targets generalizing g with
  | nil => rfl
  | cons target rest ih =>
    show ((g.connect b target).connectAll b rest).unlabelled = (g.unlabelled.connect b target).connectAll b rest
    rw [ih,connect,unlabelled_modifyBlock fun k => k.unlabelled_addPredecessor b]
    rfl

theorem unlabelled_close {t : Terminator} : (g.close b t).unlabelled = g.unlabelled.close b t := by
  have same : ∀ k : Block, (k.endWith t).unlabelled = k.unlabelled.endWith t := fun _ => rfl
  rw [close,unlabelled_connectAll,unlabelled_modifyBlock same]
  rfl

end Graph

namespace Procedure
variable {p : Procedure} {b : BlockId}

theorem block?_unlabelled : p.unlabelled.graph.block? b = (p.graph.block? b).map Block.unlabelled := Graph.block?_unlabelled

theorem unlabelled_modifyBlock {f : Block → Block} (same : ∀ k : Block, (f k).unlabelled = f k.unlabelled) :
    (p.modifyBlock b f).unlabelled = p.unlabelled.modifyBlock b f := by
  show { p with graph := (p.graph.modifyBlock b f).unlabelled } = { p with graph := p.graph.unlabelled.modifyBlock b f }
  rw [Graph.unlabelled_modifyBlock same]

theorem unlabelled_relabel {label : Option String} : (p.modifyBlock b fun k => { k with label }).unlabelled = p.unlabelled := by
  have hidden : (p.graph.blocks.modify b fun k => { k with label }).mapValues Block.unlabelled =
      p.graph.blocks.mapValues Block.unlabelled := mapValues_modify_hidden fun _ => rfl
  show { p with graph := { p.graph with blocks := (p.graph.blocks.modify b _).mapValues Block.unlabelled } } = _
  rw [hidden]
  rfl

theorem unlabelled_createBlock : p.createBlock.unlabelled = p.unlabelled.createBlock := by
  show { p with graph := p.graph.createBlock.2.unlabelled } = { p with graph := p.graph.unlabelled.createBlock.2 }
  rw [Graph.unlabelled_createBlock]

theorem unlabelled_close {t : Terminator} : (p.close b t).unlabelled = p.unlabelled.close b t := by
  show { p with graph := (p.graph.close b t).unlabelled } = { p with graph := p.graph.unlabelled.close b t }
  rw [Graph.unlabelled_close]

theorem unlabelled_allocRegister {type : NativeType} : (p.allocRegister type).2.unlabelled = (p.unlabelled.allocRegister type).2 := rfl

end Procedure

end BlockLowering
