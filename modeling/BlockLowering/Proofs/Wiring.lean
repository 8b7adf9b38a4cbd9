import BlockLowering.Builder
import BlockLowering.Proofs.Tables
/-!
Wiring of control flow graphs. The edges that terminators name, the predecessors that blocks record and
the edges of phis are three accounts of one thing; a graph is wired when they agree. Each operation on
graphs that construction uses is shown to keep them in agreement, in the situations it is used in.
-/
namespace BlockLowering
open List Option Block Table Prod
variable {b k : Block} {f : Block → Block} {F : BlockId → Block → Block}

namespace Block

def endWith (b : Block) (t : Terminator) : Block := { b with terminator := some t }

/-- What becomes of block `x` when block `b` ends. -/
def whenClosed (b : BlockId) (t : Terminator) (x : BlockId) (k : Block) : Block :=
  { k with
    terminator := if x = b then some t else k.terminator
    predecessors := if x ∈ t.successors then (k.addPredecessor b).predecessors else k.predecessors }

def addIncoming (b : Block) (dest : Register) (edge : BlockId × Register) : Block :=
  { b with phis := Build.withIncoming dest edge b.phis }

theorem mem_addPredecessor {pred x : BlockId} : x ∈ (b.addPredecessor pred).predecessors ↔ x ∈ b.predecessors ∨ x = pred := by
  unfold addPredecessor
  split
  · rename_i old
    constructor
    · exact Or.inl
    · rintro (inside | rfl)
      · exact inside
      · exact old
  · simp

theorem nodup_addPredecessor (pred : BlockId) (distinct : b.predecessors.Nodup) :
    (b.addPredecessor pred).predecessors.Nodup := by
  unfold addPredecessor
  split
  · exact distinct
  · rename_i new
    refine nodup_append.mpr ⟨distinct,by simp,?_⟩
    intro x inside y single same
    obtain rfl := mem_singleton.mp single
    exact new (same ▸ inside)

theorem addPredecessor_idem (b : Block) (pred : BlockId) : (b.addPredecessor pred).addPredecessor pred = b.addPredecessor pred := by
  have inside : pred ∈ (b.addPredecessor pred).predecessors := mem_addPredecessor.mpr (.inr rfl)
  rw [addPredecessor,if_pos inside]

end Block

namespace Graph
variable {g g' : Graph} {b t x : BlockId} {k k' : Block}
variable {drawn : List BlockId} {end' : Terminator}

theorem block?_modifyBlock :
    (g.modifyBlock b f).block? x = if x = b then (g.block? x).map f else g.block? x := get?_modify

/-- Each block of the second graph is the one of the first, changed on its own. -/
def Image (F : BlockId → Block → Block) (g g' : Graph) : Prop := ∀ x, g'.block? x = (g.block? x).map (F x)

theorem Image.new (image : g.Image F g') (found : g.block? x = some k) : g'.block? x = some (F x k) := by
  rw [image,found]
  rfl

theorem Image.old (image : g.Image F g') (found : g'.block? x = some k') :
    ∃ k, g.block? x = some k ∧ F x k = k' := Option.map_eq_some_iff.mp (image x ▸ found)

theorem block?_createBlock : g.createBlock.2.block? x = if x = ⟨g.nextBlock⟩ then some (Block.new ⟨g.nextBlock⟩) else g.block? x :=
  get?_insert

theorem block?_modifyBlock' : (g.modifyBlock b f).block? x = (g.block? x).map fun k => if x = b then f k else k := by
  rw [block?_modifyBlock]
  by_cases here : x = b <;> simp [here]

theorem block?_createBlock_cases (found : g.createBlock.2.block? x = some k) :
    x = ⟨g.nextBlock⟩ ∧ k = Block.new ⟨g.nextBlock⟩ ∨ g.block? x = some k := by
  rw [block?_createBlock] at found
  split at found
  · exact .inl ⟨‹_›,(Option.some.inj found).symm⟩
  · exact .inr found

theorem successors_of_block (found : g.block? b = some k) : g.successors b = k.successors := by
  simp [successors,found]

theorem exists_block_of_edge (edge : x ∈ g.successors b) : ∃ k, g.block? b = some k ∧ x ∈ k.successors := by
  cases found : g.block? b with
  | none => simp [successors,found] at edge
  | some k => exact ⟨k,rfl,successors_of_block found ▸ edge⟩

def connectAll (g : Graph) (source : BlockId) (targets : List BlockId) : Graph :=
  targets.foldl (fun g target => g.connect source target) g

theorem block?_connectAll : (g.connectAll b drawn).block? x = (g.block? x).map fun k => if x ∈ drawn then k.addPredecessor b else k := by
  induction drawn generalizing g with
  | nil => simp [connectAll]
  | cons target rest ih =>
    show ((g.connect b target).connectAll b rest).block? x = _
    rw [ih,connect,block?_modifyBlock]
    by_cases here : x = target
    · subst here
      cases g.block? x with
      | none => simp
      | some k => by_cases again : x ∈ rest <;> simp [again,addPredecessor_idem]
    · simp [here]

@[simp] theorem entry_modifyBlock : (g.modifyBlock b f).entry = g.entry := rfl

@[simp] theorem entry_connectAll : (g.connectAll b drawn).entry = g.entry := by
  induction drawn generalizing g with
  | nil => rfl
  | cons target rest ih => exact (ih (g := g.connect b target)).trans rfl

@[simp] theorem nextBlock_connectAll : (g.connectAll b drawn).nextBlock = g.nextBlock := by
  induction drawn generalizing g with
  | nil => rfl
  | cons target rest ih => exact (ih (g := g.connect b target)).trans rfl

def close (g : Graph) (b : BlockId) (t : Terminator) : Graph :=
  (g.modifyBlock b fun k => k.endWith t).connectAll b t.successors

theorem block?_close : (g.close b end').block? x = (g.block? x).map (whenClosed b end' x) := by
  rw [close,block?_connectAll,block?_modifyBlock]
  cases g.block? x with
  | none => by_cases here : x = b <;> simp [here]
  | some k =>
    unfold whenClosed endWith addPredecessor
    by_cases here : x = b
    · subst here
      by_cases reached : x ∈ end'.successors <;> by_cases old : x ∈ k.predecessors <;> simp [reached,old]
    · by_cases reached : x ∈ end'.successors <;> by_cases old : b ∈ k.predecessors <;>
        simp [here,reached,old]

@[simp] theorem entry_close : (g.close b end').entry = g.entry := entry_connectAll

@[simp] theorem nextBlock_close : (g.close b end').nextBlock = g.nextBlock :=
  nextBlock_connectAll

/-- Predecessors are recorded once and rightly, and all of them if the record is complete. -/
structure Recorded (g : Graph) (complete : Prop) : Prop where
  sources : ∀ {b k a}, g.block? b = some k → a ∈ k.predecessors → ∃ k', g.block? a = some k' ∧ b ∈ k'.successors
  distinct : ∀ {b k}, g.block? b = some k → k.predecessors.Nodup
  reached : complete → ∀ {b k t}, g.block? b = some k → t ∈ k.successors → ∃ k', g.block? t = some k' ∧ b ∈ k'.predecessors
  numbered : ∀ {b k}, g.block? b = some k → b.index < g.nextBlock

namespace Recorded
variable {g' : Graph} {complete complete' : Prop} {k k₀ : Block}

section
variable (recorded : g.Recorded complete)
include recorded

theorem weaken (weaker : complete' → complete) : g.Recorded complete' :=
  ⟨recorded.sources,recorded.distinct,fun sure => recorded.reached (weaker sure),recorded.numbered⟩

theorem fresh_absent : g.block? ⟨g.nextBlock⟩ = none := by
  cases found : g.block? ⟨g.nextBlock⟩ with
  | none => rfl
  | some k => exact absurd (recorded.numbered found) (Nat.lt_irrefl _)

theorem kept (found : g.block? b = some k) : g.createBlock.2.block? b = some k := by
  rw [block?_createBlock,if_neg,found]
  rintro rfl
  simp [recorded.fresh_absent] at found

theorem create : g.createBlock.2.Recorded complete := by
  refine ⟨fun found inside => ?_,fun found => ?_,fun sure {b k t} found inside => ?_,fun found => ?_⟩
  · rcases block?_createBlock_cases found with ⟨-,rfl⟩ | found
    · simp [Block.new] at inside
    · obtain ⟨k',source,edge⟩ := recorded.sources found inside
      exact ⟨k',recorded.kept source,edge⟩
  · rcases block?_createBlock_cases found with ⟨-,rfl⟩ | found
    · exact nodup_nil
    · exact recorded.distinct found
  · rcases block?_createBlock_cases found with ⟨-,rfl⟩ | found
    · simp [Block.successors,Block.new] at inside
    · obtain ⟨k',target,edge⟩ := recorded.reached sure found inside
      exact ⟨k',recorded.kept target,edge⟩
  · rcases block?_createBlock_cases found with ⟨rfl,-⟩ | found
    · exact Nat.lt_succ_self _
    · exact Nat.lt_succ_of_lt (recorded.numbered found)

theorem modify
    (keeps : ∀ k, (f k).predecessors = k.predecessors ∧ (f k).terminator = k.terminator) : (g.modifyBlock b f).Recorded complete := by
  have same : ∀ x k, (if x = b then f k else k).predecessors = k.predecessors ∧
      (if x = b then f k else k).successors = k.successors := by
    intro x k
    split
    · exact ⟨(keeps k).1,by rw [Block.successors,(keeps k).2]; rfl⟩
    · exact ⟨rfl,rfl⟩
  have new : ∀ {x k}, g.block? x = some k → (g.modifyBlock b f).block? x = some (if x = b then f k else k) := fun found => by
    rw [block?_modifyBlock',found]
    rfl
  refine ⟨fun {x _ _} found inside => ?_,fun {x _} found => ?_,fun sure {x _ _} found inside => ?_,fun {x _} found => ?_⟩ <;>
    obtain ⟨k,before,rfl⟩ := map_eq_some_iff.mp (block?_modifyBlock' ▸ found)
  · obtain ⟨k',source,edge⟩ := recorded.sources before ((same x k).1 ▸ inside)
    exact ⟨_,new source,(same _ k').2.symm ▸ edge⟩
  · exact (same x k).1.symm ▸ recorded.distinct before
  · obtain ⟨k',target,edge⟩ := recorded.reached sure before ((same x k).2 ▸ inside)
    exact ⟨_,new target,(same _ k').1.symm ▸ edge⟩
  · exact recorded.numbered before

theorem not_source {k' : Block} (found : g.block? b = some k)
    (isOpen : k.terminator = none) (target : g.block? t = some k') : b ∉ k'.predecessors := by
  intro inside
  obtain ⟨k₀,found₀,edge⟩ := recorded.sources target inside
  obtain rfl := mem_unique found found₀
  simp [Block.successors,isOpen] at edge

theorem close (found : g.block? b = some k₀) (isOpen : k₀.terminator = none)
    (aimed : complete' → complete ∧ ∀ x ∈ end'.successors, (g.block? x).isSome = true) : (g.close b end').Recorded complete' := by
  have new : ∀ {x k}, g.block? x = some k → (g.close b end').block? x = some (whenClosed b end' x k) := fun found => by
    rw [block?_close,found]
    rfl
  have edges : ∀ x k, (whenClosed b end' x k).successors = if x = b then end'.successors else k.successors := fun x k => by
    by_cases here : x = b <;> simp [Block.successors,whenClosed,here]
  have preds : ∀ {x a k}, a ∈ (whenClosed b end' x k).predecessors ↔ a ∈ k.predecessors ∨ a = b ∧ x ∈ end'.successors := by
    intro x a k
    unfold whenClosed
    by_cases reached : x ∈ end'.successors <;> simp [reached,mem_addPredecessor]
  refine ⟨fun {x _ a} changed inside => ?_,fun {x _} changed => ?_,fun sure {x _ t} changed inside => ?_,fun {x _} changed => ?_⟩ <;>
    obtain ⟨k,foundX,rfl⟩ := map_eq_some_iff.mp (block?_close ▸ changed)
  · rcases preds.mp inside with old | ⟨rfl,reached⟩
    · obtain ⟨k',source,edge⟩ := recorded.sources foundX old
      refine ⟨_,new source,?_⟩
      rw [edges,if_neg]
      · exact edge
      · rintro rfl
        exact recorded.not_source found isOpen foundX old
    · exact ⟨_,new found,by rwa [edges,if_pos rfl]⟩
  · unfold whenClosed
    dsimp only
    split
    · exact nodup_addPredecessor b (recorded.distinct foundX)
    · exact recorded.distinct foundX
  · obtain ⟨sure,there⟩ := aimed sure
    rw [edges] at inside
    split at inside
    · rename_i here
      obtain ⟨k',target⟩ := isSome_iff_exists.mp (there t inside)
      exact ⟨_,new target,preds.mpr (.inr ⟨here,inside⟩)⟩
    · obtain ⟨k',target,edge⟩ := recorded.reached sure foundX inside
      exact ⟨_,new target,preds.mpr (.inl edge)⟩
  · rw [nextBlock_close]
    exact recorded.numbered foundX

end

end Recorded

/-- Edges, predecessors and phis agree; no edge leads to the entry. -/
structure Wired (g : Graph) : Prop extends g.Recorded True where
  entry : ∃ k, g.block? g.entry = some k ∧ k.phis = []
  inner : ∀ {b k t}, g.block? b = some k → t ∈ k.successors → t ≠ g.entry
  merges : ∀ {b k phi}, g.block? b = some k → phi ∈ k.phis → phi.incoming.map fst = k.predecessors

theorem block?_new {b : BlockId} (found : Graph.new.block? b = some k) :
    b = .first ∧ k = { Block.new .first with label := some "entry" } :=
  of_insert found ⟨rfl,rfl⟩ fun old => by cases old

namespace Wired
variable {k k₀ : Block}

theorem targets (wired : Wired g) (found : g.block? b = some k) (edge : t ∈ k.successors) :
    t ≠ g.entry ∧ ∃ k', g.block? t = some k' ∧ b ∈ k'.predecessors :=
  ⟨wired.inner found edge,wired.reached trivial found edge⟩

theorem new : Wired Graph.new := by
  refine ⟨⟨fun found inside => ?_,fun found => ?_,fun _ {_ _ _} found inside => ?_,fun found => ?_⟩,⟨_,rfl,rfl⟩,
    fun found inside => ?_,fun found inside => ?_⟩ <;> obtain ⟨rfl,rfl⟩ := block?_new found
  · simp [Block.new] at inside
  · exact nodup_nil
  · simp [Block.successors,Block.new] at inside
  · exact Nat.zero_lt_one
  · simp [Block.successors,Block.new] at inside
  · simp [Block.new] at inside

section
variable (wired : Wired g)
include wired

theorem create : Wired g.createBlock.2 := by
  obtain ⟨first,atEntry,bare⟩ := wired.entry
  refine ⟨wired.toRecorded.create,⟨first,wired.kept atEntry,bare⟩,fun found inside => ?_,fun found inside => ?_⟩ <;>
    rcases block?_createBlock_cases found with ⟨-,rfl⟩ | found
  · simp [Block.successors,Block.new] at inside
  · exact wired.inner found inside
  · simp [Block.new] at inside
  · exact wired.merges found inside

theorem revise (keeps : ∀ k, (f k).predecessors = k.predecessors ∧ (f k).terminator = k.terminator)
    (first : ∀ {k}, b = g.entry → k.phis = [] → (f k).phis = [])
    (merges : ∀ {k phi}, g.block? b = some k → phi ∈ (f k).phis → phi.incoming.map fst = k.predecessors) :
    Wired (g.modifyBlock b f) := by
  obtain ⟨k₁,atEntry,bare⟩ := wired.entry
  refine ⟨wired.toRecorded.modify keeps,?_,fun {x _ _} found inside => ?_,fun {x _ _} found inside => ?_⟩
  · rw [entry_modifyBlock,block?_modifyBlock,atEntry]
    split
    · exact ⟨_,rfl,first (Eq.symm ‹_›) bare⟩
    · exact ⟨_,rfl,bare⟩
  · obtain ⟨k,before,rfl⟩ := map_eq_some_iff.mp (block?_modifyBlock' ▸ found)
    split at inside
    · exact wired.inner before (by rwa [Block.successors,(keeps k).2] at inside)
    · exact wired.inner before inside
  · obtain ⟨k,before,rfl⟩ := map_eq_some_iff.mp (block?_modifyBlock' ▸ found)
    split at inside
    · rename_i here
      rw [if_pos here,(keeps k).1]
      exact merges (here ▸ before) inside
    · rw [if_neg ‹_›]
      exact wired.merges before inside

theorem modify
    (keeps : ∀ k, (f k).phis = k.phis ∧ (f k).predecessors = k.predecessors ∧ (f k).terminator = k.terminator) :
    Wired (g.modifyBlock b f) :=
  wired.revise (fun k => (keeps k).2) (fun _ bare => (keeps _).1.trans bare) fun found inside =>
    wired.merges found ((keeps _).1 ▸ inside)

theorem addPhi {phi : Phi} (found : g.block? b = some k) (bare : k.predecessors = []) (empty : phi.incoming = []) (inner : b ≠ g.entry) :
    Wired (g.modifyBlock b fun k => k.addPhi phi) := by
  refine wired.revise (fun _ => ⟨rfl,rfl⟩) (fun here => absurd here inner) fun found' inside => ?_
  obtain rfl := mem_unique found found'
  rcases mem_append.mp inside with old | single
  · exact wired.merges found old
  · obtain rfl := mem_singleton.mp single
    rw [empty,bare,map_nil]

theorem inner_whenClosed (reach : ∀ t ∈ end'.successors, t ≠ g.entry) (found : g.block? x = some k)
    (edge : t ∈ (whenClosed b end' x k).successors) : t ≠ g.entry := by
  simp only [whenClosed] at edge
  split at edge
  · exact reach t edge
  · exact wired.inner found edge

theorem close (found : g.block? b = some k₀) (isOpen : k₀.terminator = none)
    (reach : ∀ t ∈ end'.successors, t ≠ g.entry ∧ ∃ k, g.block? t = some k ∧ k.phis = []) : Wired (g.close b end') := by
  obtain ⟨first,atEntry,bare⟩ := wired.entry
  refine ⟨wired.toRecorded.close found isOpen fun _ => ⟨trivial,fun t inside => ?_⟩,
    ⟨whenClosed b end' g.entry first,by rw [entry_close,block?_close,atEntry]; rfl,bare⟩,
    fun {x _ _} changed inside => ?_,fun {x _ phi} changed inside => ?_⟩
  · obtain ⟨-,k,target,-⟩ := reach t inside
    simp [target]
  all_goals obtain ⟨k,foundX,rfl⟩ := map_eq_some_iff.mp (block?_close ▸ changed)
  · rw [entry_close]
    exact wired.inner_whenClosed (fun t inside => (reach t inside).1) foundX inside
  · by_cases reached : x ∈ end'.successors
    · obtain ⟨-,k',target,bare⟩ := reach x reached
      obtain rfl := mem_unique foundX target
      rw [show (whenClosed b end' x k).phis = k.phis from rfl,bare] at inside
      cases inside
    · rw [show (whenClosed b end' x k).predecessors = k.predecessors from if_neg reached]
      exact wired.merges foundX inside

theorem jump {dest value : Register} (found : g.block? b = some k₀)
    (isOpen : k₀.terminator = none) (inner : t ≠ g.entry) (target : g.block? t = some k) (merging : k.phis.map Phi.dest = [dest]) :
    Wired ((g.close b (.branch t)).modifyBlock t fun k => k.addIncoming dest (b, value)) := by
  have lookup : ∀ x, ((g.close b (.branch t)).modifyBlock t fun k => k.addIncoming dest (b, value)).block? x =
      (g.block? x).map fun k =>
        { whenClosed b (.branch t) x k with
          phis := if x = t then Build.withIncoming dest (b, value) k.phis else k.phis } := by
    intro x
    rw [block?_modifyBlock,block?_close]
    by_cases here : x = t <;> cases g.block? x <;> simp [here,addIncoming,whenClosed]
  have reach : ∀ x ∈ (Terminator.branch t).successors, x = t := fun x inside => mem_singleton.mp inside
  obtain ⟨first,atEntry,bare⟩ := wired.entry
  refine ⟨.modify (wired.toRecorded.close found isOpen fun _ => ⟨trivial,fun x inside => ?_⟩) fun _ => ⟨rfl,rfl⟩,
    ⟨_,by rw [lookup,entry_modifyBlock,entry_close,atEntry]; rfl,?_⟩,fun {x _ _} changed inside => ?_,
    fun {x _ phi} changed inside => ?_⟩
  · simp [reach x inside,target]
  · exact (if_neg inner.symm).trans bare
  all_goals obtain ⟨k',foundX,rfl⟩ := map_eq_some_iff.mp (lookup x ▸ changed)
  · rw [entry_modifyBlock,entry_close]
    exact wired.inner_whenClosed (fun x inside => reach x inside ▸ inner) foundX inside
  · show phi.incoming.map fst = if x ∈ [t] then _ else _
    split at inside
    · rename_i here
      obtain rfl : k = k' := mem_unique target (here ▸ foundX)
      obtain ⟨merge,single,sameDest⟩ := map_eq_singleton_iff.mp merging
      rw [single,Build.withIncoming,if_pos sameDest] at inside
      obtain rfl := mem_singleton.mp inside
      have before := wired.merges target (single ▸ mem_singleton_self merge)
      have absent := wired.not_source found isOpen target
      simp [here,before,addPredecessor,absent]
    · rename_i other
      rw [if_neg (by simpa using other)]
      exact wired.merges foundX inside

end

end Wired

end Graph

end BlockLowering
