import BlockLowering.Proofs.Wiring
/-!
Growth of functions under construction. Code is only ever added: to blocks that have no terminator, as
stack slots at the head of the entry, as values on the edges of phis. What is there stays there, so
that what has been found out about a point of the code remains true until the function is finished.
-/
namespace BlockLowering
open List Instr

def Instr.slot? : Instr → Option Register
  | .alloc dest _ => some dest
  | _ => none

theorem Instr.slot?_eq_none {i : Instr} : i.slot? = none ↔ i.isAlloc = false := by
  cases i <;> simp [slot?,isAlloc]

theorem Instr.dest?_of_slot? {i : Instr} {r : Register} (slot : i.slot? = some r) : i.dest? = some r := by
  cases i <;> simp_all [slot?,dest?]

namespace Block
variable {i : Instr} {k : Block} {isEntry : Prop}

/-- The instructions of a block without its stack slots. -/
def code (k : Block) : List Instr := k.instrs.filter fun i => !i.isAlloc

theorem code_append (k : Block) (plain : i.isAlloc = false) : (k.append i).code = k.code ++ [i] := by
  simp [code,append,plain]

theorem code_addAlloc (k : Block) (slot : i.isAlloc = true) : (k.addAlloc i).code = k.code := by
  calc (k.addAlloc i).code
      = (k.instrs.takeWhile isAlloc).filter (fun i => !i.isAlloc) ++
          (k.instrs.dropWhile isAlloc).filter (fun i => !i.isAlloc) := by
        simp [code,addAlloc,slot]
    _ = k.code := by
        rw [← filter_append,takeWhile_append_dropWhile]
        rfl

def slots (k : Block) : List Register := k.instrs.filterMap slot?

theorem slots_append (k : Block) (plain : i.isAlloc = false) : (k.append i).slots = k.slots := by
  simp [slots,append,slot?_eq_none.mpr plain]

/-- Stack slots come first, and outside the entry there are none. -/
def Headed (k : Block) (isEntry : Prop) : Prop :=
  ∃ heads, k.instrs = heads ++ k.code ∧ (∀ i ∈ heads, i.isAlloc = true) ∧ (heads ≠ [] → isEntry)

theorem mem_code (inside : i ∈ k.code) : i.isAlloc = false := by
  simpa using (mem_filter.mp inside).2

theorem slots_code (k : Block) : k.code.filterMap slot? = [] := by
  rw [filterMap_eq_nil_iff]
  intro i inside
  exact slot?_eq_none.mpr (mem_code inside)

theorem addAlloc_of_headed {heads : List Instr} (same : k.instrs = heads ++ k.code)
    (slotted : ∀ i ∈ heads, i.isAlloc = true) : (k.addAlloc i).instrs = (heads ++ [i]) ++ k.code := by
  have taken : (heads ++ k.code).takeWhile isAlloc = heads ∧
      (heads ++ k.code).dropWhile isAlloc = k.code := by
    rw [takeWhile_append_of_pos slotted,dropWhile_append_of_pos slotted]
    cases code : k.code with
    | nil => simp
    | cons j rest =>
      have plain : j.isAlloc = false := mem_code (k := k) (by rw [code]; exact (.head _))
      simp [plain]
  show k.instrs.takeWhile isAlloc ++ i :: k.instrs.dropWhile isAlloc = _
  rw [same,taken.1,taken.2]
  simp

theorem slots_addAlloc {dest : Register} (headed : k.Headed isEntry)
    (slot : i.slot? = some dest) : (k.addAlloc i).slots = k.slots ++ [dest] := by
  obtain ⟨heads,same,slotted,-⟩ := headed
  rw [slots,addAlloc_of_headed same slotted,slots,same]
  simp [slots_code,slot]

theorem headed_addAlloc (headed : k.Headed isEntry) (slot : i.isAlloc = true) (here : isEntry) : (k.addAlloc i).Headed isEntry := by
  obtain ⟨heads,same,slotted,-⟩ := headed
  refine ⟨heads ++ [i],?_,?_,fun _ => here⟩
  · rw [addAlloc_of_headed same slotted,code_addAlloc k slot]
  · intro j inside
    rcases mem_append.mp inside with old | single
    · exact slotted j old
    · rwa [mem_singleton.mp single]

theorem headed_append (headed : k.Headed isEntry) (plain : i.isAlloc = false) : (k.append i).Headed isEntry := by
  obtain ⟨heads,same,slotted,first⟩ := headed
  refine ⟨heads,?_,slotted,first⟩
  rw [code_append k plain,← append_assoc,← same]
  rfl

structure Grows (k k' : Block) : Prop where
  merges : k'.phis.map Phi.dest = k.phis.map Phi.dest
  incoming : ∀ phi ∈ k.phis, ∃ phi' ∈ k'.phis, phi'.dest = phi.dest ∧ phi.incoming ⊆ phi'.incoming
  code : k.code <+: k'.code
  ended : ∀ {t}, k.terminator = some t → k'.terminator = some t ∧ k'.code = k.code
  predecessors : k.predecessors ⊆ k'.predecessors

namespace Grows

theorem refl (k : Block) : Grows k k where
  merges := rfl
  incoming phi inside := ⟨phi,inside,rfl,fun _ h => h⟩
  code := prefix_refl _
  ended h := ⟨h,rfl⟩
  predecessors _ h := h

theorem trans {k₁ k₂ k₃ : Block} (first : Grows k₁ k₂) (second : Grows k₂ k₃) : Grows k₁ k₃ where
  merges := second.merges.trans first.merges
  incoming phi inside := by
    obtain ⟨phi₂,inside₂,same₂,kept₂⟩ := first.incoming phi inside
    obtain ⟨phi₃,inside₃,same₃,kept₃⟩ := second.incoming phi₂ inside₂
    exact ⟨phi₃,inside₃,same₃.trans same₂,fun _ h => kept₃ (kept₂ h)⟩
  code := first.code.trans second.code
  ended h := by
    obtain ⟨ended,same⟩ := first.ended h
    obtain ⟨ended',same'⟩ := second.ended ended
    exact ⟨ended',same'.trans same⟩
  predecessors _ h := second.predecessors (first.predecessors h)

theorem of_same {k k' : Block} (phis : k'.phis = k.phis) (code : k'.code = k.code)
    (terminator : k'.terminator = k.terminator) (predecessors : k.predecessors ⊆ k'.predecessors) : Grows k k' where
  merges := by rw [phis]
  incoming phi inside := ⟨phi,phis ▸ inside,rfl,fun _ h => h⟩
  code := code ▸ prefix_refl _
  ended h := ⟨terminator.trans h,code⟩
  predecessors := predecessors

end Grows

end Block

namespace Procedure

/-- The registers of the stack slots, in the order of their place at the head of the entry. -/
def slots (p : Procedure) : List Register := ((p.graph.block? p.graph.entry).map Block.slots).getD []

structure Grows (p p' : Procedure) : Prop where
  id : p'.id = p.id
  name : p'.name = p.name
  header : p'.header = p.header
  entry : p'.graph.entry = p.graph.entry
  registers : p.nextRegister ≤ p'.nextRegister
  types : ∀ {r t}, p.registerTypes.get? r = some t → p'.registerTypes.get? r = some t
  blocks : ∀ {b k}, p.graph.block? b = some k → ∃ k', p'.graph.block? b = some k' ∧ k.Grows k'
  slots : ∃ more, p'.slots = p.slots ++ more ∧ ∀ r ∈ more, p.nextRegister ≤ r.index

namespace Grows

theorem refl (p : Procedure) : Grows p p where
  id := rfl
  name := rfl
  header := rfl
  entry := rfl
  registers := Nat.le_refl _
  types h := h
  blocks h := ⟨_,h,.refl _⟩
  slots := ⟨[],(append_nil _).symm,by simp⟩

theorem trans {p₁ p₂ p₃ : Procedure} (first : Grows p₁ p₂) (second : Grows p₂ p₃) : Grows p₁ p₃ where
  id := second.id.trans first.id
  name := second.name.trans first.name
  header := second.header.trans first.header
  entry := second.entry.trans first.entry
  registers := Nat.le_trans first.registers second.registers
  types h := second.types (first.types h)
  blocks h := by
    obtain ⟨k₂,found₂,grown₂⟩ := first.blocks h
    obtain ⟨k₃,found₃,grown₃⟩ := second.blocks found₂
    exact ⟨k₃,found₃,grown₂.trans grown₃⟩
  slots := by
    obtain ⟨more₂,same₂,bound₂⟩ := first.slots
    obtain ⟨more₃,same₃,bound₃⟩ := second.slots
    refine ⟨more₂ ++ more₃,by rw [same₃,same₂,append_assoc],?_⟩
    intro r inside
    rcases mem_append.mp inside with early | late
    · exact bound₂ r early
    · exact Nat.le_trans first.registers (bound₃ r late)

theorem image {p p' : Procedure} (F : BlockId → Block → Block) (id : p'.id = p.id) (name : p'.name = p.name)
    (header : p'.header = p.header) (entry : p'.graph.entry = p.graph.entry) (registers : p.nextRegister ≤ p'.nextRegister)
    (types : ∀ {r t}, p.registerTypes.get? r = some t → p'.registerTypes.get? r = some t) (lookup : p.graph.Image F p'.graph)
    (each : ∀ {x k}, p.graph.block? x = some k → k.Grows (F x k)) (slots : ∃ more, (∀ {k}, p.graph.block? p.graph.entry = some k →
      (F p.graph.entry k).slots = k.slots ++ more) ∧ ∀ r ∈ more, p.nextRegister ≤ r.index)
    (exists_ : ∃ k, p.graph.block? p.graph.entry = some k) : Grows p p' where
  id := id
  name := name
  header := header
  entry := entry
  registers := registers
  types := types
  blocks found := ⟨_,lookup.new found,each found⟩
  slots := by
    obtain ⟨k,found⟩ := exists_
    obtain ⟨more,same,bound⟩ := slots
    refine ⟨more,?_,bound⟩
    simp [Procedure.slots,entry,lookup.new found,found,same found]

theorem modify_new {p p₁ : Procedure} {b : BlockId} {f : Block → Block} (grows : Grows p p₁)
    (absent : p.graph.block? b = none) (inner : b ≠ p.graph.entry) : Grows p (p₁.modifyBlock b f) where
  id := grows.id
  name := grows.name
  header := grows.header
  entry := grows.entry
  registers := grows.registers
  types := grows.types
  blocks {x k} found := by
    have other : x ≠ b := by
      rintro rfl
      simp [absent] at found
    obtain ⟨k',found',grown⟩ := grows.blocks found
    refine ⟨k',?_,grown⟩
    show (p₁.graph.modifyBlock b f).block? x = some k'
    rw [Graph.block?_modifyBlock,if_neg other,found']
  slots := by
    obtain ⟨more,same,bound⟩ := grows.slots
    refine ⟨more,?_,bound⟩
    rw [← same]
    show (((p₁.graph.modifyBlock b f).block? p₁.graph.entry).map Block.slots).getD [] = p₁.slots
    rw [Graph.block?_modifyBlock,if_neg (grows.entry ▸ inner.symm)]
    rfl

end Grows

end Procedure

end BlockLowering
