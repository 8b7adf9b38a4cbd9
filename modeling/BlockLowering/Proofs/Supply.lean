import BlockLowering.Proofs.Growth
/-!
Registers and where they have values. A supply names for every block registers that have a value
whenever control enters it. It is consistent with a function if every edge passes on what its target
counts on, and every operand is a parameter, a stack slot, supplied, merged, or computed before in the
same block. The operations of construction keep a supply consistent as long as they are given operands
that have values.
-/
namespace BlockLowering
open List Phi

/-- For every block the registers that have a value on entry to it. -/
abbrev Supply := BlockId → List Register

/-- The registers that get their value on the edge to a block. -/
def Terminator.given (t : Terminator) (target : BlockId) : List Register :=
  match t with
  | .invoke dest _ normal _ => if target = normal then dest.toList else []
  | _ => []

/-- The registers that a block defines, in the order of execution. -/
def Block.defs (k : Block) : List Register :=
  k.phis.map dest ++ k.instrs.filterMap Instr.dest? ++ (k.terminator.bind Terminator.dest?).toList

namespace Procedure

def inputs (p : Procedure) : List Register := p.header.parameters.map Parameter.register

/-- A register has a value in a block behind some of its code. -/
def Holds (supply : Supply) (p : Procedure) (b : BlockId) (k : Block) (before : List Instr) (r : Register) : Prop :=
  r ∈ p.inputs ∨ r ∈ p.slots ∨ r ∈ supply b ∨ r ∈ k.phis.map dest ∨ r ∈ before.filterMap Instr.dest?

/-- Every register is defined at most once, and by a number that was handed out. -/
structure Numbered (p : Procedure) : Prop where
  single : ∀ {b k}, p.graph.block? b = some k → k.defs.Nodup
  separate : ∀ {b k b' k' r}, p.graph.block? b = some k → p.graph.block? b' = some k' →
    r ∈ k.defs → r ∈ k'.defs → b = b'
  defined : ∀ {b k r}, p.graph.block? b = some k → r ∈ k.defs → r.index < p.nextRegister ∧ r ∉ p.inputs
  inputs : p.inputs.Nodup
  bounded : ∀ {r}, r ∈ p.inputs → r.index < p.nextRegister
  typed : ∀ {r t}, p.registerTypes.get? r = some t → r.index < p.nextRegister
  headed : ∀ {b k}, p.graph.block? b = some k → k.Headed (b = p.graph.entry)

/-- A supply is consistent with a function. -/
structure Supplied (supply : Supply) (p : Procedure) : Prop where
  operands : ∀ {b k before i after r}, p.graph.block? b = some k → k.code = before ++ i :: after →
    r ∈ i.uses → Holds supply p b k before r
  endings : ∀ {b k t r}, p.graph.block? b = some k → k.terminator = some t → r ∈ t.uses →
    Holds supply p b k k.code r
  edges : ∀ {b k t x r}, p.graph.block? b = some k → k.terminator = some t → x ∈ t.successors →
    r ∈ supply x → Holds supply p b k k.code r ∨ r ∈ t.given x
  merged : ∀ {b k phi a r}, p.graph.block? b = some k → phi ∈ k.phis → (a, r) ∈ phi.incoming →
    ∃ k', p.graph.block? a = some k' ∧ Holds supply p a k' k'.code r
  first : supply p.graph.entry = []
  apart : ∀ {b k r}, p.graph.block? b = some k → r ∈ supply b → r ∉ k.defs
  bounded : ∀ {b k r}, p.graph.block? b = some k → r ∈ supply b → r.index < p.nextRegister

/-- A register that was handed out, is not defined yet and may be defined in a block. -/
structure Fresh (supply : Supply) (p : Procedure) (b : BlockId) (r : Register) : Prop where
  taken : r.index < p.nextRegister
  input : r ∉ p.inputs
  undefined : ∀ {b k}, p.graph.block? b = some k → r ∉ k.defs
  unsupplied : r ∉ supply b

section
variable {supply : Supply} {p p' : Procedure}

theorem Holds.mono {b : BlockId} {k k' : Block} {before before' : List Instr} {r : Register}
    (holds : Holds supply p b k before r) (header : p'.header = p.header) (slots : p.slots ⊆ p'.slots)
    (phis : k.phis.map dest ⊆ k'.phis.map dest) (code : before ⊆ before') : Holds supply p' b k' before' r := by
  rcases holds with input | slot | supplied | merged | computed
  · exact .inl (by rwa [inputs,header])
  · exact .inr (.inl (slots slot))
  · exact .inr (.inr (.inl supplied))
  · exact .inr (.inr (.inr (.inl (phis merged))))
  · obtain ⟨i,inside,dest⟩ := mem_filterMap.mp computed
    exact .inr (.inr (.inr (.inr (mem_filterMap.mpr ⟨i,code inside,dest⟩))))

theorem Numbered.image (numbered : Numbered p) (F : BlockId → Block → Block) (c : BlockId)
    (added : List Register) (header : p'.header = p.header) (entry : p'.graph.entry = p.graph.entry)
    (registers : p.nextRegister ≤ p'.nextRegister) (types : ∀ {r t}, p'.registerTypes.get? r = some t → r.index < p'.nextRegister)
    (lookup : p.graph.Image F p'.graph) (distinct : added.Nodup) (fresh : ∀ r ∈ added, r.index < p'.nextRegister ∧ r ∉ p.inputs ∧
      ∀ {b k}, p.graph.block? b = some k → r ∉ k.defs)
    (defs : ∀ {x k}, p.graph.block? x = some k → (F x k).defs.Perm (if x = c then added ++ k.defs else k.defs))
    (headed : ∀ {x k}, p.graph.block? x = some k → k.Headed (x = p.graph.entry) → (F x k).Headed (x = p.graph.entry)) : Numbered p' := by
  have sameInputs : p'.inputs = p.inputs := by rw [Procedure.inputs,header]; rfl
  have cases_of : ∀ {x k r}, p.graph.block? x = some k → r ∈ (F x k).defs →
      (x = c ∧ r ∈ added) ∨ r ∈ k.defs := by
    intro x k r found inside
    have inside := (defs found).mem_iff.mp inside
    split at inside
    · rcases mem_append.mp inside with new | old
      · exact .inl ⟨‹_›,new⟩
      · exact .inr old
    · exact .inr inside
  refine ⟨?_,?_,?_,sameInputs ▸ numbered.inputs,?_,types,?_⟩
  · intro x _ found'
    obtain ⟨k,found,rfl⟩ := lookup.old found'
    rw [(defs found).nodup_iff]
    split
    · refine nodup_append.mpr ⟨distinct,numbered.single found,?_⟩
      rintro r new _ defined rfl
      exact (fresh r new).2.2 found defined
    · exact numbered.single found
  · intro x _ y _ r foundX foundY insideX insideY
    obtain ⟨k,foundX,rfl⟩ := lookup.old foundX
    obtain ⟨k',foundY,rfl⟩ := lookup.old foundY
    rcases cases_of ‹_› insideX with ⟨rfl,new⟩ | defined
    · rcases cases_of ‹_› insideY with ⟨rfl,-⟩ | defined'
      · rfl
      · exact absurd defined' ((fresh r new).2.2 ‹_›)
    · rcases cases_of ‹_› insideY with ⟨rfl,new⟩ | defined'
      · exact absurd defined ((fresh r new).2.2 ‹_›)
      · exact numbered.separate ‹_› ‹_› defined defined'
  · intro x _ r found' inside
    obtain ⟨k,found,rfl⟩ := lookup.old found'
    rw [sameInputs]
    rcases cases_of found inside with ⟨-,new⟩ | defined
    · exact ⟨(fresh r new).1,(fresh r new).2.1⟩
    · exact ⟨Nat.lt_of_lt_of_le (numbered.defined found defined).1 registers,(numbered.defined found defined).2⟩
  · intro r inside
    exact Nat.lt_of_lt_of_le (numbered.bounded (sameInputs ▸ inside)) registers
  · intro x _ found'
    obtain ⟨k,found,rfl⟩ := lookup.old found'
    rw [entry]
    exact headed found (numbered.headed found)

theorem Numbered.nodup_defs (numbered : Numbered p) {entries : List (BlockId × Block)} (distinct : (entries.map Prod.fst).Nodup)
    (found : ∀ e ∈ entries, p.graph.block? e.1 = some e.2) : (p.inputs ++ entries.flatMap fun e => e.2.defs).Nodup := by
  have apart : (entries.flatMap fun e => e.2.defs).Nodup := by
    induction entries with
    | nil => exact nodup_nil
    | cons e rest ih =>
      obtain ⟨other,distinct⟩ := nodup_cons.mp distinct
      obtain ⟨first,others⟩ := forall_mem_cons.mp found
      refine nodup_append.mpr ⟨numbered.single first,ih distinct others,?_⟩
      rintro r inside _ inside' rfl
      obtain ⟨e',member,inside'⟩ := mem_flatMap.mp inside'
      have same := numbered.separate first (others e' member) inside inside'
      exact other (mem_map.mpr ⟨e',member,same.symm⟩)
  refine nodup_append.mpr ⟨numbered.inputs,apart,?_⟩
  rintro r input _ inside rfl
  obtain ⟨e,member,inside⟩ := mem_flatMap.mp inside
  exact (numbered.defined (found e member) inside).2 input

theorem Supplied.image (supplied : Supplied supply p) (F : BlockId → Block → Block)
    (header : p'.header = p.header) (entry : p'.graph.entry = p.graph.entry)
    (registers : p.nextRegister ≤ p'.nextRegister) (slots : p.slots ⊆ p'.slots) (lookup : p.graph.Image F p'.graph)
    (phis : ∀ {x k}, p.graph.block? x = some k → k.phis.map dest ⊆ (F x k).phis.map dest)
    (code : ∀ {x k}, p.graph.block? x = some k → ∃ more, (F x k).code = k.code ++ more ∧
      ∀ before i after, more = before ++ i :: after → ∀ r ∈ i.uses, Holds supply p' x (F x k) (k.code ++ before) r)
    (endings : ∀ {x k t}, p.graph.block? x = some k → (F x k).terminator = some t → k.terminator = some t ∨
      (∀ r ∈ t.uses, Holds supply p' x (F x k) (F x k).code r) ∧
        ∀ y ∈ t.successors, ∀ r ∈ supply y, Holds supply p' x (F x k) (F x k).code r ∨ r ∈ t.given y)
    (merged : ∀ {x k phi a r}, p.graph.block? x = some k → phi ∈ (F x k).phis → (a, r) ∈ phi.incoming →
      (∃ old ∈ k.phis, (a, r) ∈ old.incoming) ∨ ∃ k', p.graph.block? a = some k' ∧ Holds supply p a k' k'.code r)
    (apart : ∀ {x k r}, p.graph.block? x = some k → r ∈ supply x → r ∈ (F x k).defs → r ∈ k.defs) : Supplied supply p' := by
  have keeps : ∀ {x k r}, p.graph.block? x = some k → Holds supply p x k k.code r →
      Holds supply p' x (F x k) (F x k).code r := by
    intro x k r found holds
    obtain ⟨more,same,-⟩ := code found
    exact holds.mono header slots (phis found) (same ▸ subset_append_left _ _)
  refine ⟨?_,?_,?_,?_,entry ▸ supplied.first,?_,?_⟩
  · intro x _ before i after r changed split used
    obtain ⟨k,found,rfl⟩ := lookup.old changed
    obtain ⟨more,same,added⟩ := code found
    rcases append_eq_append_iff.mp (same.symm.trans split) with ⟨gap,rfl,later⟩ | ⟨gap,inCode,later⟩
    · exact added gap i after later r used
    · cases gap with
      | nil =>
        have here : before = k.code := by simpa using inCode.symm
        simpa [here] using added [] i after (by simpa using later.symm) r used
      | cons j rest =>
        obtain ⟨rfl,-⟩ := List.cons.inj later
        exact (supplied.operands found inCode used).mono header slots (phis found) fun _ h => h
  · intro x _ t r changed ended used
    obtain ⟨k,found,rfl⟩ := lookup.old changed
    rcases endings found ended with before | ⟨uses,-⟩
    · exact keeps found (supplied.endings found before used)
    · exact uses r used
  · intro x _ t y r changed ended target counted
    obtain ⟨k,found,rfl⟩ := lookup.old changed
    rcases endings found ended with before | ⟨-,passed⟩
    · exact (supplied.edges found before target counted).imp_left (keeps found)
    · exact passed y target r counted
  · intro x _ phi a r changed inside edge
    obtain ⟨k,found,rfl⟩ := lookup.old changed
    rcases merged found inside edge with ⟨phi₀,inside₀,edge₀⟩ | ⟨k',source,holds⟩
    · obtain ⟨k',source,holds⟩ := supplied.merged found inside₀ edge₀
      exact ⟨_,lookup.new source,keeps source holds⟩
    · exact ⟨_,lookup.new source,keeps source holds⟩
  · intro x _ r changed counted defined
    obtain ⟨k,found,rfl⟩ := lookup.old changed
    exact supplied.apart found counted (apart found counted defined)
  · intro x _ r changed counted
    obtain ⟨k,found,rfl⟩ := lookup.old changed
    exact Nat.lt_of_lt_of_le (supplied.bounded found counted) registers

end

end Procedure

end BlockLowering
