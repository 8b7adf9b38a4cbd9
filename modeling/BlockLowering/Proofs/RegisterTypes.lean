import BlockLowering.Proofs.Reachability
/-!
Functions that are well typed with respect to the types of their registers: every instruction, terminator
and phi finds registers of the types it is made for. A register is typed when it is taken and keeps its type,
so that code once well typed stays so, whatever is added to the function.
-/
namespace BlockLowering
open List Nat Instr BlockLowering.Graph Build

/-! ### Operations and the types they are defined for -/

def BinaryOp.AppliesTo (t : NativeType) : BinaryOp → Prop
  | .add | .sub | .mul | .div | .rem | .shl | .shr => t.isInteger = true
  | .and | .or | .xor => t.isInteger = true ∨ t = .bool
  | .fadd | .fsub | .fmul | .fdiv | .frem => t.isFloat = true

def UnaryOp.AppliesTo (t : NativeType) : UnaryOp → Prop
  | .neg => t.isInteger = true
  | .not => t.isInteger = true ∨ t = .bool
  | .fneg => t.isFloat = true

/-- Pointers can be tested for equality only. -/
def CompareOp.AppliesTo (t : NativeType) : CompareOp → Prop
  | .eq | .ne => t.isFloat = false
  | .lt | .le | .gt | .ge => t.isInteger = true ∨ t = .bool
  | .feq | .fne | .flt | .fle | .fgt | .fge => t.isFloat = true

/-- A conversion leads from one type to another. -/
def CastKind.Converts (source target : NativeType) : CastKind → Prop
  | .trunc => ∃ m ∈ source.bitWidth?, ∃ n ∈ target.bitWidth?, n < m
  | .signExtend | .zeroExtend => ∃ m ∈ source.bitWidth?, ∃ n ∈ target.bitWidth?, m < n
  | .intToFloat => source.bitWidth?.isSome = true ∧ target.isFloat = true
  | .floatToInt => source.isFloat = true ∧ target.bitWidth?.isSome = true
  | .floatResize => source.isFloat = true ∧ target.isFloat = true ∧ source ≠ target
  | .bitcast => source = .ptr ∧ ∃ params result, target = .function params result

/-! ### Well-typed code -/

def Procedure.typeOf (p : Procedure) (r : Register) : Option NativeType := p.registerTypes.get? r

/-- A register is the address of a stack slot for values of a type. -/
def Procedure.IsSlot (p : Procedure) (r : Register) (t : NativeType) : Prop :=
  ∃ b k, p.graph.block? b = some k ∧ .alloc r t ∈ k.instrs

/-- Values of a type may be read and written through a register; through the address of a stack slot only
    those that the slot is for. -/
def Procedure.PointsTo (p : Procedure) (r : Register) (t : NativeType) : Prop :=
  p.typeOf r = some .ptr ∧ ∀ t', p.IsSlot r t' → t' = t

/-- A call passes one argument for each parameter of its signature, of the type of the parameter, and its
    result has the type of the signature; there is none if that is void. -/
structure CallSite.Typed (p : Procedure) (dest : Option Register) (site : CallSite) : Prop where
  args : site.args.map p.typeOf = site.signature.params.map some
  result : ∀ r ∈ dest, p.typeOf r = some site.signature.result
  void : dest = none ↔ site.signature.result = .void
  callee : ∀ {pointer}, site.callee = .indirect pointer → p.typeOf pointer = some site.signature.type

def Instr.Typed (p : Procedure) : Instr → Prop
  | .const dest value => ∃ t, p.typeOf dest = some t ∧ (value = .undef ∨ value.type = t)
  | .alloc dest t => p.PointsTo dest t
  | .load dest ptr t => p.typeOf dest = some t ∧ p.PointsTo ptr t
  | .store ptr value => ∃ t, p.typeOf value = some t ∧ p.PointsTo ptr t
  | .element dest ptr _ _ => p.typeOf dest = some .ptr ∧ p.typeOf ptr = some .ptr
  | .binary dest op left right =>
    ∃ t, op.AppliesTo t ∧ p.typeOf left = some t ∧ p.typeOf right = some t ∧ p.typeOf dest = some t
  | .unary dest op operand => ∃ t, op.AppliesTo t ∧ p.typeOf operand = some t ∧ p.typeOf dest = some t
  | .compare dest op left right =>
    (∃ t, op.AppliesTo t ∧ p.typeOf left = some t ∧ p.typeOf right = some t) ∧ p.typeOf dest = some .bool
  | .cast dest source kind t => (∃ t', kind.Converts t' t ∧ p.typeOf source = some t') ∧ p.typeOf dest = some t
  | .call dest site => site.Typed p dest
  | .landingPad dest => p.typeOf dest = some .ptr

def Terminator.Typed (p : Procedure) : Terminator → Prop
  | .branch _ | .unreachable => True
  | .condBranch condition _ _ => p.typeOf condition = some .bool
  | .ret none => p.header.result = .void
  | .ret (some value) => p.header.result ≠ .void ∧ p.typeOf value = some p.header.result
  | .invoke dest site _ _ => site.Typed p dest

def Phi.Typed (p : Procedure) (phi : Phi) : Prop :=
  p.typeOf phi.dest = some phi.type ∧ ∀ edge ∈ phi.incoming, p.typeOf edge.2 = some phi.type

structure Block.Typed (p : Procedure) (k : Block) : Prop where
  phis : ∀ phi ∈ k.phis, phi.Typed p
  instrs : ∀ i ∈ k.instrs, i.Typed p
  terminator : ∀ t ∈ k.terminator, t.Typed p

/-- A function is well typed with respect to the types of its registers. -/
structure Procedure.WellTyped (p : Procedure) : Prop where
  parameters : ∀ q ∈ p.header.parameters, p.typeOf q.register = some q.type
  blocks : ∀ {b k}, p.graph.block? b = some k → k.Typed p

/-! ### What is added to a function -/

namespace Procedure

/-- Registers keep their types, and no register that has a type becomes the address of a stack slot. -/
structure Agrees (p p' : Procedure) : Prop where
  types : ∀ {r t}, p.typeOf r = some t → p'.typeOf r = some t
  slots : ∀ {r t t'}, p.typeOf r = some t' → p'.IsSlot r t → p.IsSlot r t
  header : p'.header = p.header

/-- A function has got more registers and more code. -/
structure Retains (p p' : Procedure) : Prop extends Agrees p p' where
  blocks : ∀ {b k}, p.graph.block? b = some k → ∃ k', p'.graph.block? b = some k'
  name : p'.name = p.name

section
variable {p p' p'' : Procedure} {b c : BlockId} {k : Block} {r : Register} {t : NativeType}

theorem Retains.trans (first : p.Retains p') (second : p'.Retains p'') : p.Retains p'' where
  types typed := second.types (first.types typed)
  slots typed slot := first.slots typed (second.slots (first.types typed) slot)
  blocks found := by
    obtain ⟨k',found'⟩ := first.blocks found
    exact second.blocks found'
  header := second.header.trans first.header
  name := second.name.trans first.name

theorem PointsTo.agree (points : p.PointsTo r t) (agrees : p.Agrees p') : p'.PointsTo r t :=
  ⟨agrees.types points.1,fun t' slot => points.2 t' (agrees.slots points.1 slot)⟩

end

end Procedure

section
variable {p p' : Procedure} (agrees : p.Agrees p')
include agrees

theorem CallSite.Typed.agree {dest : Option Register} {site : CallSite} (typed : site.Typed p dest) : site.Typed p' dest where
  args := by
    refine Eq.trans (map_congr_left fun r inside => ?_) typed.args
    obtain ⟨t,-,known⟩ := mem_map.mp (typed.args ▸ mem_map_of_mem inside : p.typeOf r ∈ _)
    rw [← known,agrees.types known.symm]
  result r there := agrees.types (typed.result r there)
  void := typed.void
  callee same := agrees.types (typed.callee same)

theorem Instr.Typed.agree {i : Instr} (typed : i.Typed p) : i.Typed p' := by
  cases i with
  | const dest value =>
    obtain ⟨t,dest,same⟩ := typed
    exact ⟨t,agrees.types dest,same⟩
  | alloc dest t => exact Procedure.PointsTo.agree typed agrees
  | load dest ptr t => exact ⟨agrees.types typed.1,typed.2.agree agrees⟩
  | store ptr value =>
    obtain ⟨t,value,ptr⟩ := typed
    exact ⟨t,agrees.types value,ptr.agree agrees⟩
  | element dest ptr indices t => exact ⟨agrees.types typed.1,agrees.types typed.2⟩
  | binary dest op left right =>
    obtain ⟨t,applies,left,right,dest⟩ := typed
    exact ⟨t,applies,agrees.types left,agrees.types right,agrees.types dest⟩
  | unary dest op operand =>
    obtain ⟨t,applies,operand,dest⟩ := typed
    exact ⟨t,applies,agrees.types operand,agrees.types dest⟩
  | compare dest op left right =>
    obtain ⟨⟨t,applies,left,right⟩,dest⟩ := typed
    exact ⟨⟨t,applies,agrees.types left,agrees.types right⟩,agrees.types dest⟩
  | cast dest source kind t =>
    obtain ⟨⟨t',converts,source⟩,dest⟩ := typed
    exact ⟨⟨t',converts,agrees.types source⟩,agrees.types dest⟩
  | call dest site => exact CallSite.Typed.agree agrees typed
  | landingPad dest => exact agrees.types typed

theorem Terminator.Typed.agree {t : Terminator} (typed : t.Typed p) : t.Typed p' := by
  cases t with
  | branch target => trivial
  | condBranch condition onTrue onFalse => exact agrees.types typed
  | ret value =>
    cases value with
    | none =>
      show p'.header.result = .void
      rw [agrees.header]
      exact typed
    | some r =>
      show p'.header.result ≠ .void ∧ p'.typeOf r = some p'.header.result
      rw [agrees.header]
      exact ⟨typed.1,agrees.types typed.2⟩
  | invoke dest site normal unwind => exact CallSite.Typed.agree agrees typed
  | unreachable => trivial

theorem Phi.Typed.agree {phi : Phi} (typed : phi.Typed p) : phi.Typed p' :=
  ⟨agrees.types typed.1,fun edge inside => agrees.types (typed.2 edge inside)⟩

theorem Block.Typed.agree {k : Block} (typed : k.Typed p) : k.Typed p' where
  phis phi inside := (typed.phis phi inside).agree agrees
  instrs i inside := (typed.instrs i inside).agree agrees
  terminator t inside := (typed.terminator t inside).agree agrees

end

namespace Procedure

/-- A function under construction is well typed, returns values of a type, and hands out numbers that are not
    in use. Blocks that are sealed are there, and nothing leads to them. -/
structure Typed (isSealed : List BlockId) (result : NativeType) (p : Procedure) : Prop where
  wellTyped : p.WellTyped
  registers : ∀ {r t}, p.typeOf r = some t → r.index < p.nextRegister
  numbered : ∀ {b k}, p.graph.block? b = some k → b.index < p.graph.nextBlock
  result : p.header.result = result
  unreached : ∀ b ∈ isSealed, ∃ k, p.graph.block? b = some k ∧ k.predecessors = []

/-- A function changes and stays well typed. -/
structure Advances (isSealed : List BlockId) (result : NativeType) (p p' : Procedure) : Prop where
  typed : p'.Typed isSealed result
  retains : p.Retains p'

section
variable {isSealed : List BlockId} {result : NativeType} {p p' p'' : Procedure} {b c : BlockId} {k : Block} {r : Register} {t : NativeType}
variable {t' : NativeType}

theorem Advances.trans (first : Advances isSealed result p p') (second : Advances isSealed result p' p'') :
    Advances isSealed result p p'' := ⟨second.typed,first.retains.trans second.retains⟩

section
variable (typed : p.Typed isSealed result)
include typed

theorem Typed.fresh : p.typeOf ⟨p.nextRegister⟩ = none := by
  cases found : p.typeOf ⟨p.nextRegister⟩ with
  | none => rfl
  | some t => exact absurd (typed.registers found) (Nat.lt_irrefl _)

theorem Typed.slot (slot : p.IsSlot r t) : p.typeOf r = some .ptr := by
  obtain ⟨b,k,found,inside⟩ := slot
  exact ((typed.wellTyped.blocks found).instrs _ inside).1

theorem Typed.nextBlock_ne (found : p.graph.block? b = some k) : b ≠ p.nextBlock := by
  rintro rfl
  exact Nat.lt_irrefl _ (typed.numbered found)

theorem Typed.image (F : BlockId → Block → Block) (lookup : p.graph.Image F p'.graph)
    (types : ∀ {r t}, p.typeOf r = some t → p'.typeOf r = some t) (registers : ∀ {r t}, p'.typeOf r = some t → r.index < p'.nextRegister)
    (next : p'.graph.nextBlock = p.graph.nextBlock) (header : p'.header = p.header) (name : p'.name = p.name)
    (slots : ∀ {x k r t}, p.graph.block? x = some k → .alloc r t ∈ (F x k).instrs → .alloc r t ∈ k.instrs ∨ p.typeOf r = none)
    (parts : p.Retains p' → ∀ {x k}, p.graph.block? x = some k → k.Typed p' → (F x k).Typed p')
    (unentered : ∀ {x k}, x ∈ isSealed → k.predecessors = [] → (F x k).predecessors = []) : Advances isSealed result p p' := by
  have retains : p.Retains p' := by
    refine ⟨⟨types,?_,header⟩,fun found => ⟨_,lookup.new found⟩,name⟩
    rintro r t t' known ⟨x,_,found,inside⟩
    obtain ⟨k,there,rfl⟩ := lookup.old found
    rcases slots there inside with before | unknown
    · exact ⟨x,k,there,before⟩
    · simp [unknown] at known
  refine ⟨⟨⟨?_,?_⟩,registers,?_,header ▸ typed.result,?_⟩,retains⟩
  · intro q inside
    exact types (typed.wellTyped.parameters q (header ▸ inside))
  · intro x _ found
    obtain ⟨k,there,rfl⟩ := lookup.old found
    exact parts retains there ((typed.wellTyped.blocks there).agree retains.toAgrees)
  · intro x _ found
    obtain ⟨k,there,rfl⟩ := lookup.old found
    exact next ▸ typed.numbered there
  · intro x inside
    obtain ⟨k,found,empty⟩ := typed.unreached x inside
    exact ⟨F x k,lookup.new found,unentered inside empty⟩

end

/-! ### Registers -/

theorem typeOf_allocRegister : (p.allocRegister t).2.typeOf r = if r = ⟨p.nextRegister⟩ then some t else p.typeOf r :=
  Table.get?_insert

theorem typeOf_taken : (p.allocRegister t).2.typeOf ⟨p.nextRegister⟩ = some t := by
  rw [typeOf_allocRegister,if_pos rfl]

section
variable (typed : p.Typed isSealed result)
include typed

theorem Typed.types_allocRegister (known : p.typeOf r = some t') : (p.allocRegister t).2.typeOf r = some t' := by
  rw [typeOf_allocRegister,if_neg,known]
  rintro rfl
  simp [typed.fresh] at known

theorem Typed.registers_allocRegister (known : (p.allocRegister t).2.typeOf r = some t') : r.index < p.nextRegister + 1 := by
  rw [typeOf_allocRegister] at known
  split at known
  · rename_i here
    rw [here]
    exact lt_succ_self _
  · exact lt_succ_of_lt (typed.registers known)

theorem Typed.allocRegister (t : NativeType) : Advances isSealed result p (p.allocRegister t).2 :=
  typed.image (fun _ k => k) (fun x => by simp; rfl) typed.types_allocRegister typed.registers_allocRegister rfl rfl rfl
    (fun _ inside => .inl inside) (fun _ _ _ _ same => same) fun _ empty => empty

theorem Typed.taken : ¬ (p.allocRegister t).2.IsSlot ⟨p.nextRegister⟩ t' := by
  intro slot
  simpa [typed.fresh] using typed.slot slot

/-! ### Code -/

theorem Typed.modify {f : Block → Block} (slots : ∀ {k r t}, .alloc r t ∈ (f k).instrs → .alloc r t ∈ k.instrs)
    (parts : ∀ {k}, k.Typed (p.modifyBlock c f) → p.Retains (p.modifyBlock c f) → (f k).Typed (p.modifyBlock c f))
    (entries : ∀ k, (f k).predecessors = k.predecessors) : Advances isSealed result p (p.modifyBlock c f) := by
  refine typed.image _ block?_modifyBlock (fun known => known) typed.registers rfl rfl rfl ?_ ?_ ?_
  · intro x k r t _ inside
    split at inside
    · exact .inl (slots inside)
    · exact .inl inside
  · intro retains x k _ same
    split
    · exact parts same retains
    · exact same
  · intro x k _ empty
    split
    · rw [entries,empty]
    · exact empty

theorem Typed.append {i : Instr} (plain : i.isAlloc = false) (good : i.Typed p) :
    Advances isSealed result p (p.modifyBlock c fun k => k.append i) := by
  refine typed.modify (fun {k r t} inside => ?_) (fun {k} same retains => ⟨same.phis,fun j inside => ?_,same.terminator⟩)
    fun _ => rfl
  · rcases mem_append.mp inside with before | new
    · exact before
    · obtain rfl := mem_singleton.mp new
      cases plain
  · rcases mem_append.mp inside with before | new
    · exact same.instrs j before
    · obtain rfl := mem_singleton.mp new
      exact good.agree retains.toAgrees

theorem Typed.relabel (label : Option String) : Advances isSealed result p (p.modifyBlock c fun k => { k with label }) :=
  typed.modify (fun inside => inside) (fun same _ => ⟨same.phis,same.instrs,same.terminator⟩) fun _ => rfl

theorem Typed.addSlot (t : NativeType) :
    Advances isSealed result p ((p.allocRegister .ptr).2.modifyBlock c fun k => k.addAlloc (.alloc ⟨p.nextRegister⟩ t)) ∧
      PointsTo ((p.allocRegister .ptr).2.modifyBlock c fun k => k.addAlloc (.alloc ⟨p.nextRegister⟩ t)) ⟨p.nextRegister⟩ t := by
  have members : ∀ {k : Block} {i j : Instr}, j ∈ (k.addAlloc i).instrs → j = i ∨ j ∈ k.instrs := by
    intro k i j inside
    have parts : k.instrs = k.instrs.takeWhile isAlloc ++ k.instrs.dropWhile isAlloc :=
      takeWhile_append_dropWhile.symm
    rw [parts,mem_append]
    simp only [Block.addAlloc,mem_append,mem_cons] at inside
    rcases inside with early | new | late
    · exact .inr (.inl early)
    · exact .inl new
    · exact .inr (.inr late)
  have points : PointsTo ((p.allocRegister .ptr).2.modifyBlock c fun k => k.addAlloc (.alloc ⟨p.nextRegister⟩ t))
      ⟨p.nextRegister⟩ t := by
    refine ⟨typeOf_taken,?_⟩
    rintro t' ⟨x,_,found,inside⟩
    rw [block?_modifyBlock] at found
    obtain ⟨k,there,rfl⟩ := Option.map_eq_some_iff.mp found
    have before : ¬ .alloc ⟨p.nextRegister⟩ t' ∈ k.instrs := fun inside => typed.taken (t := .ptr) ⟨x,k,there,inside⟩
    split at inside
    · rcases members inside with new | old
      · exact (alloc.inj new).2
      · exact absurd old before
    · exact absurd inside before
  refine ⟨typed.image _ (block?_modifyBlock (p := (p.allocRegister .ptr).2)) typed.types_allocRegister
    typed.registers_allocRegister rfl rfl rfl ?_ ?_ ?_,points⟩
  · intro x k r t' _ inside
    split at inside
    · rcases members inside with new | old
      · exact .inr ((alloc.inj new).1 ▸ typed.fresh)
      · exact .inl old
    · exact .inl inside
  · intro _ x k _ same
    split
    · refine ⟨same.phis,fun j inside => ?_,same.terminator⟩
      rcases members inside with rfl | old
      · exact points
      · exact same.instrs j old
    · exact same
  · intro x k _ empty
    split <;> exact empty

/-! ### Phis -/

theorem Typed.addPhi (phi : Phi) (good : phi.Typed p) : Advances isSealed result p (p.modifyBlock b fun k => k.addPhi phi) := by
  refine typed.modify (fun inside => inside) (fun {k} same retains => ⟨fun q inside => ?_,same.instrs,same.terminator⟩)
    fun _ => rfl
  rcases mem_append.mp inside with before | new
  · exact same.phis q before
  · obtain rfl := mem_singleton.mp new
    exact good.agree retains.toAgrees

theorem Typed.addIncoming {dest value : Register} (source : BlockId) (merged : p.typeOf dest = some t) (given : p.typeOf value = some t) :
    Advances isSealed result p (p.modifyBlock b fun k => k.addIncoming dest (source, value)) := by
  refine typed.modify (fun inside => inside) (fun {k} same retains => ⟨fun q inside => ?_,same.instrs,same.terminator⟩)
    fun _ => rfl
  have all : ∀ phis : List Phi, (∀ phi ∈ phis, phi.Typed (p.modifyBlock b fun k => k.addIncoming dest (source, value))) →
      ∀ q ∈ withIncoming dest (source, value) phis,
        q.Typed (p.modifyBlock b fun k => k.addIncoming dest (source, value)) := by
    intro phis good
    induction phis with
    | nil => simp [withIncoming]
    | cons phi rest ih =>
      have head := good phi (.head _)
      unfold withIncoming
      split
      · rename_i here
        intro q inside
        rcases mem_cons.mp inside with rfl | later
        · refine ⟨head.1,fun edge part => ?_⟩
          rcases mem_append.mp part with before | new
          · exact head.2 edge before
          · obtain rfl := mem_singleton.mp new
            have type : some t = some phi.type := (retains.types merged).symm.trans (here ▸ head.1)
            exact (retains.types given).trans type
        · exact good q (.tail _ later)
      · intro q inside
        rcases mem_cons.mp inside with rfl | later
        · exact head
        · exact ih (fun phi part => good phi (.tail _ part)) q later
  exact all k.phis same.phis q inside

/-! ### Edges and blocks -/

theorem Typed.close {e : Terminator} (good : e.Typed p)
    (outside : ∀ x ∈ e.successors, x ∉ isSealed) : Advances isSealed result p (p.close c e) := by
  refine typed.image _ block?_close (fun known => known) typed.registers nextBlock_close rfl rfl
    (fun _ inside => .inl inside) ?_ ?_
  · intro retains x k _ same
    refine ⟨same.phis,same.instrs,fun e' ended => ?_⟩
    have ended : (if x = c then some e else k.terminator) = some e' := ended
    split at ended
    · cases ended
      exact good.agree retains.toAgrees
    · exact same.terminator e' ended
  · intro x k inside empty
    show (if x ∈ e.successors then (k.addPredecessor c).predecessors else k.predecessors) = []
    rw [if_neg fun target => outside x target inside,empty]

theorem block?_createBlock_old (found : p.graph.block? b = some k) : p.createBlock.graph.block? b = some k := by
  rw [block?_createBlock,if_neg (typed.nextBlock_ne found),found]

theorem Typed.createBlock : Advances (p.nextBlock :: isSealed) result p p.createBlock := by
  have cases : ∀ {x k}, p.createBlock.graph.block? x = some k →
      (x = p.nextBlock ∧ k = Block.new p.nextBlock) ∨ p.graph.block? x = some k := by
    intro x k found
    rw [block?_createBlock] at found
    split at found
    · exact .inl ⟨‹_›,(Option.some.inj found).symm⟩
    · exact .inr found
  have retains : p.Retains p.createBlock := by
    refine ⟨⟨fun known => known,?_,rfl⟩,fun found => ⟨_,block?_createBlock_old typed found⟩,rfl⟩
    rintro r t t' - ⟨x,k,found,inside⟩
    rcases cases found with ⟨-,rfl⟩ | old
    · cases inside
    · exact ⟨x,k,old,inside⟩
  refine ⟨⟨⟨typed.wellTyped.parameters,fun {x k} found => ?_⟩,typed.registers,fun {x k} found => ?_,typed.result,?_⟩,retains⟩
  · rcases cases found with ⟨-,rfl⟩ | old
    · exact ⟨by simp [Block.new],by simp [Block.new],by simp [Block.new]⟩
    · exact (typed.wellTyped.blocks old).agree retains.toAgrees
  · rcases cases found with ⟨rfl,-⟩ | old
    · exact lt_succ_self _
    · exact lt_succ_of_lt (typed.numbered old)
  · intro x inside
    rcases mem_cons.mp inside with rfl | before
    · exact ⟨_,by rw [block?_createBlock,if_pos rfl],rfl⟩
    · obtain ⟨k,found,empty⟩ := typed.unreached x before
      exact ⟨k,block?_createBlock_old typed found,empty⟩

end

theorem Typed.unseal {more : List BlockId} (typed : p.Typed more result) (fewer : isSealed ⊆ more) : p.Typed isSealed result :=
  ⟨typed.wellTyped,typed.registers,typed.numbered,typed.result,fun b inside => typed.unreached b (fewer inside)⟩

/-! ### Whole functions -/

theorem Typed.relocated (typed : p.Typed isSealed result) (location : Location) : Typed isSealed result { p with location } := by
  have agrees : p.Agrees { p with location } := ⟨fun h => h,fun _ h => h,rfl⟩
  exact ⟨⟨typed.wellTyped.parameters,fun found => (typed.wellTyped.blocks found).agree agrees⟩,typed.registers,
    typed.numbered,typed.result,typed.unreached⟩

theorem Typed.pruned (typed : p.Typed [] result) : p.pruned.Typed [] result := by
  have agrees : p.Agrees p.pruned := by
    refine ⟨fun known => known,?_,rfl⟩
    rintro r t t' - ⟨x,_,found,inside⟩
    obtain ⟨-,k,there,rfl⟩ := exists_of_prune found
    exact ⟨x,k,there,inside⟩
  refine ⟨⟨typed.wellTyped.parameters,fun {x k'} found => ?_⟩,typed.registers,fun {x k'} found => ?_,typed.result,by simp⟩
  · obtain ⟨-,k,there,rfl⟩ := exists_of_prune found
    have same := (typed.wellTyped.blocks there).agree agrees
    refine ⟨fun phi inside => ?_,same.instrs,same.terminator⟩
    obtain ⟨whole,part,rfl⟩ := mem_map.mp inside
    exact ⟨(same.phis whole part).1,fun edge kept => (same.phis whole part).2 edge (mem_filter.mp kept).1⟩
  · obtain ⟨-,k,there,rfl⟩ := exists_of_prune found
    exact typed.numbered there

end

end Procedure

end BlockLowering
