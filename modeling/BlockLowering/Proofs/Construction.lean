import BlockLowering.Proofs.Supply
/-!
The operations of construction on one function. Each is shown to keep the function sound, which is to
be wired, numbered and consistent with a supply, and to let it grow.
-/
namespace BlockLowering
open List Option Block Nat Instr Subset
variable {supply : Supply} {registers : List Register} {f : Block → Block}

/-- The supply with other registers for one block. -/
def Supply.set (supply : Supply) (b : BlockId) (registers : List Register) : Supply :=
  fun x => if x = b then registers else supply x

theorem Supply.set_self {b : BlockId} : supply.set b registers b = registers := if_pos rfl

theorem Supply.set_other {b x : BlockId} (other : x ≠ b) :
    supply.set b registers x = supply x := if_neg other

namespace Procedure

/-- A function is wired, numbered and consistent with a supply. -/
structure Sound (supply : Supply) (p : Procedure) : Prop where
  wired : p.graph.Wired
  numbered : p.Numbered
  supplied : p.Supplied supply

section
variable {supply : Supply} {p : Procedure} {b c : BlockId} {k : Block}
variable {x target : BlockId} {i : Instr} {dest value : Register} {type : NativeType} {phi : Phi} {t : Terminator}
  {edge : BlockId × Register} {phis : List Phi}

theorem block?_new {id : ProcId} {name : String} {header : Header} (found : (Procedure.new id name header).graph.block? b = some k) :
    b = .first ∧ k = { Block.new .first with label := some "entry" } := by
  exact Graph.block?_new found

theorem Sound.entry (sound : Sound supply p) : ∃ k, p.graph.block? p.graph.entry = some k :=
  let ⟨k,found,_⟩ := sound.wired.entry
  ⟨k,found⟩

/-! ### Registers -/

/-- A register was handed out and is not defined yet. -/
def Undefined (p : Procedure) (r : Register) : Prop :=
  r.index < p.nextRegister ∧ r ∉ p.inputs ∧ ∀ {b k}, p.graph.block? b = some k → r ∉ k.defs

theorem Numbered.allocRegister (numbered : p.Numbered) (type : NativeType) : (p.allocRegister type).2.Numbered := by
  refine numbered.image (fun _ k => k) .first [] rfl rfl (le_succ _) ?_ (fun x => by simp; rfl) .nil
    (by simp) (fun _ => by simp) (fun _ h => h)
  exact fun found => Table.of_insert found (lt_succ_self _) fun old => lt_succ_of_lt (numbered.typed old)

theorem Numbered.undefined (numbered : p.Numbered) (type : NativeType) : (p.allocRegister type).2.Undefined (p.allocRegister type).1 :=
  ⟨Nat.lt_succ_self _,fun inside => Nat.lt_irrefl _ (numbered.bounded inside),
    fun found inside => Nat.lt_irrefl _ (numbered.defined found inside).1⟩

theorem Fresh.notDefined {r : Register} (fresh : Fresh supply p b r) : p.Undefined r :=
  ⟨fresh.taken,fresh.input,fresh.undefined⟩

theorem Sound.allocRegister (sound : Sound supply p) (type : NativeType) : Sound supply (p.allocRegister type).2 where
  wired := sound.wired
  numbered := sound.numbered.allocRegister type
  supplied := by
    refine sound.supplied.image (fun _ k => k) rfl rfl (le_succ _) (fun _ h => h) (fun x => by simp; rfl)
      (fun _ _ h => h) (fun _ => ⟨[],by simp,by simp⟩) (fun _ ended => .inl ended)
      (fun _ inside edge => .inl ⟨_,inside,edge⟩) (fun _ _ h => h)

theorem Sound.fresh (sound : Sound supply p) (type : NativeType) (found : p.graph.block? b = some k) :
    Fresh supply (p.allocRegister type).2 b (p.allocRegister type).1 where
  taken := (sound.numbered.undefined type).1
  input := (sound.numbered.undefined type).2.1
  undefined := (sound.numbered.undefined type).2.2
  unsupplied inside := Nat.lt_irrefl _ (sound.supplied.bounded found inside)

theorem Sound.grows_allocRegister (sound : Sound supply p) (type : NativeType) : Grows p (p.allocRegister type).2 := by
  refine .image (fun _ k => k) rfl rfl rfl rfl (le_succ _) ?_ (fun x => by simp; rfl) (fun _ => .refl _)
    ⟨[],fun _ => (append_nil _).symm,by simp⟩ sound.entry
  intro r t found
  rw [Procedure.allocRegister,takeRegister,Table.get?_insert,if_neg,found]
  rintro rfl
  exact Nat.lt_irrefl _ (sound.numbered.typed found)

/-! ### Blocks -/

def createBlock (p : Procedure) : Procedure := p.modifyGraph fun g => g.createBlock.2

def nextBlock (p : Procedure) : BlockId := ⟨p.graph.nextBlock⟩

theorem block?_createBlock : p.createBlock.graph.block? x =
    if x = p.nextBlock then some (Block.new p.nextBlock) else p.graph.block? x := Graph.block?_createBlock

theorem Sound.absent (sound : Sound supply p) : p.graph.block? p.nextBlock = none := sound.wired.fresh_absent

theorem Sound.nextBlock_ne (sound : Sound supply p) (found : p.graph.block? b = some k) : b ≠ p.nextBlock := by
  rintro rfl
  simp [sound.absent] at found

theorem Sound.block?_old (sound : Sound supply p) (found : p.graph.block? b = some k) : p.createBlock.graph.block? b = some k := by
  rw [block?_createBlock,if_neg (sound.nextBlock_ne found),found]

private theorem block?_cases (found : p.createBlock.graph.block? b = some k) :
    (b = p.nextBlock ∧ k = Block.new p.nextBlock) ∨ p.graph.block? b = some k := by
  rw [block?_createBlock] at found
  split at found
  · exact .inl ⟨‹_›,(some.inj found).symm⟩
  · exact .inr found

theorem Sound.slots_createBlock (sound : Sound supply p) : p.createBlock.slots = p.slots := by
  obtain ⟨first,found⟩ := sound.entry
  have kept : p.createBlock.graph.block? p.createBlock.graph.entry = some first := sound.block?_old found
  simp [slots,kept,found]

theorem Numbered.createBlock (numbered : p.Numbered) : p.createBlock.Numbered := by
  refine ⟨?_,?_,?_,numbered.inputs,numbered.bounded,numbered.typed,?_⟩
  · intro b k found
    rcases block?_cases found with ⟨-,rfl⟩ | old
    · exact .nil
    · exact numbered.single old
  · intro b k b' k' r found found' defined defined'
    rcases block?_cases found with ⟨-,rfl⟩ | old
    · cases defined
    · rcases block?_cases found' with ⟨-,rfl⟩ | old'
      · cases defined'
      · exact numbered.separate old old' defined defined'
  · intro b k r found defined
    rcases block?_cases found with ⟨-,rfl⟩ | old
    · cases defined
    · exact numbered.defined old defined
  · intro b k found
    rcases block?_cases found with ⟨-,rfl⟩ | old
    · exact ⟨[],rfl,by simp,by simp⟩
    · exact numbered.headed old

theorem Sound.createBlock (sound : Sound supply p)
    (bounded : ∀ r ∈ registers, r.index < p.nextRegister) : Sound (supply.set p.nextBlock registers) p.createBlock where
  wired := sound.wired.create
  numbered := sound.numbered.createBlock
  supplied := by
    have other : ∀ {b k r}, p.graph.block? b = some k →
        (r ∈ supply.set p.nextBlock registers b ↔ r ∈ supply b) := by
      intro b k r found
      rw [Supply.set_other (sound.nextBlock_ne found)]
    have keeps : ∀ {b k before r}, p.graph.block? b = some k → Holds supply p b k before r →
        Holds (supply.set p.nextBlock registers) p.createBlock b k before r := by
      intro b k before r found holds
      unfold Holds
      rw [other found,sound.slots_createBlock]
      exact holds
    refine ⟨?_,?_,?_,?_,?_,?_,?_⟩
    · intro b k before i after r found split used
      rcases block?_cases found with ⟨-,rfl⟩ | old
      · simp [Block.code,Block.new] at split
      · exact keeps old (sound.supplied.operands old split used)
    · intro b k t r found ended used
      rcases block?_cases found with ⟨-,rfl⟩ | old
      · cases ended
      · exact keeps old (sound.supplied.endings old ended used)
    · intro b k t x r found ended target counted
      rcases block?_cases found with ⟨-,rfl⟩ | old
      · cases ended
      · obtain ⟨-,k',foundX,-⟩ := sound.wired.targets old (t := x) (by simpa [successors,ended] using target)
        exact (sound.supplied.edges old ended target ((other foundX).mp counted)).imp_left (keeps old)
    · intro b k phi a r found inside edge
      rcases block?_cases found with ⟨-,rfl⟩ | old
      · cases inside
      · obtain ⟨k',source,holds⟩ := sound.supplied.merged old inside edge
        exact ⟨k',sound.block?_old source,keeps source holds⟩
    · obtain ⟨first,found⟩ := sound.entry
      exact (Supply.set_other (sound.nextBlock_ne found)).trans sound.supplied.first
    · intro b k r found counted
      rcases block?_cases found with ⟨-,rfl⟩ | old
      · simp [Block.defs,Block.new]
      · exact sound.supplied.apart old ((other old).mp counted)
    · intro b k r found counted
      rcases block?_cases found with ⟨rfl,-⟩ | old
      · rw [Supply.set_self] at counted
        exact bounded r counted
      · exact sound.supplied.bounded old ((other old).mp counted)

theorem Sound.grows_createBlock (sound : Sound supply p) : Grows p p.createBlock where
  id := rfl
  name := rfl
  header := rfl
  entry := rfl
  registers := Nat.le_refl _
  types h := h
  blocks found := ⟨_,sound.block?_old found,.refl _⟩
  slots := ⟨[],by rw [sound.slots_createBlock,append_nil],by simp⟩

/-! ### Changes to one block -/

theorem block?_modifyBlock (x : BlockId) : (p.modifyBlock c f).graph.block? x =
    (p.graph.block? x).map fun k => if x = c then f k else k := Graph.block?_modifyBlock'

theorem slots_modifyBlock (same : ∀ k, (f k).slots = k.slots) : (p.modifyBlock c f).slots = p.slots := by
  show (((p.modifyBlock c f).graph.block? p.graph.entry).map Block.slots).getD [] = _
  rw [block?_modifyBlock,slots]
  cases p.graph.block? p.graph.entry with
  | none => rfl
  | some k => by_cases here : p.graph.entry = c <;> simp [here,same]

section
variable {f : Block → Block} {added : List Register}

theorem Numbered.modify (numbered : p.Numbered) (defs : ∀ k, (f k).defs.Perm (added ++ k.defs)) (distinct : added.Nodup)
    (fresh : ∀ r ∈ added, p.Undefined r) (headed : ∀ {k}, k.Headed (c = p.graph.entry) → (f k).Headed (c = p.graph.entry)) :
    (p.modifyBlock c f).Numbered := by
  refine numbered.image _ c added rfl rfl (Nat.le_refl _) numbered.typed block?_modifyBlock distinct fresh ?_ ?_
  · intro x k _
    split
    · exact defs k
    · exact .refl _
  · rintro x k - before
    split
    · subst x
      exact headed before
    · exact before

theorem Supplied.modify (supplied : Supplied supply p) (defs : ∀ k, (f k).defs.Perm (added ++ k.defs))
    (fresh : ∀ r ∈ added, r ∉ supply c) (slots : p.slots ⊆ (p.modifyBlock c f).slots)
    (phis : ∀ k, k.phis.map Phi.dest ⊆ (f k).phis.map Phi.dest) (ended : ∀ k, (f k).terminator = k.terminator)
    (merged : ∀ k phi a r, phi ∈ (f k).phis → (a, r) ∈ phi.incoming → ∃ old ∈ k.phis, (a, r) ∈ old.incoming)
    (code : ∀ {k}, p.graph.block? c = some k → ∃ more, (f k).code = k.code ++ more ∧ ∀ before i after,
      more = before ++ i :: after → ∀ r ∈ i.uses, Holds supply (p.modifyBlock c f) c (f k) (k.code ++ before) r) :
    Supplied supply (p.modifyBlock c f) := by
  refine supplied.image _ rfl rfl (Nat.le_refl _) slots block?_modifyBlock ?_ ?_ ?_ ?_ ?_
  · intro x k _
    split
    · exact phis k
    · exact fun _ h => h
  · intro x k found
    split
    · subst x
      exact code found
    · exact ⟨[],(append_nil _).symm,by simp⟩
  · intro x k t _ last
    split at last
    · exact .inl (ended k ▸ last)
    · exact .inl last
  · intro x k phi a r _ inside edge
    split at inside
    · exact .inl (merged k phi a r inside edge)
    · exact .inl ⟨phi,inside,edge⟩
  · intro x k r _ counted defined
    split at defined
    · subst x
      exact (mem_append.mp ((defs k).mem_iff.mp defined)).resolve_left fun new => fresh r new counted
    · exact defined

end

theorem subset_slots_modifyBlock (same : ∀ k, (f k).slots = k.slots) : p.slots ⊆ (p.modifyBlock c f).slots := by
  rw [slots_modifyBlock same]
  exact refl _

theorem Numbered.relabel (numbered : p.Numbered) (label : Option String) : (p.modifyBlock c fun k => { k with label }).Numbered :=
  numbered.modify (fun _ => .refl _) .nil (by simp) fun headed => headed

theorem Sound.relabel (sound : Sound supply p) (label : Option String) : Sound supply (p.modifyBlock c fun k => { k with label }) where
  wired := sound.wired.modify fun _ => ⟨rfl,rfl,rfl⟩
  numbered := sound.numbered.relabel label
  supplied := sound.supplied.modify (fun k => .refl ([] ++ k.defs)) (by simp) (subset_slots_modifyBlock fun _ => rfl)
    (fun _ => refl _) (fun _ => rfl) (fun _ phi _ _ inside edge => ⟨phi,inside,edge⟩)
    fun _ => ⟨[],(append_nil _).symm,by simp⟩

private theorem defs_append : (k.append i).defs.Perm (i.dest?.toList ++ k.defs) := by
  have last : [i].filterMap dest? = i.dest?.toList := by
    cases dest : i.dest? <;> simp [dest]
  refine perm_iff_count.mpr fun r => ?_
  simp only [defs,append,filterMap_append,count_append,last]
  omega

theorem Numbered.append (numbered : p.Numbered) (plain : i.isAlloc = false)
    (dest : ∀ r ∈ i.dest?, p.Undefined r) : (p.modifyBlock c fun k => k.append i).Numbered := by
  refine numbered.modify (fun _ => defs_append) ?_ (fun r inside => dest r (mem_toList.mp inside))
    fun headed => headed_append headed plain
  cases i.dest? <;> simp

theorem Sound.append (sound : Sound supply p) (found : p.graph.block? c = some k)
    (plain : i.isAlloc = false) (uses : ∀ r ∈ i.uses, Holds supply p c k k.code r)
    (dest : ∀ r ∈ i.dest?, Fresh supply p c r) : Sound supply (p.modifyBlock c fun k => k.append i) where
  wired := sound.wired.modify fun _ => ⟨rfl,rfl,rfl⟩
  numbered := sound.numbered.append plain fun r inside => (dest r inside).notDefined
  supplied := by
    have slots : p.slots ⊆ (p.modifyBlock c fun k => k.append i).slots :=
      subset_slots_modifyBlock fun k => k.slots_append plain
    refine sound.supplied.modify (fun _ => defs_append) (fun r inside => (dest r (mem_toList.mp inside)).unsupplied)
      slots (fun _ => refl _) (fun _ => rfl) (fun _ phi _ _ inside edge => ⟨phi,inside,edge⟩)
      fun {k'} found' => ⟨[i],code_append k' plain,fun before j after single r used => ?_⟩
    obtain rfl := mem_unique found found'
    obtain ⟨rfl,rfl,-⟩ : before = [] ∧ j = i ∧ after = [] := by
      cases before <;> simp_all
    exact (uses r used).mono rfl slots (refl _) (subset_append_left _ _)

theorem Sound.grows_append (sound : Sound supply p) (found : p.graph.block? c = some k)
    (isOpen : k.terminator = none) (plain : i.isAlloc = false) : Grows p (p.modifyBlock c fun k => k.append i) := by
  refine .image _ rfl rfl rfl rfl (Nat.le_refl _) (fun h => h) block?_modifyBlock ?_ ⟨[],?_,by simp⟩ sound.entry
  · intro x k' found'
    split
    · rename_i here
      obtain rfl : k = k' := mem_unique found (here ▸ found')
      refine ⟨rfl,fun phi inside => ⟨phi,inside,rfl,fun _ h => h⟩,?_,?_,fun _ h => h⟩
      · rw [code_append k plain]
        exact prefix_append _ _
      · intro t ended
        rw [isOpen] at ended
        cases ended
    · exact .refl _
  · intro k' _
    split
    · rw [slots_append k' plain,append_nil]
    · exact (append_nil _).symm

private theorem defs_addAlloc : (k.addAlloc i).defs.Perm (i.dest?.toList ++ k.defs) := by
  have parts : k.instrs = k.instrs.takeWhile isAlloc ++ k.instrs.dropWhile isAlloc :=
    takeWhile_append_dropWhile.symm
  have middle : ∀ rest : List Instr, (i :: rest).filterMap dest? = i.dest?.toList ++ rest.filterMap dest? := by
    intro rest
    cases dest : i.dest? <;> simp [dest]
  refine perm_iff_count.mpr fun r => ?_
  have whole : (k.instrs.filterMap dest?).count r =
      ((k.instrs.takeWhile isAlloc).filterMap dest?).count r +
        ((k.instrs.dropWhile isAlloc).filterMap dest?).count r := by
    rw [← count_append,← filterMap_append,← parts]
  simp only [defs,addAlloc,filterMap_append,count_append,middle,whole]
  omega

theorem Sound.slots_addSlot (sound : Sound supply p) :
    (p.modifyBlock p.graph.entry fun k => k.addAlloc (.alloc dest type)).slots = p.slots ++ [dest] := by
  obtain ⟨first,found⟩ := sound.entry
  show (((p.modifyBlock _ _).graph.block? p.graph.entry).map Block.slots).getD [] = _
  rw [slots,block?_modifyBlock,found]
  simpa using slots_addAlloc (sound.numbered.headed found) rfl

theorem Numbered.addSlot (numbered : p.Numbered) (undefined : p.Undefined dest) :
    (p.modifyBlock p.graph.entry fun k => k.addAlloc (.alloc dest type)).Numbered := by
  exact numbered.modify (fun _ => defs_addAlloc) (by simp [dest?]) (by simpa [dest?] using undefined)
    fun headed => headed_addAlloc headed rfl rfl

theorem Sound.addSlot (sound : Sound supply p) (fresh : Fresh supply p p.graph.entry dest) :
    Sound supply (p.modifyBlock p.graph.entry fun k => k.addAlloc (.alloc dest type)) where
  wired := sound.wired.modify fun _ => ⟨rfl,rfl,rfl⟩
  numbered := sound.numbered.addSlot fresh.notDefined
  supplied := by
    refine sound.supplied.modify (fun _ => defs_addAlloc) (by simpa [dest?] using fresh.unsupplied)
      (by rw [sound.slots_addSlot]; exact subset_append_left _ _) (fun _ => refl _) (fun _ => rfl)
      (fun _ phi _ _ inside edge => ⟨phi,inside,edge⟩) fun {k} _ => ⟨[],?_,by simp⟩
    rw [code_addAlloc k rfl,append_nil]

theorem Sound.grows_addSlot (sound : Sound supply p) (type : NativeType) :
    Grows p ((p.allocRegister .ptr).2.modifyBlock p.graph.entry fun k => k.addAlloc (.alloc ⟨p.nextRegister⟩ type)) := by
  have taken := sound.grows_allocRegister .ptr
  refine .image _ rfl rfl rfl rfl taken.registers taken.types block?_modifyBlock ?_ ⟨[⟨p.nextRegister⟩],?_,?_⟩
    sound.entry
  · intro x k _
    split
    · exact .of_same rfl (code_addAlloc k rfl) rfl fun _ h => h
    · exact .refl _
  · intro k found
    rw [if_pos rfl,slots_addAlloc (sound.numbered.headed found) rfl]
  · intro r inside
    obtain rfl := mem_singleton.mp inside
    exact Nat.le_refl _

private theorem defs_addPhi : (k.addPhi phi).defs.Perm ([phi.dest] ++ k.defs) := by
  refine perm_iff_count.mpr fun r => ?_
  simp only [defs,addPhi,map_append,map_cons,map_nil,count_append,
    count_cons,count_nil]
  omega

theorem Numbered.addPhi (numbered : p.Numbered) (undefined : p.Undefined dest) :
    (p.modifyBlock b fun k => k.addPhi ⟨dest,[],type⟩).Numbered := by
  exact numbered.modify (fun _ => defs_addPhi) (by simp) (by simpa using undefined) fun headed => headed

theorem Sound.addPhi (sound : Sound supply p) (found : p.graph.block? b = some k) (bare : k.predecessors = []) (inner : b ≠ p.graph.entry)
    (fresh : Fresh supply p b dest) : Sound supply (p.modifyBlock b fun k => k.addPhi ⟨dest,[],type⟩) where
  wired := sound.wired.addPhi found bare rfl inner
  numbered := sound.numbered.addPhi fresh.notDefined
  supplied := by
    refine sound.supplied.modify (fun _ => defs_addPhi) (by simpa using fresh.unsupplied)
      (subset_slots_modifyBlock fun _ => rfl) (by simp [Block.addPhi]) (fun _ => rfl) (fun k phi a r inside edge => ?_)
      fun _ => ⟨[],(append_nil _).symm,by simp⟩
    rcases mem_append.mp inside with old | new
    · exact ⟨phi,old,edge⟩
    · obtain rfl := mem_singleton.mp new
      cases edge

/-! ### Ends of blocks -/

def close (p : Procedure) (c : BlockId) (t : Terminator) : Procedure := p.modifyGraph fun g => g.close c t

def jump (p : Procedure) (c target : BlockId) (dest value : Register) : Procedure :=
  (p.close c (.branch target)).modifyBlock target fun k => k.addIncoming dest (c, value)

theorem block?_close (x : BlockId) : (p.close c t).graph.block? x = (p.graph.block? x).map (whenClosed c t x) := Graph.block?_close

theorem slots_close : (p.close c t).slots = p.slots := by
  show (((p.close c t).graph.block? (p.close c t).graph.entry).map Block.slots).getD [] = _
  rw [show (p.close c t).graph.entry = p.graph.entry from Graph.entry_close,block?_close,slots]
  cases p.graph.block? p.graph.entry <;> rfl

private theorem defs_whenClosed (isOpen : x = c → k.terminator = none) :
    (whenClosed c t x k).defs.Perm (if x = c then t.dest?.toList ++ k.defs else k.defs) := by
  by_cases here : x = c
  · refine perm_iff_count.mpr fun r => ?_
    simp only [defs,whenClosed,here,if_true,isOpen here,bind_some,bind_none,
      toList_none,append_nil,count_append]
    omega
  · simp [defs,whenClosed,here]

private theorem grows_whenClosed (isOpen : x = c → k.terminator = none) : k.Grows (whenClosed c t x k) where
  merges := rfl
  incoming phi inside := ⟨phi,inside,rfl,fun _ h => h⟩
  code := prefix_refl _
  ended {t'} ended := by
    refine ⟨?_,rfl⟩
    by_cases here : x = c
    · rw [isOpen here] at ended
      cases ended
    · exact (if_neg here).trans ended
  predecessors a inside := by
    show a ∈ if x ∈ t.successors then (k.addPredecessor c).predecessors else k.predecessors
    split
    · exact mem_addPredecessor.mpr (.inl inside)
    · exact inside

theorem Numbered.close (numbered : p.Numbered) (found : p.graph.block? c = some k)
    (isOpen : k.terminator = none) (dest : ∀ r ∈ t.dest?, p.Undefined r) : (p.close c t).Numbered := by
  refine numbered.image _ c t.dest?.toList rfl Graph.entry_close (Nat.le_refl _) numbered.typed block?_close ?_
    (fun r inside => dest r (mem_toList.mp inside)) ?_ (fun _ headed => headed)
  · cases t.dest? <;> simp
  · intro x k' found'
    refine defs_whenClosed fun here => ?_
    obtain rfl : k = k' := mem_unique found (here ▸ found')
    exact isOpen

theorem Sound.close (sound : Sound supply p) (found : p.graph.block? c = some k) (isOpen : k.terminator = none)
    (reach : ∀ x ∈ t.successors, x ≠ p.graph.entry ∧ ∃ k, p.graph.block? x = some k ∧ k.phis = [])
    (uses : ∀ r ∈ t.uses, Holds supply p c k k.code r)
    (passed : ∀ x ∈ t.successors, ∀ r ∈ supply x, Holds supply p c k k.code r ∨ r ∈ t.given x)
    (dest : ∀ r ∈ t.dest?, Fresh supply p c r) : Sound supply (p.close c t) where
  wired := sound.wired.close found isOpen reach
  numbered := sound.numbered.close found isOpen fun r inside => (dest r inside).notDefined
  supplied := by
    have keeps : ∀ {k' r}, Holds supply p c k k.code r → k'.phis = k.phis → k'.code = k.code →
        Holds supply (p.close c t) c k' k'.code r := by
      intro k' r holds samePhis sameCode
      exact holds.mono rfl (by rw [slots_close]; exact fun _ h => h) (by rw [samePhis]; exact fun _ h => h)
        (by rw [sameCode]; exact fun _ h => h)
    refine sound.supplied.image _ rfl Graph.entry_close (Nat.le_refl _) (by rw [slots_close]; exact fun _ h => h)
      block?_close (fun _ _ h => h) (fun _ => ⟨[],(append_nil _).symm,by simp⟩) ?_
      (fun _ inside edge => .inl ⟨_,inside,edge⟩) ?_
    · intro x k' t' found' ended
      by_cases here : x = c
      · subst here
        obtain rfl := mem_unique found found'
        obtain rfl : t = t' := mem_unique (if_pos rfl) ended
        refine .inr ⟨fun r used => keeps (uses r used) rfl rfl,fun y target r counted => ?_⟩
        exact (passed y target r counted).imp_left fun holds => keeps holds rfl rfl
      · exact .inl ((if_neg here).symm.trans ended)
    · intro x k' r found' counted defined
      have member := (defs_whenClosed (fun here => by
        obtain rfl : k = k' := mem_unique found (here ▸ found')
        exact isOpen)).mem_iff.mp defined
      split at member
      · rename_i here
        subst here
        rcases mem_append.mp member with new | old
        · exact absurd counted (dest r (mem_toList.mp new)).unsupplied
        · exact old
      · exact member

theorem Sound.grows_close (sound : Sound supply p) (found : p.graph.block? c = some k)
    (isOpen : k.terminator = none) : Grows p (p.close c t) := by
  refine .image _ rfl rfl rfl Graph.entry_close (Nat.le_refl _) (fun h => h) block?_close ?_
    ⟨[],fun _ => (append_nil _).symm,by simp⟩ sound.entry
  intro x k' found'
  refine grows_whenClosed fun here => ?_
  obtain rfl : k = k' := mem_unique found (here ▸ found')
  exact isOpen

theorem dests_withIncoming : (Build.withIncoming dest edge phis).map Phi.dest = phis.map Phi.dest := by
  induction phis with
  | nil => rfl
  | cons phi rest ih =>
    unfold Build.withIncoming
    split <;> simp [ih]

theorem Numbered.addIncoming (numbered : p.Numbered) (dest : Register) (edge : BlockId × Register) :
    (p.modifyBlock c fun k => k.addIncoming dest edge).Numbered := by
  refine numbered.modify (fun k => ?_) .nil (by simp) fun headed => headed
  simp [Block.defs,Block.addIncoming,dests_withIncoming]

private theorem mem_withIncoming {e : BlockId × Register} (inside : phi ∈ Build.withIncoming dest edge phis) (incoming : e ∈ phi.incoming) :
    e = edge ∨ ∃ old ∈ phis, e ∈ old.incoming := by
  induction phis with
  | nil => cases inside
  | cons first rest ih =>
    unfold Build.withIncoming at inside
    split at inside
    · rcases mem_cons.mp inside with rfl | later
      · rcases mem_append.mp incoming with before | added
        · exact .inr ⟨first,.head _,before⟩
        · exact .inl (mem_singleton.mp added)
      · exact .inr ⟨phi,.tail _ later,incoming⟩
    · rcases mem_cons.mp inside with rfl | later
      · exact .inr ⟨phi,.head _,incoming⟩
      · rcases ih later with here | ⟨old,before,kept⟩
        · exact .inl here
        · exact .inr ⟨old,.tail _ before,kept⟩

private theorem keeps_withIncoming (inside : phi ∈ phis) :
    ∃ phi' ∈ Build.withIncoming dest edge phis, phi'.dest = phi.dest ∧ phi.incoming ⊆ phi'.incoming := by
  induction phis with
  | nil => cases inside
  | cons first rest ih =>
    unfold Build.withIncoming
    split
    · rcases mem_cons.mp inside with rfl | later
      · exact ⟨_,.head _,rfl,subset_append_left _ _⟩
      · exact ⟨phi,.tail _ later,rfl,fun _ h => h⟩
    · rcases mem_cons.mp inside with rfl | later
      · exact ⟨phi,.head _,rfl,fun _ h => h⟩
      · obtain ⟨phi',inside',same,kept⟩ := ih later
        exact ⟨phi',.tail _ inside',same,kept⟩

/-- What becomes of block `x` when block `c` jumps to a block that merges a value. -/
def whenJumped (c target : BlockId) (dest value : Register) (x : BlockId) (k : Block) : Block :=
  { whenClosed c (.branch target) x k with
    phis := if x = target then Build.withIncoming dest (c, value) k.phis else k.phis }

theorem block?_jump (x : BlockId) : (p.jump c target dest value).graph.block? x =
      (p.graph.block? x).map (whenJumped c target dest value x) := by
  rw [jump,block?_modifyBlock,block?_close]
  cases p.graph.block? x with
  | none => rfl
  | some k => by_cases here : x = target <;> simp [here,whenJumped,addIncoming,whenClosed]

theorem dests_whenJumped : (whenJumped c target dest value x k).phis.map Phi.dest = k.phis.map Phi.dest := by
  unfold whenJumped
  by_cases here : x = target <;> simp [here,dests_withIncoming]

private theorem defs_whenJumped (isOpen : x = c → k.terminator = none) : (whenJumped c target dest value x k).defs = k.defs := by
  show (whenJumped c target dest value x k).phis.map Phi.dest ++ _ ++
    ((if x = c then some (Terminator.branch target) else k.terminator).bind Terminator.dest?).toList = _
  rw [dests_whenJumped]
  by_cases here : x = c
  · simp [here,isOpen here,defs,Terminator.dest?,whenJumped,whenClosed]
  · simp [here,defs,whenJumped,whenClosed]

theorem slots_jump : (p.jump c target dest value).slots = p.slots :=
  Eq.trans (slots_modifyBlock fun _ => rfl) slots_close

theorem entry_jump : (p.jump c target dest value).graph.entry = p.graph.entry := Graph.entry_close

theorem Sound.jump (sound : Sound supply p) {k' : Block}
    (found : p.graph.block? c = some k) (isOpen : k.terminator = none) (inner : target ≠ p.graph.entry)
    (there : p.graph.block? target = some k') (merging : k'.phis.map Phi.dest = [dest]) (holds : Holds supply p c k k.code value)
    (passed : ∀ r ∈ supply target, Holds supply p c k k.code r) : Sound supply (p.jump c target dest value) where
  wired := sound.wired.jump found isOpen inner there merging
  numbered := by
    refine sound.numbered.image _ c [] rfl entry_jump (Nat.le_refl _) sound.numbered.typed block?_jump .nil
      (by simp) ?_ (fun _ headed => headed)
    intro x k₁ found₁
    rw [defs_whenJumped fun here => by
      obtain rfl : k = k₁ := mem_unique found (here ▸ found₁)
      exact isOpen]
    simp
  supplied := by
    refine sound.supplied.image _ rfl entry_jump (Nat.le_refl _) (by rw [slots_jump]; exact fun _ h => h)
      block?_jump (fun _ => by rw [dests_whenJumped]; exact fun _ h => h)
      (fun _ => ⟨[],(append_nil _).symm,by simp⟩) ?_ ?_ ?_
    · intro x k₁ t found₁ ended
      by_cases here : x = c
      · subst here
        obtain rfl := mem_unique found found₁
        obtain rfl : Terminator.branch target = t := mem_unique (if_pos rfl) ended
        refine .inr ⟨by simp [Terminator.uses],fun y single r counted => ?_⟩
        obtain rfl := mem_singleton.mp single
        exact .inl ((passed r counted).mono rfl (by rw [slots_jump]; exact fun _ h => h)
          (by rw [dests_whenJumped]; exact fun _ h => h) fun _ h => h)
      · exact .inl ((if_neg here).symm.trans ended)
    · intro x k₁ phi a r found₁ inside edge
      by_cases here : x = target
      · have inside : phi ∈ Build.withIncoming dest (c, value) k₁.phis := by
          simpa [whenJumped,here] using inside
        rcases mem_withIncoming inside edge with new | old
        · obtain ⟨rfl,rfl⟩ := Prod.mk.inj new
          exact .inr ⟨k,found,holds⟩
        · exact .inl old
      · have inside : phi ∈ k₁.phis := by simpa [whenJumped,here] using inside
        exact .inl ⟨phi,inside,edge⟩
    · intro x k₁ r found₁ _ defined
      rwa [defs_whenJumped fun here => by
        obtain rfl : k = k₁ := mem_unique found (here ▸ found₁)
        exact isOpen] at defined

theorem Sound.grows_jump (sound : Sound supply p) (target : BlockId) (dest value : Register)
    (found : p.graph.block? c = some k) (isOpen : k.terminator = none) : Grows p (p.jump c target dest value) := by
  refine .image _ rfl rfl rfl entry_jump (Nat.le_refl _) (fun h => h) block?_jump ?_
    ⟨[],fun _ => (append_nil _).symm,by simp⟩ sound.entry
  intro x k₁ found₁
  have closed : k₁.Grows (whenClosed c (.branch target) x k₁) := grows_whenClosed fun here => by
    obtain rfl : k = k₁ := mem_unique found (here ▸ found₁)
    exact isOpen
  refine ⟨dests_whenJumped,?_,closed.code,closed.ended,closed.predecessors⟩
  intro phi inside
  by_cases here : x = target
  · simpa [whenJumped,here] using keeps_withIncoming inside
  · exact ⟨phi,by simpa [whenJumped,here] using inside,rfl,fun _ h => h⟩

/-- What a block counts on may be decided until an edge leads to it. -/
theorem Sound.resupply (sound : Sound supply p) (found : p.graph.block? b = some k)
    (inner : b ≠ p.graph.entry) (bare : k.predecessors = []) (empty : k.code = []) (isOpen : k.terminator = none)
    (bounded : ∀ r ∈ registers, r.index < p.nextRegister ∧ r ∉ k.defs) : Sound (supply.set b registers) p where
  wired := sound.wired
  numbered := sound.numbered
  supplied := by
    have keeps : ∀ {x k' before r}, x ≠ b → Holds supply p x k' before r →
        Holds (supply.set b registers) p x k' before r := by
      intro x k' before r other holds
      unfold Holds
      rwa [Supply.set_other other]
    have elsewhere : ∀ {x k'}, p.graph.block? x = some k' → x = b → k' = k := fun found' here =>
      mem_unique (here ▸ found') found
    refine ⟨?_,?_,?_,?_,?_,?_,?_⟩
    · intro x k' before i after r found' split used
      refine keeps (fun here => ?_) (sound.supplied.operands found' split used)
      rw [elsewhere found' here,empty] at split
      simp at split
    · intro x k' t r found' ended used
      refine keeps (fun here => ?_) (sound.supplied.endings found' ended used)
      rw [elsewhere found' here,isOpen] at ended
      cases ended
    · intro x k' t y r found' ended target counted
      obtain ⟨-,k₁,foundY,recorded⟩ := sound.wired.targets found' (t := y)
        (by simpa [successors,ended] using target)
      have otherTarget : y ≠ b := by
        intro here
        rw [elsewhere foundY here,bare] at recorded
        cases recorded
      have otherSource : x ≠ b := by
        intro here
        rw [elsewhere found' here,isOpen] at ended
        cases ended
      rw [Supply.set_other otherTarget] at counted
      exact (sound.supplied.edges found' ended target counted).imp_left (keeps otherSource)
    · intro x k' phi a r found' inside edge
      obtain ⟨k₁,source,holds⟩ := sound.supplied.merged found' inside edge
      refine ⟨k₁,source,keeps (fun here => ?_) holds⟩
      have recorded : a ∈ k'.predecessors := by
        rw [← sound.wired.merges found' inside]
        exact mem_map.mpr ⟨_,edge,rfl⟩
      exact sound.wired.not_source found isOpen found' (here ▸ recorded)
    · rw [Supply.set_other inner.symm,sound.supplied.first]
    · intro x k' r found' counted
      by_cases here : x = b
      · rw [here,Supply.set_self] at counted
        rw [elsewhere found' here]
        exact (bounded r counted).2
      · rw [Supply.set_other here] at counted
        exact sound.supplied.apart found' counted
    · intro x k' r found' counted
      by_cases here : x = b
      · rw [here,Supply.set_self] at counted
        exact (bounded r counted).1
      · rw [Supply.set_other here] at counted
        exact sound.supplied.bounded found' counted

end

end Procedure

end BlockLowering
