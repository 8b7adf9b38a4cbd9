import BlockLowering.Proofs.Points
/-!
New blocks, continuations, jumps and moves of the cursor. A block is waited for from its creation on, so
that edges may lead to it, until the cursor has come to it.
-/
namespace BlockLowering
open Lower List Procedure Supply Phi

section
variable {env : Environment} {roots : Expr → Prop} {supply supply' : Supply} {s s' : State} {p p' : Procedure}
  {b c : BlockId} {chain : Chain} {levels : List Level} {available available' counted : List Register}
  {waited targets : List BlockId} {waits waits' : Waits} {r : Register} {owner : Option Nat}
variable {k : Continuation}

theorem Awaited.drop {x : BlockId} (awaited : Awaited p (b :: waited) x) (arrived : Awaited p waited b) : Awaited p waited x := by
  rcases awaited with inside | used
  · rcases mem_cons.mp inside with rfl | inside
    · exact arrived
    · exact .inl inside
  · exact .inr used

private theorem Accounted.drop {expected expected' : List BlockId} (accounted : Accounted env roots p c expected')
    (cut : ∀ {x}, x ∈ expected' → x = b ∨ x ∈ expected) (done : b = c ∨ b ∈ expected ∨ ¬ p.IsOpen b) :
    Accounted env roots p c expected := by
  intro x k found isOpen entered
  rcases accounted x k found isOpen entered with here | waited | left
  · exact .inl here
  · rcases cut waited with rfl | waited
    · rcases done with here | waited | closed
      · exact .inl here
      · exact .inr (.inl waited)
      · exact absurd ⟨k,found,isOpen⟩ closed
    · exact .inr (.inl waited)
  · exact .inr (.inr left)

theorem Standing.dropOther (standing : Standing env roots supply s p c chain levels available (waits.other b))
    (done : b = c ∨ b ∈ chain.handlers s.scopes ∨ ¬ p.IsOpen b) : Standing env roots supply s p c chain levels available waits :=
  { standing with
    accounted := standing.accounted.drop (by simp [or_assoc])
      (done.imp_right (Or.imp_left (mem_append_right _))) }

theorem Standing.dropTarget (standing : Standing env roots supply s p c chain levels available (waits.target b))
    (arrived : Awaited p waits.targets b) (done : b = c ∨ ¬ p.IsOpen b) : Standing env roots supply s p c chain levels available waits :=
  { standing with
    fits := standing.fits.map id (fun awaited => awaited.drop arrived) fun _ _ => rfl
    accounted := standing.accounted.drop (by simp [or_assoc]) (done.imp_right .inr) }

theorem Known.reaches (known : Known supply p k counted) (sound : p.Sound supply) : Reaches supply p k.block (k.phi.toList ++ counted) := by
  obtain ⟨block,found,merges⟩ := known.there
  refine ⟨fun r inside => ?_,fun {k'} found' _ r inside => ?_⟩
  · rcases mem_append.mp inside with phi | held
    · refine (sound.numbered.defined found ?_).1
      simp only [Block.defs,mem_append]
      exact .inl (.inl (merges ▸ phi))
    · exact sound.supplied.bounded found (known.supply ▸ held)
  · obtain rfl := Option.mem_unique found found'
    rcases mem_append.mp inside with phi | held
    · exact .inr (.inr (.inr (.inl (merges ▸ phi))))
    · exact .inr (.inr (.inl (known.supply ▸ held)))

/-! ### New blocks -/

/-- A function has gained a block without code, which counts on some registers and merges some values. -/
structure Procedure.Gains (supply : Supply) (p : Procedure) (supply' : Supply) (p' : Procedure) (b : BlockId)
    (counted : List Register) (merges : List Phi) : Prop where
  later : Later supply p supply' p'
  sound : p'.Sound supply'
  absent : p.graph.block? b = none
  inner : b ≠ p'.graph.entry
  others : ∀ {x}, x ≠ b → p'.graph.block? x = p.graph.block? x
  blank : ∃ k, p'.graph.block? b = some k ∧ k.code = [] ∧ k.terminator = none ∧ k.predecessors = [] ∧ k.phis = merges ∧
    k.defs = merges.map dest
  slots : p'.slots = p.slots
  counts : supply' b = counted

namespace Procedure.Gains
variable {merges : List Phi}

theorem create (sound : p.Sound supply) (bounded : ∀ r ∈ counted, r.index < p.nextRegister) :
    Gains supply p (supply.set p.nextBlock counted) p.createBlock p.nextBlock counted [] where
  later := ⟨sound.grows_createBlock,fun found => set_other (sound.nextBlock_ne found)⟩
  sound := sound.createBlock bounded
  absent := sound.absent
  inner := by
    obtain ⟨k,found⟩ := sound.entry
    exact (sound.nextBlock_ne found).symm
  others other := by rw [block?_createBlock,if_neg other]
  blank := ⟨Block.new p.nextBlock,by rw [block?_createBlock,if_pos rfl],rfl,rfl,rfl,rfl,rfl⟩
  slots := sound.slots_createBlock
  counts := set_self

theorem modify {f : Block → Block} {merges' : List Phi} (gains : Gains supply p supply' p' b counted merges)
    (sound : (p'.modifyBlock b f).Sound supply') (slots : ∀ k, (f k).slots = k.slots)
    (blank : ∀ k : Block, k.code = [] → k.terminator = none → k.predecessors = [] → k.phis = merges → k.defs = merges.map dest →
      (f k).code = [] ∧ (f k).terminator = none ∧ (f k).predecessors = [] ∧ (f k).phis = merges' ∧
        (f k).defs = merges'.map dest) : Gains supply p supply' (p'.modifyBlock b f) b counted merges' where
  later := ⟨gains.later.grows.modify_new gains.absent (by rw [← gains.later.grows.entry]; exact gains.inner),gains.later.supply⟩
  sound := sound
  absent := gains.absent
  inner := gains.inner
  others {x} other := by
    rw [block?_modifyBlock,gains.others other]
    cases p.graph.block? x <;> simp [other]
  blank := by
    obtain ⟨k,found,code,ended,bare,phis,defs⟩ := gains.blank
    exact ⟨f k,by rw [block?_modifyBlock,found,Option.map_some,if_pos rfl],blank k code ended bare phis defs⟩
  slots := (slots_modifyBlock slots).trans gains.slots
  counts := gains.counts

theorem labelled {label : String} (sound : p.Sound supply) (bounded : ∀ r ∈ counted, r.index < p.nextRegister)
    (made : p' = p.createBlock ∨ p' = p.createBlock.modifyBlock p.nextBlock fun k => { k with label := some label }) :
    Gains supply p (supply.set p.nextBlock counted) p' p.nextBlock counted [] := by
  have gains := create sound bounded
  rcases made with rfl | rfl
  · exact gains
  · exact gains.modify (gains.sound.relabel (some label)) (fun _ => rfl) fun k code ended bare phis defs => ⟨code,ended,bare,phis,defs⟩

theorem allocRegister (gains : Gains supply p supply' p' b counted merges) (type : NativeType) :
    Gains supply p supply' (p'.allocRegister type).2 b counted merges where
  later := ⟨gains.later.grows.trans (gains.sound.grows_allocRegister type),gains.later.supply⟩
  sound := gains.sound.allocRegister type
  absent := gains.absent
  inner := gains.inner
  others other := gains.others other
  blank := gains.blank
  slots := gains.slots
  counts := gains.counts

theorem addPhi (gains : Gains supply p supply' p' b counted []) {dest : Register} (type : NativeType) (fresh : p'.Fresh supply' b dest) :
    Gains supply p supply' (p'.modifyBlock b fun k => k.addPhi ⟨dest,[],type⟩) b counted [⟨dest,[],type⟩] := by
  refine gains.modify ?_ (fun _ => rfl) fun k code ended bare phis defs => ⟨code,ended,bare,by simp [Block.addPhi,phis],?_⟩
  · obtain ⟨k,found,-,-,bare,-⟩ := gains.blank
    exact gains.sound.addPhi found bare gains.inner fresh
  · have others : k.instrs.filterMap Instr.dest? ++ (k.terminator.bind Terminator.dest?).toList = [] := by
      simpa [Block.defs,phis] using defs
    simp only [Block.defs,Block.addPhi,phis,append_assoc,nil_append,others]
    rfl

theorem resupply (gains : Gains supply p supply' p' b counted merges) (registers : List Register)
    (bounded : ∀ r ∈ registers, r.index < p'.nextRegister ∧ r ∉ merges.map dest) :
    Gains supply p (supply'.set b registers) p' b registers merges where
  later := ⟨gains.later.grows,fun {x k} found => by
    rw [set_other fun here => by simp [here,gains.absent] at found]
    exact gains.later.supply found⟩
  sound := by
    obtain ⟨k,found,code,ended,bare,phis,defs⟩ := gains.blank
    exact gains.sound.resupply found gains.inner bare code ended (by rw [defs]; exact bounded)
  absent := gains.absent
  inner := gains.inner
  others := gains.others
  blank := gains.blank
  slots := gains.slots
  counts := set_self

end Procedure.Gains

theorem Procedure.Gains.known (gains : p.Gains supply supply' p' b counted []) : Known supply' p' b.plain counted where
  inner := gains.inner
  there := by
    obtain ⟨k,found,-,-,-,phis,-⟩ := gains.blank
    exact ⟨k,found,by simp [phis]⟩
  supply := gains.counts
  typed phi := by cases phi
  valueless := rfl

theorem Continuation.registers_value (k : Continuation) : k.value.registers = k.phi.toList := by
  unfold Continuation.value
  cases k.phi <;> rfl

theorem Continuation.isUnreachable_value (k : Continuation) : k.value.isUnreachable = false := by
  unfold Continuation.value
  cases k.phi <;> rfl

section
variable (standing : Standing env roots supply s p c chain levels available waits)
variable {v : Value} {label : String} {k : Continuation} {u : Unit}
include standing

/-! ### Standing points -/

theorem Standing.weaken (fewer : available' ⊆ available) (covered : Covered levels available') (wider : waits.Within waits') :
    Standing env roots supply s p c chain levels available' waits' :=
  { standing with
    reaches := standing.reaches.mono fewer
    fits := standing.fits.later (.refl _ _) wider.targets fun _ _ => rfl
    covered := covered
    accounted := standing.accounted.mono (append_subset.mpr
      ⟨fun _ h => mem_append_left _ (wider.all h),subset_append_right _ _⟩) }

theorem Standing.await (wider : waits.Within waits') : Standing env roots supply s p c chain levels available waits' :=
  standing.weaken (fun _ h => h) standing.covered wider

theorem Standing.move (there : ∃ k, p.graph.block? b = some k) (reaches : Reaches supply p b available')
    (covered : Covered levels available') (behind : p.IsOpen c → c ∈ waits.all ∨ LeftOpen env roots p c) :
    Standing env roots supply (s.moveTo b) p b chain levels available' waits ∧ Leads chain none supply s supply (s.moveTo b) := by
  refine ⟨⟨⟨standing.stands.procedure,rfl⟩,there,standing.sound,reaches,standing.fits,covered,?_,
    standing.named.keep standing.named.numbered (.refl _) rfl⟩,?_⟩
  · intro x k found isOpen entered
    rcases standing.accounted x k found isOpen entered with rfl | waited | left
    · rcases behind ⟨k,found,isOpen⟩ with waited | left
      · exact .inr (.inl (mem_append_left _ waited))
      · exact .inr (.inr left)
    · exact .inr (.inl waited)
    · exact .inr (.inr left)
  · exact {
      current := rfl
      later := fun there => ⟨_,there,.refl _ _⟩
      others := fun _ => rfl
      names := .refl _
      functions := fun h => h
      size := rfl
      frame := fun there _ => there
      slots := fun there _ => ⟨_,there,rfl⟩ }

theorem Standing.gain {merges : List Phi} (gains : p.Gains supply supply' p' b counted merges) :
    Standing env roots supply' (s.put p') p' c chain levels available waits ∧ Leads chain none supply s supply' (s.put p') := by
  obtain ⟨k,here⟩ := standing.here
  have other : ∀ {x k}, p.graph.block? x = some k → x ≠ b := by
    rintro x k found rfl
    simp [gains.absent] at found
  refine standing.put gains.later gains.sound ⟨fun r inside => ?_,fun {k'} found isOpen r inside => ?_⟩
    standing.covered (.refl _) ?_
  · exact Nat.lt_of_lt_of_le (standing.reaches.taken r inside) gains.later.grows.registers
  · rw [gains.others (other here)] at found
    have holds := standing.reaches.holds found isOpen r inside
    unfold Procedure.Holds Procedure.inputs
    rw [gains.later.grows.header,gains.slots,gains.later.supply here]
    exact holds
  · refine standing.accounted.later gains.later.grows ?_
    intro x k' found isOpen entered
    by_cases new : x = b
    · subst new
      obtain ⟨k₁,found₁,-,-,bare,-⟩ := gains.blank
      obtain rfl := Option.mem_unique found₁ found
      rcases entered with edges | first
      · exact absurd bare edges
      · exact absurd (first.trans gains.later.grows.entry.symm) gains.inner
    · rw [gains.others new] at found
      exact ⟨k',found,isOpen,entered⟩

end

end

end BlockLowering
