import BlockLowering.Proofs.Context
/-!
Steps of construction between points of a run. Each says what it needs at the point where it is taken
and describes the point behind it.
-/
namespace BlockLowering
open Lower List Option Procedure Builder Block State Nat
variable {s : State} {p p' : Procedure} {registers : List Register} {k : Block} {i : Instr} {t : Terminator}

/-- A function with an instruction appended to a block, which defines the next register. -/
abbrev Procedure.defining (p : Procedure) (c : BlockId) (type : NativeType) (instr : Register → Instr) : Procedure :=
  (p.allocRegister type).2.modifyBlock c fun k => k.append (instr ⟨p.nextRegister⟩)

namespace State

def put (s : State) (p : Procedure) : State := { s with builder := s.builder.put p }

def moveTo (s : State) (b : BlockId) : State := { s with builder := { s.builder with cursor := some b } }

theorem Stands.put {c : BlockId} (stands : s.Stands p c) : (s.put p').Stands p' c where
  procedure := procedure?_put stands.procedure
  cursor := put_cursor.trans stands.cursor

theorem Stands.quiet {env : Environment} {c : BlockId} (stands : s.Stands p c) (quiet : s.Quiet env s') : s'.Stands p c where
  procedure := quiet.procedure.trans stands.procedure
  cursor := quiet.cursor.trans stands.cursor

theorem Stands.notEnded {c : BlockId} (stands : s.Stands p c) (isOpen : p.IsOpen c) : s.builder.isTerminated = false := by
  obtain ⟨k,found,ended⟩ := isOpen
  simp [Builder.isTerminated,Builder.blockIsTerminated,Builder.block?,stands.procedure,stands.cursor,found,Block.isTerminated,ended]

theorem touches_put {env : Environment} (here : s.builder.procedure? = some p) (same : p'.name = p.name) :
    ∃ id, s.builder.current = some id ∧ Touches env id s (s.put p') := by
  cases current : s.builder.current with
  | none => simp [Builder.procedure?,current] at here
  | some id =>
    have found : s.builder.output.procedures.get? id = some p := by simpa [Builder.procedure?,current] using here
    have output : (s.put p').builder.output = s.builder.output.modifyProcedure id fun _ => p' := by
      simp [put,Builder.put,Builder.modifyProcedure,current]
    have spec : s.Named env → (s.put p').builder.output.Numbered ∧ s.builder.output.Keeps (s.put p').builder.output := fun named => by
      rw [output]
      exact Module.modifyProcedure_spec named.numbered id _ fun q there => mem_unique found there ▸ same
    refine ⟨id,rfl,fun other => ?_,fun h => h,fun named => named.keep (spec named).1 (spec named).2 rfl,fun named => (spec named).2⟩
    rw [output]
    exact Table.get?_modify.trans (if_neg other)

theorem Named.put {env : Environment} (named : s.Named env) (here : s.builder.procedure? = some p) (same : p'.name = p.name) :
    (s.put p').Named env ∧ s.builder.output.Keeps (s.put p').builder.output := by
  obtain ⟨id,-,touches⟩ : ∃ id, _ ∧ Touches env id s (s.put p') := touches_put here same
  exact ⟨touches.named named,touches.keeps named⟩

end State

section
variable {env : Environment} {roots : Expr → Prop} {supply supply' : Supply} {s s' : State} {p p' : Procedure}
  {c : BlockId} {chain : Chain} {levels : List Level} {available available' : List Register} {waits waits' : Waits} {r : Register}

theorem Covered.mono {registers' : List Register} (covered : Covered levels registers)
    (more : registers ⊆ registers') : Covered levels registers' :=
  fun level inside _ h => more (covered level inside h)

theorem Reaches.mono (reaches : Reaches supply p c available)
    (fewer : registers ⊆ available) : Reaches supply p c registers where
  taken r inside := reaches.taken r (fewer inside)
  holds found isOpen r inside := reaches.holds found isOpen r (fewer inside)

theorem Reaches.append (reaches : Reaches supply p c available)
    (found : p.graph.block? c = some k) (isOpen : k.terminator = none) (plain : i.isAlloc = false)
    (taken : ∀ r ∈ i.dest?, r.index < p.nextRegister) :
    Reaches supply (p.modifyBlock c fun k => k.append i) c (i.dest?.toList ++ available) := by
  refine ⟨fun r inside => ?_,?_⟩
  · rcases mem_append.mp inside with dest | old
    · exact taken r (mem_toList.mp dest)
    · exact reaches.taken r old
  · intro k' found' _ r inside
    rw [block?_modifyBlock,found,map_some,if_pos rfl] at found'
    cases found'
    have code := code_append k plain
    rcases mem_append.mp inside with dest | old
    · refine .inr (.inr (.inr (.inr ?_)))
      rw [code,filterMap_append]
      refine mem_append_right _ ?_
      simp [mem_toList.mp dest]
    · refine (reaches.holds found isOpen r old).mono rfl ?_ (.refl _) ?_
      · rw [slots_modifyBlock fun k => k.slots_append plain]
        exact fun _ h => h
      · rw [code]
        exact subset_append_left _ _

@[simp] theorem State.put_put : (s.put p).put p' = s.put p' := by simp [put]

theorem Accounted.closing {expected : List BlockId}
    (accounted : Accounted env roots p c expected) (grows : p.Grows p') (F : BlockId → Block → Block)
    (lookup : p.graph.Image F p'.graph) (same : ∀ x k, (F x k).terminator = (whenClosed c t x k).terminator ∧
      (F x k).predecessors = (whenClosed c t x k).predecessors)
    (awaited : ∀ x ∈ t.successors, Awaited p expected x) : Accounted env roots p' c expected := by
  intro b k' found' isOpen entered
  obtain ⟨k,found,rfl⟩ := lookup.old found'
  rw [(same b k).1] at isOpen
  rw [(same b k).2] at entered
  have other : b ≠ c := by
    rintro rfl
    simp [whenClosed] at isOpen
  have isOpen : k.terminator = none := by simpa [whenClosed,other] using isOpen
  have before : k.predecessors ≠ [] ∨ b = p.graph.entry → b = c ∨ b ∈ expected ∨ LeftOpen env roots p' b :=
    fun entered => (accounted b k found isOpen entered).imp_right (.imp_right fun left => left.grow grows)
  by_cases target : b ∈ t.successors
  · rcases awaited b target with waited | ⟨k₁,found₁,used⟩
    · exact .inr (.inl waited)
    · obtain rfl := mem_unique found found₁
      exact before (.inl (used.resolve_right fun ended => ended isOpen))
  · refine before (entered.imp (fun edges => ?_) fun first => ?_)
    · simpa [whenClosed,target] using edges
    · rwa [grows.entry] at first

theorem Awaited.closing {F : BlockId → Block → Block} {x : BlockId}
    (lookup : p.graph.Image F p'.graph) (same : ∀ x k, (F x k).predecessors = (whenClosed c t x k).predecessors)
    (found : p.graph.block? x = some k) (target : x ∈ t.successors) : Awaited p' [] x := by
  refine .inr ⟨F x k,lookup.new found,.inl ?_⟩
  rw [same]
  refine ne_nil_of_mem (a := c) ?_
  simp [whenClosed,target,mem_addPredecessor]

/-- Nothing can be appended at the cursor. -/
def State.Closed (s : State) : Prop := s.builder.isTerminated = true

section
variable (standing : Standing env roots supply s p c chain levels available waits)
variable {k : Block}
include standing

theorem Standing.unique (here : s.builder.procedure? = some p') : p' = p :=
  mem_unique here standing.stands.procedure

theorem Standing.put (later : Later supply p supply' p') (sound : p'.Sound supply') (reaches : Reaches supply' p' c available')
    (covered : Covered levels available') (wider : waits.Within waits')
    (accounted : Accounted env roots p' c (waits'.all ++ chain.handlers s.scopes)) :
    Standing env roots supply' (s.put p') p' c chain levels available' waits' ∧ Leads chain none supply s supply' (s.put p') := by
  obtain ⟨id,current,touches⟩ := touches_put standing.stands.procedure later.grows.name
  obtain ⟨k,here⟩ := standing.here
  obtain ⟨k',here',-⟩ := later.grows.blocks here
  refine ⟨⟨standing.stands.put,⟨k',here'⟩,sound,reaches,
    standing.fits.later later wider.targets fun _ _ => rfl,covered,accounted,touches.named standing.named⟩,?_⟩
  exact {
    current := put_current
    later := fun there => ⟨p',standing.stands.put.procedure,standing.unique there ▸ later⟩
    others := fun outside => touches.others fun same => outside (same ▸ current)
    names := touches.keeps standing.named
    functions := fun h => h
    size := rfl
    frame := fun there _ => there
    slots := fun there _ => ⟨_,there,rfl⟩ }

theorem Standing.accounted_of_image (grows : p.Grows p') (F : BlockId → Block → Block) (lookup : p.graph.Image F p'.graph)
    (same : ∀ x k, (F x k).terminator = k.terminator ∧ (F x k).predecessors = k.predecessors) :
    Accounted env roots p' c (waits.all ++ chain.handlers s.scopes) := by
  refine standing.accounted.later grows ?_
  intro b k' found' isOpen entered
  obtain ⟨k,found,rfl⟩ := lookup.old found'
  rw [(same b k).1] at isOpen
  rw [(same b k).2] at entered
  exact ⟨k,found,isOpen,entered⟩

theorem Standing.takeRegister (type : NativeType) :
    Standing env roots supply (s.put (p.allocRegister type).2) (p.allocRegister type).2 c chain levels available waits ∧
      Leads chain none supply s supply (s.put (p.allocRegister type).2) := by
  have grows := standing.sound.grows_allocRegister type
  refine standing.put ⟨grows,fun _ => rfl⟩ (standing.sound.allocRegister type) ?_ standing.covered (.refl _) ?_
  · exact ⟨fun r inside => lt_succ_of_lt (standing.reaches.taken r inside),standing.reaches.holds⟩
  · exact standing.accounted_of_image grows (fun _ k => k) (fun x => by simp; rfl) fun _ _ => ⟨rfl,rfl⟩

theorem Standing.append (found : p.graph.block? c = some k) (isOpen : k.terminator = none)
    (plain : i.isAlloc = false) (uses : i.uses ⊆ available) (dest : ∀ r ∈ i.dest?, p.Fresh supply c r) :
    Standing env roots supply (s.put (p.modifyBlock c fun k => k.append i)) (p.modifyBlock c fun k => k.append i) c
        chain levels (i.dest?.toList ++ available) waits ∧
      Leads chain none supply s supply (s.put (p.modifyBlock c fun k => k.append i)) := by
  have grows := standing.sound.grows_append found isOpen plain
  refine standing.put ⟨grows,fun _ => rfl⟩ (standing.sound.append found plain ?_ dest)
    (standing.reaches.append found isOpen plain fun r inside => (dest r inside).taken)
    (standing.covered.mono (subset_append_right _ _)) (.refl _) ?_
  · exact fun r used => standing.reaches.holds found isOpen r (uses used)
  · refine standing.accounted_of_image grows _ block?_modifyBlock fun x k => ?_
    split <;> exact ⟨rfl,rfl⟩

theorem Standing.define (type : NativeType) (instr : Register → Instr) (found : p.graph.block? c = some k)
    (isOpen : k.terminator = none) (plain : (instr ⟨p.nextRegister⟩).isAlloc = false)
    (dest : (instr ⟨p.nextRegister⟩).dest? = some ⟨p.nextRegister⟩) (uses : (instr ⟨p.nextRegister⟩).uses ⊆ available) :
    Standing env roots supply (s.put (p.defining c type instr)) (p.defining c type instr) c chain levels
        (⟨p.nextRegister⟩ :: available) waits ∧ Leads chain none supply s supply (s.put (p.defining c type instr)) := by
  obtain ⟨taken,leads⟩ := standing.takeRegister type
  obtain ⟨after,leads'⟩ := taken.append (i := instr ⟨p.nextRegister⟩) found isOpen plain uses (by
    intro r inside
    rw [dest] at inside
    cases inside
    exact standing.sound.fresh type found)
  rw [State.put_put,dest] at after
  rw [State.put_put] at leads'
  exact ⟨after,leads.trans leads'⟩

theorem Standing.allocate (type : NativeType) :
    let p' := (p.allocRegister .ptr).2.modifyBlock p.graph.entry fun k => k.addAlloc (.alloc ⟨p.nextRegister⟩ type)
    Standing env roots supply (s.put p') p' c chain levels (⟨p.nextRegister⟩ :: available) waits ∧
      Leads chain none supply s supply (s.put p') := by
  have taken := standing.sound.allocRegister .ptr
  obtain ⟨first,entry⟩ := standing.sound.entry
  have grows := standing.sound.grows_addSlot type
  have slots : ((p.allocRegister .ptr).2.modifyBlock p.graph.entry fun k =>
      k.addAlloc (.alloc ⟨p.nextRegister⟩ type)).slots = p.slots ++ [⟨p.nextRegister⟩] := taken.slots_addSlot
  refine standing.put ⟨grows,fun _ => rfl⟩ (taken.addSlot (standing.sound.fresh .ptr entry)) ?_
    (standing.covered.mono (subset_cons_self _ _)) (.refl _) ?_
  · refine ⟨fun r inside => ?_,?_⟩
    · rcases mem_cons.mp inside with rfl | old
      · exact lt_succ_self _
      · exact lt_succ_of_lt (standing.reaches.taken r old)
    · intro k' found' isOpen r inside
      obtain ⟨k,found,rfl⟩ := map_eq_some_iff.mp (block?_modifyBlock c ▸ found')
      have same : ∀ k : Block, (if c = p.graph.entry then k.addAlloc (.alloc ⟨p.nextRegister⟩ type) else k).phis = k.phis ∧
          (if c = p.graph.entry then k.addAlloc (.alloc ⟨p.nextRegister⟩ type) else k).terminator = k.terminator ∧
          (if c = p.graph.entry then k.addAlloc (.alloc ⟨p.nextRegister⟩ type) else k).code = k.code := by
        intro k
        split
        · exact ⟨rfl,rfl,code_addAlloc k rfl⟩
        · exact ⟨rfl,rfl,rfl⟩
      rw [(same k).2.1] at isOpen
      rw [(same k).2.2]
      rcases mem_cons.mp inside with rfl | old
      · refine .inr (.inl ?_)
        rw [slots]
        exact mem_append_right _ (mem_singleton_self _)
      · refine (standing.reaches.holds found isOpen r old).mono rfl ?_ ?_ fun _ h => h
        · rw [slots]
          exact subset_append_left _ _
        · rw [(same k).1]
          exact fun _ h => h
  · refine standing.accounted_of_image grows _ block?_modifyBlock fun x k => ?_
    split <;> exact ⟨rfl,rfl⟩

theorem Standing.close (found : p.graph.block? c = some k) (isOpen : k.terminator = none)
    (uses : t.uses ⊆ available) (dest : ∀ r ∈ t.dest?, p.Fresh supply c r)
    (reach : ∀ x ∈ t.successors, x ≠ p.graph.entry ∧ (∃ k, p.graph.block? x = some k ∧ k.phis = []) ∧ supply x ⊆ t.given x ++ available ∧
      Awaited p (waits.all ++ chain.handlers s.scopes) x)
    (taken : ∀ r ∈ available', r.index < p.nextRegister) (covered : Covered levels available') :
    Standing env roots supply (s.put (p.close c t)) (p.close c t) c chain levels available' waits ∧
      Leads chain none supply s supply (s.put (p.close c t)) := by
  have grows := standing.sound.grows_close (t := t) found isOpen
  refine standing.put ⟨grows,fun _ => rfl⟩ (standing.sound.close found isOpen ?_ ?_ ?_ dest) ⟨taken,?_⟩ covered
    (.refl _) (standing.accounted.closing grows _ block?_close (fun _ _ => ⟨rfl,rfl⟩) fun x inside => (reach x inside).2.2.2)
  · exact fun x inside => ⟨(reach x inside).1,(reach x inside).2.1⟩
  · exact fun r used => standing.reaches.holds found isOpen r (uses used)
  · intro x inside r counted
    rcases mem_append.mp ((reach x inside).2.2.1 counted) with given | held
    · exact .inr given
    · exact .inl (standing.reaches.holds found isOpen r held)
  · intro k' found' stillOpen
    rw [block?_close,found] at found'
    cases found'
    simp [whenClosed] at stillOpen

theorem Standing.isTerminated (found : p.graph.block? c = some k) : s.builder.isTerminated = k.terminator.isSome := by
  simp [Builder.isTerminated,standing.stands.cursor,Builder.blockIsTerminated,Builder.block?,
    standing.stands.procedure,found,Block.isTerminated]

theorem Standing.closed_iff : s.Closed ↔ ¬ p.IsOpen c := by
  obtain ⟨k,found⟩ := standing.here
  rw [State.Closed,standing.isTerminated found]
  constructor
  · rintro ended ⟨k',found',isOpen⟩
    obtain rfl := mem_unique found found'
    simp [isOpen] at ended
  · intro notOpen
    cases ended : k.terminator with
    | none => exact absurd ⟨k,found,ended⟩ notOpen
    | some t => rfl

theorem Standing.annotate (quiet : s.Quiet env s') :
    Standing env roots supply s' p c chain levels available waits ∧ Leads chain none supply s supply s' := by
  have procedure := quiet.procedure
  have scopes := quiet.scopes
  refine ⟨⟨standing.stands.quiet quiet,standing.here,
    standing.sound,standing.reaches,by rw [scopes]; exact standing.fits,standing.covered,
    by rw [scopes]; exact standing.accounted,quiet.named standing.named⟩,?_⟩
  exact {
    current := quiet.current
    later := fun there => ⟨_,procedure.trans there,.refl _ _⟩
    others := fun _ => by rw [quiet.procedures]
    names := quiet.keeps standing.named
    functions := quiet.functions
    size := by rw [scopes]
    frame := fun there _ => by rw [scopes]; exact there
    slots := fun there _ => ⟨_,by rw [scopes]; exact there,rfl⟩ }

end

end

end BlockLowering
