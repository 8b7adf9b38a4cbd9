import BlockLowering.Proofs.Construction
import BlockLowering.Proofs.Outcomes
/-!
The effect of every step of construction on the function at the cursor. A successful step replaces the
function by a changed one and may move the cursor; nothing else of the builder changes.
-/
namespace BlockLowering
open Builder Except Table Option
variable {id : BlockId} {change : BlockId → Procedure → Procedure} {missing : Breach} {signature : Signature} {dest : Option Register}

namespace Table
variable {κ α : Type} [DecidableEq κ]

theorem modify_congr {t : Table κ α} {k : κ} {v : α} {f g : α → α} (found : t.get? k = some v)
    (same : f v = g v) : t.modify k f = t.modify k g := by
  have entries : ∀ e ∈ t.entries, (e.1, if e.1 = k then f e.2 else e.2) = (e.1, if e.1 = k then g e.2 else e.2) := by
    rintro ⟨x,w⟩ inside
    by_cases here : x = k
    · subst here
      obtain rfl := mem_unique found (mem_entries_iff.mp inside)
      simp [same]
    · simp [here]
  simp only [modify,mk.injEq]
  exact List.map_congr_left entries

theorem modify_modify {t : Table κ α} {k : κ} {f g : α → α} : (t.modify k f).modify k g = t.modify k (g ∘ f) := by
  simp only [modify,mk.injEq,List.map_map]
  refine List.map_congr_left fun e _ => ?_
  by_cases here : e.1 = k <;> simp [here]

end Table

namespace Builder
variable {b : Builder} {p p' : Procedure} {c : BlockId}

def put (b : Builder) (p : Procedure) : Builder := b.modifyProcedure fun _ => p

theorem modifyProcedure_eq {f : Procedure → Procedure} (here : b.procedure? = some p) : b.modifyProcedure f = b.put (f p) := by
  unfold put modifyProcedure
  cases current : b.current with
  | none => rfl
  | some id =>
    have found : b.output.procedures.get? id = some p := by simpa [procedure?,current] using here
    simp only [Module.modifyProcedure,modify_congr found (g := fun _ => f p) rfl]

theorem put_self (here : b.procedure? = some p) : b.put p = b := by
  have same : b.modifyProcedure (fun p => p) = b := by
    rcases b with ⟨output,current,cursor,emitLabels⟩
    cases current <;> simp [modifyProcedure,Module.modifyProcedure,Table.modify]
  exact (modifyProcedure_eq here).symm.trans same

@[simp] theorem put_put : (b.put p).put p' = b.put p' := by
  unfold put modifyProcedure
  cases current : b.current with
  | none => simp [current]
  | some id => simp [Module.modifyProcedure,modify_modify,Function.comp_def]

@[simp] theorem put_current : (b.put p).current = b.current := by
  unfold put modifyProcedure
  cases current : b.current <;> simp [current]

@[simp] theorem put_cursor : (b.put p).cursor = b.cursor := by
  unfold put modifyProcedure
  cases b.current <;> rfl

@[simp] theorem put_emitLabels : (b.put p).emitLabels = b.emitLabels := by
  unfold put modifyProcedure
  cases b.current <;> rfl

theorem procedure?_put (here : b.procedure? = some p) : (b.put p').procedure? = some p' := by
  unfold procedure? at here ⊢
  cases current : b.current with
  | none => simp [current] at here
  | some id =>
    have found : b.output.procedures.get? id = some p := by simpa [current] using here
    simp [put,modifyProcedure,current,Module.modifyProcedure,found]

end Builder

/-! ### Actions -/

/-- What a step does to the function at the cursor. -/
structure Action (α : Type) where
  /-- The failure where there is no function at the cursor. -/
  outside : Option BlockId → Error
  /-- The result and the changed function, from the block at the cursor and whether labels are kept. -/
  inside : Option BlockId → Bool → Procedure → Except Error α × Procedure

/-- A step of construction is an action. -/
structure Build.Acts {α : Type} (m : Build α) (action : Action α) : Prop where
  inside : ∀ {b p}, b.procedure? = some p →
    m.run.run b = ((action.inside b.cursor b.emitLabels p).1, b.put (action.inside b.cursor b.emitLabels p).2)
  outside : ∀ {b}, b.procedure? = none → m.run.run b = (.error (action.outside b.cursor), b)

namespace Build
variable {α β : Type} {m : Build α} {action : Action α} {b b' : Builder} {p : Procedure} {a : α}

theorem run_get_bind (f : Builder → Build β) : (get >>= f).run.run b = (f b).run.run b := rfl

theorem run_procedure : procedure.run.run b = (match b.procedure? with
      | some p => .ok p
      | none => .error (.internal .noProcedure), b) := by
  show (match b.procedure? with
    | some p => pure p
    | none => breach .noProcedure : Build Procedure).run.run b = _
  cases b.procedure? <;> rfl

theorem Acts.of_runs (acts : m.Acts action) (here : b.procedure? = some p) (run : Runs m b a b') :
    (action.inside b.cursor b.emitLabels p).1 = .ok a ∧ b' = b.put (action.inside b.cursor b.emitLabels p).2 := by
  obtain ⟨result,after⟩ := Prod.mk.inj ((acts.inside here).symm.trans run)
  exact ⟨result,after.symm⟩

theorem Acts.runs (acts : m.Acts action) (run : Runs m b a b') : ∃ p, b.procedure? = some p ∧
    (action.inside b.cursor b.emitLabels p).1 = .ok a ∧ b' = b.put (action.inside b.cursor b.emitLabels p).2 := by
  cases here : b.procedure? with
  | none => cases (Prod.mk.inj ((acts.outside here).symm.trans run)).1
  | some p => exact ⟨p,rfl,acts.of_runs here run⟩

end Build

namespace Action
variable {p : Procedure} {b : Builder}
open Build

def allocRegister (type : NativeType) : Action Register where
  outside _ := .internal .noProcedure
  inside _ _ p := (.ok (p.allocRegister type).1, (p.allocRegister type).2)

theorem acts_allocRegister (type : NativeType) : (Build.allocRegister type).Acts (allocRegister type) where
  inside {b p} here := by
    unfold Build.allocRegister
    rw [run_bind,run_procedure,here]
    show (ok (p.allocRegister type).1, b.modifyProcedure _) = _
    rw [modifyProcedure_eq here]
    rfl
  outside {b} none := by
    unfold Build.allocRegister
    rw [run_bind,run_procedure,none]
    rfl

/-- The block at the cursor, if code can be appended to it. -/
def openAt (c : Option BlockId) (p : Procedure) : Except Error BlockId :=
  match c with
  | none => .error (.internal .noInsertionBlock)
  | some id =>
    match p.graph.block? id with
    | none => .error (.internal (.noBlock id))
    | some k => if k.isTerminated then .error (.terminatedBlock p.name id) else .ok id

theorem openAt_eq_ok {c : Option BlockId} (isOpen : openAt c p = .ok id) :
    c = some id ∧ ∃ k, p.graph.block? id = some k ∧ k.terminator = none := by
  unfold openAt at isOpen
  split at isOpen
  · cases isOpen
  · split at isOpen
    · cases isOpen
    · split at isOpen
      · cases isOpen
      · rename_i unended
        obtain rfl := ok.inj isOpen
        exact ⟨rfl,_,‹_›,by simpa [Block.isTerminated] using unended⟩

theorem run_openBlock (here : b.procedure? = some p) : openBlock.run.run b = (openAt b.cursor p, b) := by
  unfold openBlock insertionBlock openAt
  rw [run_bind,run_get_bind]
  cases b.cursor with
  | none => rfl
  | some id =>
    show (procedure >>= _).run.run b = _
    rw [run_bind,run_procedure,here]
    dsimp only
    cases p.graph.block? id with
    | none => rfl
    | some k =>
      dsimp only
      split <;> rfl

theorem run_openBlock_outside (none : b.procedure? = none) :
    openBlock.run.run b = (.error (if b.cursor.isSome then .internal .noProcedure else .internal .noInsertionBlock), b) := by
  unfold openBlock insertionBlock
  rw [run_bind,run_get_bind]
  cases b.cursor with
  | none => rfl
  | some id =>
    show (procedure >>= _).run.run b = _
    rw [run_bind,run_procedure,none]
    rfl

/-- A change at the block at the cursor, which has to be open. -/
def atOpen (change : BlockId → Procedure → Procedure) : Action Unit where
  outside c := if c.isSome then .internal .noProcedure else .internal .noInsertionBlock
  inside c _ p :=
    match openAt c p with
    | .ok id => (.ok (), change id p)
    | .error e => (.error e, p)

theorem acts_atOpen {m : BlockId → Build Unit}
    (same : ∀ id, m id = modifyProcedure (change id)) : (openBlock >>= m).Acts (atOpen change) where
  inside {b p} here := by
    rw [run_bind,run_openBlock here]
    unfold atOpen
    dsimp only
    cases openAt b.cursor p with
    | error e => rw [put_self here]
    | ok id =>
      dsimp only
      rw [same]
      show (ok (), b.modifyProcedure _) = _
      rw [modifyProcedure_eq here]
  outside {b} none := by
    rw [run_bind,run_openBlock_outside none]
    rfl

def append (i : Instr) : Action Unit := atOpen fun id p => p.modifyBlock id fun k => k.append i

theorem acts_append (i : Instr) : (Build.append i).Acts (append i) := acts_atOpen fun _ => rfl

def terminate (t : Terminator) : Action Unit := atOpen fun id p => p.close id t

theorem acts_terminate (t : Terminator) : (Build.terminate t).Acts (terminate t) := acts_atOpen fun _ => rfl

/-- A register is taken and a block comes to define it. -/
def defineAt (type : NativeType) (block : Procedure → BlockId) (missing : Breach) (change : Register → Block → Block) :
    Action Register where
  outside _ := .internal .noProcedure
  inside _ _ p :=
    let q := (p.allocRegister type).2
    if q.graph.hasBlock (block q) then (.ok (p.allocRegister type).1, q.modifyBlock (block q) (change (p.allocRegister type).1))
    else (.error (.internal missing), q)

theorem acts_defineAt {type : NativeType} {block : Procedure → BlockId} {change : Register → Block → Block}
    {m : Register → Build Register} (same : ∀ dest, m dest = do
      let p ← procedure
      if p.graph.hasBlock (block p) then
        modifyProcedure fun p => p.modifyBlock (block p) (change dest)
        return dest
      else Build.breach missing) : (Build.allocRegister type >>= m).Acts (defineAt type block missing change) where
  inside {b p} here := by
    rw [run_bind,(acts_allocRegister type).inside here]
    show (m (p.allocRegister type).1).run.run (b.put (p.allocRegister type).2) = _
    have there : (b.put (p.allocRegister type).2).procedure? = some (p.allocRegister type).2 := procedure?_put here
    rw [same,run_bind,run_procedure,there]
    unfold defineAt
    dsimp only
    split
    · show (ok (p.allocRegister type).1, (b.put (p.allocRegister type).2).modifyProcedure _) = _
      rw [modifyProcedure_eq there,put_put]
    · rfl
  outside {b} none := by
    rw [run_bind,(acts_allocRegister type).outside none]
    rfl

def alloc (type : NativeType) : Action Register :=
  defineAt .ptr (fun p => p.graph.entry) .noEntryBlock fun dest k => k.addAlloc (.alloc dest type)

theorem acts_alloc (type : NativeType) : (Build.alloc type).Acts (alloc type) := acts_defineAt fun _ => rfl

def phi (block : BlockId) (type : NativeType) : Action Register :=
  defineAt type (fun _ => block) (.noBlock block) fun dest k => k.addPhi ⟨dest,[],type⟩

theorem acts_phi (block : BlockId) (type : NativeType) : (Build.phi block type).Acts (phi block type) := acts_defineAt fun _ => rfl

def labelledBlock (label : String) : Action BlockId where
  outside _ := .internal .noProcedure
  inside _ e p :=
    (.ok p.nextBlock,
      if e then p.createBlock.modifyBlock p.nextBlock fun k => { k with label := some label } else p.createBlock)

theorem run_newBlock (here : b.procedure? = some p) : Build.newBlock.run.run b = (.ok p.nextBlock, b.put p.createBlock) := by
  unfold newBlock
  rw [run_bind,run_procedure,here]
  show (ok p.nextBlock, b.modifyProcedure _) = _
  rw [modifyProcedure_eq here]
  rfl

theorem acts_labelledBlock (label : String) : (Build.labelledBlock label).Acts (labelledBlock label) where
  inside {b p} here := by
    unfold Build.labelledBlock labelledBlock
    rw [run_bind,run_newBlock here]
    dsimp only
    rw [run_get_bind]
    rw [put_emitLabels]
    split
    · show (ok p.nextBlock, (b.put p.createBlock).modifyProcedure _) = _
      rw [modifyProcedure_eq (procedure?_put here),put_put]
    · rfl
  outside {b} none := by
    unfold Build.labelledBlock Build.newBlock
    rw [run_bind,run_bind,run_procedure,none]
    rfl

def addIncoming (block : BlockId) (dest : Register) (source : BlockId) (value : Register) : Action Unit where
  outside _ := .internal .noProcedure
  inside _ _ p :=
    if (((p.graph.block? block).map Block.phis).getD []).any fun phi => phi.dest = dest then
      (.ok (), p.modifyBlock block fun k => k.addIncoming dest (source, value))
    else (.error (.internal (.noPhi dest block)), p)

theorem acts_addIncoming (block : BlockId) (dest : Register) (source : BlockId) (value : Register) :
    (Build.addIncoming block dest source value).Acts (addIncoming block dest source value) where
  inside {b p} here := by
    unfold Build.addIncoming addIncoming
    rw [run_bind,run_procedure,here]
    dsimp only
    split
    · show (ok (), b.modifyProcedure _) = _
      rw [modifyProcedure_eq here]
      rfl
    · show (error _, b) = _
      rw [put_self here]
  outside {b} none := by
    unfold Build.addIncoming
    rw [run_bind,run_procedure,none]
    rfl

end Action

/-! ### Runs -/

namespace Build
variable {b b' : Builder} {p : Procedure} {c : BlockId} {r : Register}
variable {u : Unit} {type : NativeType} {block : BlockId}

theorem runs_insertionBlock : Runs insertionBlock b c b' ↔ b.cursor = some c ∧ b' = b := by
  unfold insertionBlock
  simp only [runs_bind,runs_get,and_assoc,exists_and_left,exists_eq_left]
  cases b.cursor with
  | none => simp
  | some c => simp [eq_comm]

section
variable (here : b.procedure? = some p)
include here

theorem Acts.safe {α : Type} {m : Build α} {action : Action α} {a : α} {p' : Procedure} {Q : α → Builder → Prop} (acts : m.Acts action)
    (done : action.inside b.cursor b.emitLabels p = (.ok a, p')) (post : Q a (b.put p')) : Safe m b Q := by
  unfold Safe
  rw [acts.inside here,done]
  exact post

theorem safe_allocRegister (type : NativeType) :
    Safe (allocRegister type) b fun r b' => r = ⟨p.nextRegister⟩ ∧ b' = b.put (p.allocRegister type).2 :=
  (Action.acts_allocRegister type).safe here rfl ⟨rfl,rfl⟩

theorem safe_resultRegister (signature : Signature) : Safe (resultRegister signature) b fun dest b' =>
    (dest = none ∧ signature.returnsVoid = true ∧ b' = b) ∨
      (dest = some ⟨p.nextRegister⟩ ∧ signature.returnsVoid = false ∧ b' = b.put (p.allocRegister signature.result).2) := by
  unfold resultRegister
  split
  · rename_i void
    exact .inl ⟨rfl,void,rfl⟩
  · rename_i valued
    refine safe_bind.mpr ((safe_allocRegister here _).mono fun r b₁ ⟨taken,same⟩ => .inr ⟨?_,by simpa using valued,same⟩)
    rw [taken]

theorem safe_labelledBlock (label : String) : Safe (labelledBlock label) b fun x b' => x = p.nextBlock ∧
    ∃ p', (p' = p.createBlock ∨ p' = p.createBlock.modifyBlock p.nextBlock fun k => { k with label := some label }) ∧ b' = b.put p' := by
  refine (Action.acts_labelledBlock label).safe here rfl ⟨rfl,_,?_,rfl⟩
  split
  · exact .inr rfl
  · exact .inl rfl

end

theorem Acts.runs_atOpen {m : Build Unit} (acts : m.Acts (.atOpen change)) (run : Runs m b u b') :
    ∃ p c k, b.procedure? = some p ∧ b.cursor = some c ∧ p.graph.block? c = some k ∧ k.terminator = none ∧ b' = b.put (change c p) := by
  obtain ⟨p,here,result,rfl⟩ := acts.runs run
  unfold Action.atOpen at result ⊢
  dsimp only at result ⊢
  split at result
  · rename_i c isOpen
    obtain ⟨atCursor,k,found,ended⟩ := Action.openAt_eq_ok isOpen
    exact ⟨p,c,k,here,atCursor,found,ended,rfl⟩
  · cases result

theorem Runs.isSome_resultRegister
    (run : Runs (resultRegister signature) b dest b') : dest.isSome = !signature.returnsVoid := by
  unfold resultRegister at run
  split at run
  · rename_i void
    obtain ⟨rfl,-⟩ := runs_pure.mp run
    simp [void]
  · rename_i valued
    obtain ⟨_,_,-,run⟩ := runs_bind.mp run
    obtain ⟨rfl,-⟩ := runs_pure.mp run
    simp [valued]

section
variable (here : b.procedure? = some p)
include here

theorem Runs.allocRegister (run : Runs (allocRegister type) b r b') : r = ⟨p.nextRegister⟩ ∧ b' = b.put (p.allocRegister type).2 :=
  (safe_allocRegister here type).of_runs run

theorem Acts.runs_defineAt {m : Build Register} {block' : Procedure → BlockId} {change : Register → Block → Block}
    (acts : m.Acts (.defineAt type block' missing change)) (run : Runs m b r b') :
    r = ⟨p.nextRegister⟩ ∧ (∃ k, p.graph.block? (block' (p.allocRegister type).2) = some k) ∧
      b' = b.put ((p.allocRegister type).2.modifyBlock (block' (p.allocRegister type).2) (change ⟨p.nextRegister⟩)) := by
  obtain ⟨result,rfl⟩ := acts.of_runs here run
  unfold Action.defineAt at result ⊢
  dsimp only at result ⊢
  split at result
  · rename_i there
    exact ⟨(ok.inj result).symm,contains_iff.mp there,by rw [if_pos there]; rfl⟩
  · cases result

theorem Runs.resultRegister (run : Runs (resultRegister signature) b dest b') : (dest = none ∧ signature.returnsVoid = true ∧ b' = b) ∨
      (dest = some ⟨p.nextRegister⟩ ∧ signature.returnsVoid = false ∧ b' = b.put (p.allocRegister signature.result).2) :=
  (safe_resultRegister here signature).of_runs run

theorem Runs.alloc (run : Runs (alloc type) b r b') : r = ⟨p.nextRegister⟩ ∧
      b' = b.put ((p.allocRegister .ptr).2.modifyBlock p.graph.entry fun k =>
        k.addAlloc (.alloc ⟨p.nextRegister⟩ type)) := by
  obtain ⟨rfl,-,rfl⟩ := (Action.acts_alloc type).runs_defineAt here run
  exact ⟨rfl,rfl⟩

theorem Runs.labelledBlock {label : String} (run : Runs (labelledBlock label) b id b') :
    id = p.nextBlock ∧ ∃ p', (p' = p.createBlock ∨
      p' = p.createBlock.modifyBlock p.nextBlock fun k => { k with label := some label }) ∧ b' = b.put p' :=
  (safe_labelledBlock here label).of_runs run

theorem Runs.phi (run : Runs (phi block type) b r b') : r = ⟨p.nextRegister⟩ ∧ (∃ k, p.graph.block? block = some k) ∧
      b' = b.put ((p.allocRegister type).2.modifyBlock block fun k => k.addPhi ⟨⟨p.nextRegister⟩,[],type⟩) :=
  (Action.acts_phi block type).runs_defineAt here run

theorem Runs.addIncoming {source : BlockId} {dest value : Register} (run : Runs (addIncoming block dest source value) b u b') :
    b' = b.put (p.modifyBlock block fun k => k.addIncoming dest (source, value)) := by
  obtain ⟨result,rfl⟩ := (Action.acts_addIncoming block dest source value).of_runs here run
  unfold Action.addIncoming at result ⊢
  dsimp only at result ⊢
  split at result
  · rename_i merged
    rw [if_pos merged]
  · cases result

variable (atCursor : b.cursor = some c)
include atCursor

theorem Acts.atOpen {m : Build Unit} (acts : m.Acts (.atOpen change)) (run : Runs m b u b') :
    ∃ k, p.graph.block? c = some k ∧ k.terminator = none ∧ b' = b.put (change c p) := by
  obtain ⟨q,d,k,there,same,found,isOpen,rfl⟩ := acts.runs_atOpen run
  obtain rfl := mem_unique here there
  obtain rfl := mem_unique atCursor same
  exact ⟨k,found,isOpen,rfl⟩

theorem Runs.append {i : Instr} (run : Runs (append i) b u b') : ∃ k, p.graph.block? c = some k ∧ k.terminator = none ∧
      b' = b.put (p.modifyBlock c fun k => k.append i) := (Action.acts_append i).atOpen here atCursor run

theorem Runs.define {instr : Register → Instr} (run : Runs (define type instr) b r b') :
    r = ⟨p.nextRegister⟩ ∧ ∃ k, p.graph.block? c = some k ∧ k.terminator = none ∧
      b' = b.put ((p.allocRegister type).2.modifyBlock c fun k => k.append (instr ⟨p.nextRegister⟩)) := by
  unfold Build.define at run
  simp only [runs_bind] at run
  obtain ⟨dest,b₁,taken,_,b₂,appended,run⟩ := run
  obtain ⟨rfl,rfl⟩ := runs_pure.mp run
  obtain ⟨rfl,rfl⟩ := taken.allocRegister here
  obtain ⟨k,found,isOpen,rfl⟩ := appended.append (procedure?_put here) (by rw [put_cursor,atCursor])
  exact ⟨rfl,k,found,isOpen,by rw [put_put]⟩

theorem Runs.terminate {t : Terminator} (run : Runs (terminate t) b u b') :
    ∃ k, p.graph.block? c = some k ∧ k.terminator = none ∧ b' = b.put (p.close c t) :=
  (Action.acts_terminate t).atOpen here atCursor run

end

@[simp] theorem runs_switchTo : Runs (switchTo block) b u b' ↔ b' = { b with cursor := some block } := runs_modify

end Build

end BlockLowering
