import BlockLowering.Proofs.Actions
import BlockLowering.Proofs.Programs
/-!
Sessions on a builder: any operations in any order, some of which fail. Whatever the order, every register is
defined at most once, what has ended stays as it is but for stack slots, stack slots come first in the entry, and
the predecessors that blocks record are the blocks that end with an edge to them, as long as no block ends with
an edge to one that is made later.
-/
namespace BlockLowering
open List Option Build BlockLowering.Action Builder And

inductive Operation where
  | keepLabels (keep : Bool)
  | declareProcedure (name : String) (header : Header)
  | startProcedure (name : String) (header : Header)
  | beginProcedure (id : ProcId)
  | finishProcedure
  | newBlock
  | labelledBlock (label : String)
  | switchTo (block : BlockId)
  | allocRegister (type : NativeType)
  | const (value : Literal)
  | typedConst (value : Literal) (type : NativeType)
  | int (value : Int) (type : NativeType)
  | bool (value : Bool)
  | null
  | alloc (type : NativeType)
  | load (ptr : Register) (type : NativeType)
  | store (ptr value : Register)
  | element (ptr : Register) (indices : List Nat) (type : NativeType)
  | binary (op : BinaryOp) (left right : Register)
  | unary (op : UnaryOp) (operand : Register)
  | compare (op : CompareOp) (left right : Register)
  | cast (source : Register) (kind : CastKind) (type : NativeType)
  | bitcast (source : Register) (type : NativeType)
  | call (site : CallSite)
  | landingPad
  | branch (target : BlockId)
  | condBranch (condition : Register) (onTrue onFalse : BlockId)
  | ret (value : Option Register)
  | invoke (site : CallSite) (normal unwind : BlockId)
  | unreachable
  | phi (block : BlockId) (type : NativeType)
  | addIncoming (block : BlockId) (dest : Register) (source : BlockId) (value : Register)

namespace Operation

def perform : Operation → Build Unit
  | keepLabels keep => modify fun b => { b with emitLabels := keep }
  | declareProcedure name header => discard (Build.declareProcedure name header)
  | startProcedure name header => discard (Build.startProcedure name header)
  | beginProcedure id => Build.beginProcedure id
  | finishProcedure => Build.finishProcedure
  | newBlock => discard Build.newBlock
  | labelledBlock label => discard (Build.labelledBlock label)
  | switchTo block => Build.switchTo block
  | allocRegister type => discard (Build.allocRegister type)
  | const value => discard (Build.const value)
  | typedConst value type => discard (Build.typedConst value type)
  | int value type => discard (Build.int value type)
  | bool value => discard (Build.bool value)
  | null => discard Build.null
  | alloc type => discard (Build.alloc type)
  | load ptr type => discard (Build.load ptr type)
  | store ptr value => Build.store ptr value
  | element ptr indices type => discard (Build.element ptr indices type)
  | binary op left right => discard (Build.binary op left right)
  | unary op operand => discard (Build.unary op operand)
  | compare op left right => discard (Build.compare op left right)
  | cast source kind type => discard (Build.cast source kind type)
  | bitcast source type => discard (Build.bitcast source type)
  | call site => discard (Build.call site)
  | landingPad => discard Build.landingPad
  | branch target => Build.branch target
  | condBranch condition onTrue onFalse => Build.condBranch condition onTrue onFalse
  | ret value => Build.ret value
  | invoke site normal unwind => discard (Build.invoke site normal unwind)
  | unreachable => Build.unreachable
  | phi block type => discard (Build.phi block type)
  | addIncoming block dest source value => Build.addIncoming block dest source value

def apply (op : Operation) (b : Builder) : Builder := (op.perform.run.run b).2

def succeeds (op : Operation) (b : Builder) : Bool := (op.perform.run.run b).1.isOk

/-- The blocks that an operation names as the targets of a terminator. -/
def targets : Operation → List BlockId
  | branch target => [target]
  | condBranch _ onTrue onFalse => [onTrue,onFalse]
  | invoke _ normal unwind => [normal,unwind]
  | _ => []

end Operation

namespace Builder

def session (b : Builder) (ops : List Operation) : Builder := ops.foldl (fun b op => op.apply b) b

/-- No terminator of a function is built before its targets are there. -/
def Aimed (id : ProcId) : Builder → List Operation → Prop
  | _, [] => True
  | b, op :: rest => (b.current = some id → op.succeeds b = true → ∀ x ∈ op.targets, (b.block? x).isSome = true) ∧
      Aimed id (op.apply b) rest

instance decidableAimed (id : ProcId) : (b : Builder) → (ops : List Operation) → Decidable (b.Aimed id ops)
  | _, [] => inferInstanceAs (Decidable True)
  | b, op :: rest =>
    have := decidableAimed id (op.apply b) rest
    inferInstanceAs (Decidable (_ ∧ _))

end Builder

/-! ### What one operation does -/

namespace Procedure
variable {p p' q : Procedure} {c : BlockId} {k : Block}

/-- A register is taken, or none. -/
inductive Takes (p : Procedure) : Option Register → Procedure → Prop
  | nothing : Takes p none p
  | register (type : NativeType) : Takes p (some ⟨p.nextRegister⟩) (p.allocRegister type).2

/-- What an operation can do to the function at the cursor, with the edges that it draws. -/
inductive Edits (p : Procedure) : List BlockId → Procedure → Prop
  | take {dest : Option Register} {q : Procedure} : p.Takes dest q → Edits p [] q
  | create : Edits p [] p.createBlock
  | label (label : Option String) : Edits p [] (p.createBlock.modifyBlock p.nextBlock fun k => { k with label })
  | append {q : Procedure} {c : BlockId} {k : Block} (i : Instr) : p.Takes i.dest? q → i.isAlloc = false →
    q.graph.block? c = some k → k.terminator = none → Edits p [] (q.modifyBlock c fun k => k.append i)
  | slot {r : Register} {q : Procedure} (type : NativeType) : p.Takes (some r) q →
    Edits p [] (q.modifyBlock q.graph.entry fun k => k.addAlloc (.alloc r type))
  | merge {r : Register} {q : Procedure} (c : BlockId) (type : NativeType) : p.Takes (some r) q →
    Edits p [] (q.modifyBlock c fun k => k.addPhi ⟨r,[],type⟩)
  | supply (c : BlockId) (dest : Register) (edge : BlockId × Register) :
    Edits p [] (p.modifyBlock c fun k => k.addIncoming dest edge)
  | close {q : Procedure} {c : BlockId} {k : Block} (t : Terminator) : p.Takes t.dest? q →
    q.graph.block? c = some k → k.terminator = none → Edits p t.successors (q.close c t)

end Procedure

namespace Build
variable {α ρ : Type} {m : Build α} {b : Builder} {p q : Procedure} {targets drawn : List BlockId}

/-- A step takes a register of the function at the cursor, or none. -/
structure Taking (m : Build α) (dest : α → Option Register) : Prop where
  inside : ∀ {b p}, b.procedure? = some p → ∃ a q, m.run.run b = (.ok a, b.put q) ∧ p.Takes (dest a) q
  outside : ∀ {b}, b.procedure? = none → (m.run.run b).2 = b

/-- A step edits the function at the cursor if there is one, and draws edges to its targets only where it succeeds. Where it fails it
    has taken a register at most. -/
structure Editing (m : Build α) (targets : List BlockId) : Prop where
  inside : ∀ {b p}, b.procedure? = some p → ∃ drawn p', (m.run.run b).2 = b.put p' ∧ p.Edits drawn p' ∧
    (drawn ≠ [] → drawn = targets ∧ (m.run.run b).1.isOk = true) ∧ ((m.run.run b).1.isOk = false → ∃ dest, p.Takes dest p')
  outside : ∀ {b}, b.procedure? = none → (m.run.run b).2 = b

theorem run_discard : (discard m).run.run b = ((m.run.run b).1.map fun _ => (), (m.run.run b).2) := by
  show (m >>= fun _ => pure ()).run.run b = _
  rw [run_bind]
  cases m.run.run b with
  | mk result b' => cases result <;> rfl

theorem Editing.discard (editing : m.Editing targets) : (discard m).Editing targets where
  inside {b _} here := by
    obtain ⟨drawn,p',after,edits,aimed,failed⟩ := editing.inside here
    have same : ((Functor.discard m).run.run b).1.isOk = (m.run.run b).1.isOk := by
      rw [run_discard]
      cases (m.run.run b).1 <;> rfl
    exact ⟨drawn,p',by rw [run_discard,after],edits,same ▸ aimed,same ▸ failed⟩
  outside none := by rw [run_discard,editing.outside none]

theorem Acts.editing {action : Action α} (acts : m.Acts action) (edits : ∀ c e (p : Procedure), p.Edits [] (action.inside c e p).2 ∧
    ((action.inside c e p).1.isOk = false → ∃ dest, p.Takes dest (action.inside c e p).2)) : m.Editing [] where
  inside here := ⟨[],_,by rw [acts.inside here],(edits _ _ _).1,by simp,by rw [acts.inside here]; exact (edits _ _ _).2⟩
  outside none := by rw [acts.outside none]

theorem taking_nothing : (pure () : Build Unit).Taking fun _ => none where
  inside here := ⟨(),_,by rw [put_self here]; rfl,.nothing⟩
  outside _ := rfl

theorem taking_allocRegister (type : NativeType) : (allocRegister type).Taking some where
  inside here := ⟨_,_,(acts_allocRegister type).inside here,.register type⟩
  outside none := by rw [(acts_allocRegister type).outside none]

theorem taking_resultRegister (signature : Signature) : (resultRegister signature).Taking id := by
  unfold resultRegister
  split
  · exact ⟨fun here => ⟨none,_,by rw [put_self here]; rfl,.nothing⟩,fun _ => rfl⟩
  · refine ⟨fun {b p} here => ?_,fun none => ?_⟩
    · refine ⟨some ⟨p.nextRegister⟩,_,?_,.register signature.result⟩
      rw [run_bind,(acts_allocRegister _).inside here]
      rfl
    · rw [run_bind,(acts_allocRegister _).outside none]

theorem Taking.atOpen {first : Build ρ} {dest : ρ → Option Register} {f : ρ → Build α} {result : ρ → α}
    {change : ρ → BlockId → Procedure → Procedure} (taking : first.Taking dest)
    (same : ∀ r, f r = openBlock >>= fun c => modifyProcedure (change r c) >>= fun _ => pure (result r))
    (drawing : drawn = [] ∨ drawn = targets)
    (edits : ∀ {p q : Procedure} {r c k}, p.Takes (dest r) q → q.graph.block? c = some k → k.terminator = none →
      p.Edits drawn (change r c q)) : (first >>= f).Editing targets where
  inside {b p} here := by
    obtain ⟨r,q,took,takes⟩ := taking.inside here
    have there : (b.put q).procedure? = some q := procedure?_put here
    rw [run_bind,took]
    simp only [same]
    rw [run_bind,run_openBlock there]
    cases isOpen : openAt (b.put q).cursor q with
    | error e => exact ⟨[],q,rfl,.take takes,by simp,fun _ => ⟨_,takes⟩⟩
    | ok c =>
      obtain ⟨-,k,found,unended⟩ := openAt_eq_ok isOpen
      refine ⟨drawn,_,?_,edits takes found unended,fun some => ⟨drawing.resolve_left some,rfl⟩,fun failed => by cases failed⟩
      show (b.put q).modifyProcedure _ = _
      rw [modifyProcedure_eq there,put_put]
  outside {b} none := by
    have after : (first.run.run b).2 = b := taking.outside none
    rw [run_bind]
    cases took : first.run.run b with
    | mk result b' =>
      obtain rfl : b' = b := by rw [took] at after; exact after
      cases result with
      | error e => rfl
      | ok r =>
        simp only [same]
        rw [run_bind,run_openBlock_outside none]

theorem Taking.append {first : Build ρ} {dest : ρ → Option Register} {f : ρ → Build α} {i : ρ → Instr}
    (taking : first.Taking dest) (result : ρ → α) (same : ∀ r, f r = append (i r) >>= fun _ => pure (result r))
    (plain : ∀ r, (i r).isAlloc = false) (defines : ∀ r, (i r).dest? = dest r) : (first >>= f).Editing [] :=
  taking.atOpen (fun r => (same r).trans (bind_assoc ..)) (.inl rfl) fun takes found isOpen =>
    .append (i _) ((defines _).symm ▸ takes) (plain _) found isOpen

theorem Taking.terminate {first : Build ρ} {dest : ρ → Option Register} {f : ρ → Build α}
    {t : ρ → Terminator} (taking : first.Taking dest) (targets : List BlockId) (result : ρ → α)
    (same : ∀ r, f r = terminate (t r) >>= fun _ => pure (result r))
    (defines : ∀ r, (t r).dest? = dest r) (aims : ∀ r, (t r).successors = targets) : (first >>= f).Editing targets :=
  taking.atOpen (fun r => (same r).trans (bind_assoc ..)) (.inr rfl) fun takes found isOpen =>
    aims _ ▸ .close (t _) ((defines _).symm ▸ takes) found isOpen

theorem editing_define {type : NativeType} {instr : Register → Instr} (plain : ∀ r, (instr r).isAlloc = false)
    (defines : ∀ r, (instr r).dest? = some r) : (define type instr).Editing [] :=
  (taking_allocRegister type).append id (fun _ => rfl) plain defines

theorem editing_append (i : Instr) (plain : i.isAlloc = false) (defines : i.dest? = none) : (append i).Editing [] :=
  taking_nothing.append (f := fun _ => append i) (fun _ => ()) (fun _ => (bind_pure _).symm) (fun _ => plain) fun _ => defines

theorem editing_terminate (t : Terminator) (defines : t.dest? = none) : (terminate t).Editing t.successors :=
  taking_nothing.terminate (f := fun _ => terminate t) _ (fun _ => ()) (fun _ => (bind_pure _).symm) (fun _ => defines) fun _ => rfl

theorem editing_const (value : Literal) : (const value).Editing [] := editing_define (fun _ => rfl) fun _ => rfl

theorem editing_int (value : Int) (type : NativeType) : (int value type).Editing [] := by
  unfold int
  split
  case h_5 =>
    exact ⟨fun here => ⟨[],_,by rw [put_self here]; rfl,.take .nothing,by simp,fun _ => ⟨_,.nothing⟩⟩,fun _ => rfl⟩
  all_goals exact editing_const _

theorem Editing.gets {f : Builder → Build α} (editing : ∀ b, (f b).Editing targets) : (get >>= f).Editing targets where
  inside {b _} here := by rw [run_get_bind]; exact (editing b).inside here
  outside {b} none := by rw [run_get_bind]; exact (editing b).outside none

theorem editing_newBlock : newBlock.Editing [] where
  inside here := ⟨[],_,by rw [run_newBlock here],.create,by simp,by rw [run_newBlock here]; exact fun failed => by cases failed⟩
  outside none := by unfold newBlock; rw [run_bind,run_procedure,none]

theorem editing_labelledBlock (label : String) : (labelledBlock label).Editing [] :=
  (acts_labelledBlock label).editing fun c e p => by
    refine ⟨?_,fun failed => by cases failed⟩
    cases e with
    | true => exact .label (some label)
    | false => exact .create

theorem editing_alloc (type : NativeType) : (alloc type).Editing [] :=
  (acts_alloc type).editing fun c e p => by
    unfold Action.alloc Action.defineAt
    dsimp only
    split
    · exact ⟨.slot type (.register _),fun failed => by cases failed⟩
    · exact ⟨.take (.register _),fun _ => ⟨_,.register _⟩⟩

theorem editing_phi (block : BlockId) (type : NativeType) : (phi block type).Editing [] :=
  (acts_phi block type).editing fun c e p => by
    unfold Action.phi Action.defineAt
    dsimp only
    split
    · exact ⟨.merge block type (.register type),fun failed => by cases failed⟩
    · exact ⟨.take (.register _),fun _ => ⟨_,.register _⟩⟩

theorem editing_addIncoming (block : BlockId) (dest : Register) (source : BlockId) (value : Register) :
    (addIncoming block dest source value).Editing [] :=
  (acts_addIncoming block dest source value).editing fun c e p => by
    unfold Action.addIncoming
    dsimp only
    split
    · exact ⟨.supply block dest (source, value),fun failed => by cases failed⟩
    · exact ⟨.take .nothing,fun _ => ⟨_,.nothing⟩⟩

end Build

/-- An operation leaves all functions as they are, always declares one, or edits the one at the cursor. -/
theorem Operation.kinds (op : Operation) : (∀ b, (op.apply b).output = b.output ∧ (op.succeeds b = false → op.apply b = b)) ∨
    (∃ name header, ∀ b : Builder, op.succeeds b = true ∧
      (op.apply b).output = b.output.takeProcedureId.2.addProcedure (.new ⟨b.output.nextProcedure⟩ name header)) ∨
    op.perform.Editing op.targets := by
  have defines {type : NativeType} {instr : Register → Instr} (plain : ∀ r, (instr r).isAlloc = false)
      (dest : ∀ r, (instr r).dest? = some r) := (@Build.editing_define type instr plain dest).discard
  cases op with
  | keepLabels | finishProcedure | switchTo => exact .inl fun _ => ⟨rfl,fun failed => by cases failed⟩
  | declareProcedure name header | startProcedure name header => exact .inr (.inl ⟨name,header,fun _ => ⟨rfl,rfl⟩⟩)
  | beginProcedure id =>
    refine .inl fun b => ?_
    show ((Build.beginProcedure id).run.run b).2.output = _ ∧
      (((Build.beginProcedure id).run.run b).1.isOk = false → ((Build.beginProcedure id).run.run b).2 = b)
    rw [Build.beginProcedure,run_get_bind]
    split
    · exact ⟨rfl,fun failed => by cases failed⟩
    · exact ⟨rfl,fun _ => rfl⟩
  | newBlock => exact .inr (.inr editing_newBlock.discard)
  | labelledBlock label => exact .inr (.inr (editing_labelledBlock label).discard)
  | allocRegister type =>
    exact .inr (.inr (Build.Editing.discard ((acts_allocRegister type).editing fun _ _ _ =>
      ⟨.take (.register type),fun _ => ⟨_,.register type⟩⟩)))
  | const value | typedConst | bool | null | load | element | compare | cast | bitcast | landingPad =>
    exact .inr (.inr (defines (fun _ => rfl) fun _ => rfl))
  | int value type => exact .inr (.inr (editing_int value type).discard)
  | alloc type => exact .inr (.inr (editing_alloc type).discard)
  | store ptr value => exact .inr (.inr (editing_append _ rfl rfl))
  | binary | unary =>
    refine .inr (.inr (Build.Editing.discard ?_))
    first | unfold Build.binary | unfold Build.unary
    exact .gets fun _ => editing_define (fun _ => rfl) fun _ => rfl
  | call site =>
    refine .inr (.inr (Build.Editing.discard ?_))
    exact (taking_resultRegister _).append (i := fun dest => .call dest site) id (fun _ => rfl) (fun _ => rfl) fun _ => rfl
  | invoke site normal unwind =>
    refine .inr (.inr (Build.Editing.discard ?_))
    exact (taking_resultRegister _).terminate (t := fun dest => .invoke dest site normal unwind) [normal,unwind] id
      (fun _ => rfl) (fun _ => rfl) fun _ => rfl
  | branch | condBranch | ret | unreachable => exact .inr (.inr (editing_terminate _ rfl))
  | phi block type => exact .inr (.inr (editing_phi block type).discard)
  | addIncoming block dest source value => exact .inr (.inr (editing_addIncoming block dest source value))

theorem Operation.apply_cases (op : Operation) (b : Builder) : (op.apply b).output = b.output ∨
    (∃ name header, (op.apply b).output = b.output.takeProcedureId.2.addProcedure (.new ⟨b.output.nextProcedure⟩ name header)) ∨
    ∃ p drawn p', b.procedure? = some p ∧ op.apply b = b.put p' ∧ p.Edits drawn p' ∧
      (drawn ≠ [] → drawn = op.targets ∧ op.succeeds b = true) := by
  rcases op.kinds with still | ⟨name,header,declares⟩ | editing
  · exact .inl (still b).1
  · exact .inr (.inl ⟨name,header,(declares b).2⟩)
  · cases here : b.procedure? with
    | none => exact .inl (congrArg output (editing.outside here))
    | some p =>
      obtain ⟨drawn,p',after,edits,aimed,-⟩ := editing.inside here
      exact .inr (.inr ⟨p,drawn,p',rfl,after,edits,aimed⟩)

/-- An operation that fails leaves everything as it was, but that the function at the cursor may have one more register: the cursor,
    the code and the edges of all functions and the rest of the module stay. -/
theorem Operation.failure_keeps_code (op : Operation) (b : Builder) (failed : op.succeeds b = false) :
    op.apply b = b ∨ ∃ type, op.apply b = b.modifyProcedure fun p => (p.allocRegister type).2 := by
  rcases op.kinds with still | ⟨name,header,declares⟩ | editing
  · exact .inl ((still b).2 failed)
  · simp [(declares b).1] at failed
  · cases here : b.procedure? with
    | none => exact .inl (editing.outside here)
    | some p =>
      obtain ⟨drawn,p',after,-,-,takes⟩ := editing.inside here
      obtain ⟨dest,takes⟩ := takes failed
      cases takes with
      | nothing => exact .inl (after.trans (Builder.put_self here))
      | register type => exact .inr ⟨type,after.trans (Builder.modifyProcedure_eq (f := fun p => (p.allocRegister type).2) here).symm⟩

/-- An invoke in a block that has ended takes a register and draws no edge. -/
theorem Operation.failure_keeps_code_invoke :
    let b := (Builder.new "m").session [.startProcedure "f" ⟨[],.void⟩,.newBlock,.ret none]
    let op := Operation.invoke ⟨.direct ⟨0⟩,[],⟨[],.i32⟩,.local⟩ ⟨1⟩ ⟨1⟩
    (op.succeeds b = false ∧ op.apply b ≠ b) ∧
      (op.apply b = b ∨ ∃ type, op.apply b = b.modifyProcedure fun p => (p.allocRegister type).2) :=
  ⟨by decide,failure_keeps_code _ _ (by decide)⟩

/-! ### Registers and edges -/

namespace Procedure
variable {p p' q : Procedure} {dest : Option Register} {complete complete' : Prop} {drawn : List BlockId}

theorem Takes.graph (takes : p.Takes dest q) : q.graph = p.graph := by
  cases takes <;> rfl

theorem Takes.numbered (takes : p.Takes dest q) (numbered : p.Numbered) : q.Numbered ∧ ∀ r ∈ dest, q.Undefined r := by
  cases takes with
  | nothing => exact ⟨numbered,by simp⟩
  | register type => exact ⟨numbered.allocRegister type,by rintro r ⟨⟩; exact numbered.undefined type⟩

theorem Edits.numbered (edits : p.Edits drawn p') (numbered : p.Numbered) : p'.Numbered := by
  cases edits with
  | take takes => exact (takes.numbered numbered).1
  | create => exact numbered.createBlock
  | label label => exact numbered.createBlock.relabel label
  | append i takes plain found isOpen =>
    obtain ⟨numbered,undefined⟩ := takes.numbered numbered
    exact numbered.append plain undefined
  | slot type takes =>
    obtain ⟨numbered,undefined⟩ := takes.numbered numbered
    exact numbered.addSlot (undefined _ rfl)
  | merge c type takes =>
    obtain ⟨numbered,undefined⟩ := takes.numbered numbered
    exact numbered.addPhi (undefined _ rfl)
  | supply c dest edge => exact numbered.addIncoming dest edge
  | close t takes found isOpen =>
    obtain ⟨numbered,undefined⟩ := takes.numbered numbered
    exact numbered.close found isOpen undefined

theorem Edits.recorded (edits : p.Edits drawn p') (recorded : p.graph.Recorded complete)
    (aimed : complete' → complete ∧ ∀ x ∈ drawn, (p.graph.block? x).isSome = true) : p'.graph.Recorded complete' := by
  have weaker : p.graph.Recorded complete' := recorded.weaken fun sure => (aimed sure).1
  cases edits with
  | take takes => exact takes.graph ▸ weaker
  | create => exact weaker.create
  | label label => exact .modify weaker.create fun _ => ⟨rfl,rfl⟩
  | append i takes | slot type takes | merge c type takes => exact .modify (takes.graph ▸ weaker) fun _ => ⟨rfl,rfl⟩
  | supply c dest edge => exact .modify weaker fun _ => ⟨rfl,rfl⟩
  | close t takes found isOpen => exact (takes.graph ▸ recorded).close found isOpen (takes.graph ▸ aimed)

end Procedure

/-! ### What has ended -/

/-- A block that has ended is as it was, but for stack slots that were inserted if it is the entry. -/
structure Block.Stays (isEntry : Prop) (k k' : Block) : Prop where
  terminator : k'.terminator = k.terminator
  code : k'.code = k.code
  kept : k.instrs.Sublist k'.instrs
  inserted : k'.instrs = k.instrs ∨ isEntry

namespace Procedure
variable {p p' p'' : Procedure} {drawn : List BlockId}

/-- All blocks that have ended stay in a later form of a function. -/
structure Settles (p p' : Procedure) : Prop where
  entry : p'.graph.entry = p.graph.entry
  ended : ∀ {b k}, p.graph.block? b = some k → k.terminator ≠ none →
    ∃ k', p'.graph.block? b = some k' ∧ k.Stays (b = p.graph.entry) k'

theorem Settles.refl (p : Procedure) : p.Settles p := ⟨rfl,fun found _ => ⟨_,found,rfl,rfl,.refl _,.inl rfl⟩⟩

theorem Settles.trans (first : p.Settles p') (second : p'.Settles p'') : p.Settles p'' where
  entry := second.entry.trans first.entry
  ended {b k} found isEnded := by
    obtain ⟨k',found',stays⟩ := first.ended found isEnded
    obtain ⟨k'',found'',stays'⟩ := second.ended found' (stays.terminator ▸ isEnded)
    refine ⟨k'',found'',stays'.terminator.trans stays.terminator,stays'.code.trans stays.code,stays.kept.trans stays'.kept,?_⟩
    rcases stays'.inserted with same | here
    · exact same ▸ stays.inserted
    · exact .inr (first.entry ▸ here)

theorem Settles.modifyBlock {c : BlockId} {f : Block → Block}
    (stays : ∀ {k}, p.graph.block? c = some k → k.terminator ≠ none → k.Stays (c = p.graph.entry) (f k)) : p.Settles (p.modifyBlock c f) where
  entry := rfl
  ended {b k} found isEnded := by
    rw [block?_modifyBlock,found]
    refine ⟨_,rfl,?_⟩
    split
    · rename_i here
      subst here
      exact stays found isEnded
    · exact ⟨rfl,rfl,.refl _,.inl rfl⟩

theorem Edits.settles (edits : p.Edits drawn p') (numbered : p.Numbered) (spaced : p.Spaced) : p.Settles p' := by
  have made : p.Settles p.createBlock := by
    refine ⟨rfl,fun {b k} found _ => ⟨k,?_,rfl,rfl,.refl _,.inl rfl⟩⟩
    rw [block?_createBlock,if_neg,found]
    rintro rfl
    exact Nat.lt_irrefl _ (spaced found)
  have took {dest : Option Register} {q : Procedure} (takes : p.Takes dest q) : p.Settles q := by
    cases takes
    · exact .refl p
    · exact ⟨rfl,(Settles.refl p).ended⟩
  cases edits with
  | take takes => exact took takes
  | create => exact made
  | label label => exact made.trans (.modifyBlock fun _ _ => ⟨rfl,rfl,.refl _,.inl rfl⟩)
  | append i takes _ found isOpen =>
    refine (took takes).trans (.modifyBlock fun found' isEnded => absurd ?_ isEnded)
    rwa [← some.inj (found.symm.trans found')]
  | slot type takes =>
    refine (took takes).trans (.modifyBlock fun {k} found _ => ⟨rfl,k.code_addAlloc rfl,?_,.inr rfl⟩)
    obtain ⟨heads,same,slotted,-⟩ := (takes.numbered numbered).1.headed found
    rw [Block.addAlloc_of_headed same slotted,append_assoc]
    exact same ▸ (Sublist.refl heads).append (sublist_append_right _ _)
  | merge c type takes => exact (took takes).trans (.modifyBlock fun _ _ => ⟨rfl,rfl,.refl _,.inl rfl⟩)
  | supply c dest edge => exact .modifyBlock fun _ _ => ⟨rfl,rfl,.refl _,.inl rfl⟩
  | close t takes found isOpen =>
    refine (took takes).trans ⟨Graph.entry_close,fun {b k} found' isEnded => ?_⟩
    rw [block?_close,found']
    refine ⟨_,rfl,if_neg ?_,rfl,.refl _,.inl rfl⟩
    rintro rfl
    cases (found.symm.trans found')
    exact isEnded isOpen

end Procedure

namespace Builder
variable {b b' : Builder} {id : ProcId} {complete : Prop} {p : Procedure}

/-- Every function has a number that was handed out, defines registers once and records edges rightly; those of
    one function are all recorded if its record is complete. -/
structure Orderly (id : ProcId) (complete : Prop) (b : Builder) : Prop where
  spaced : ∀ {i p}, b.output.procedures.get? i = some p → i.index < b.output.nextProcedure
  numbered : ∀ {i p}, b.output.procedures.get? i = some p → p.Numbered
  recorded : ∀ {i p}, b.output.procedures.get? i = some p → p.graph.Recorded (i = id ∧ complete)

theorem Orderly.enter {complete' : Prop} {i : ProcId} {p' : Procedure} (orderly : b.Orderly id complete) (weaker : complete' → complete)
    (lookup : ∀ x, b'.output.procedures.get? x = if x = i then some p' else b.output.procedures.get? x)
    (ahead : b.output.nextProcedure ≤ b'.output.nextProcedure) (spaced : i.index < b'.output.nextProcedure)
    (numbered : p'.Numbered) (recorded : p'.graph.Recorded (i = id ∧ complete'))
    (settles : ∀ {p}, b.output.procedures.get? i = some p → p.Settles p') : b'.Orderly id complete' ∧
      ∀ {i p}, b.output.procedures.get? i = some p → ∃ p', b'.output.procedures.get? i = some p' ∧ p.Settles p' := by
  have cases_of : ∀ {x q}, b'.output.procedures.get? x = some q → x = i ∧ q = p' ∨ b.output.procedures.get? x = some q := by
    intro x q found
    rw [lookup] at found
    split at found
    · exact .inl ⟨‹_›,(some.inj found).symm⟩
    · exact .inr found
  refine ⟨⟨fun found => ?_,fun found => ?_,fun found => ?_⟩,fun {x p} found => ?_⟩
  · rcases cases_of found with ⟨rfl,-⟩ | old
    · exact spaced
    · exact Nat.lt_of_lt_of_le (orderly.spaced old) ahead
  · rcases cases_of found with ⟨-,rfl⟩ | old
    · exact numbered
    · exact orderly.numbered old
  · rcases cases_of found with ⟨rfl,rfl⟩ | old
    · exact recorded
    · exact (orderly.recorded old).weaken (imp_right weaker)
  · rw [lookup]
    split
    · rename_i here
      exact ⟨p',rfl,settles (here ▸ found)⟩
    · exact ⟨p,found,.refl p⟩

theorem Orderly.apply (orderly : b.Orderly id complete) (op : Operation) :
    (op.apply b).Orderly id (complete ∧ (b.current = some id → op.succeeds b = true → ∀ x ∈ op.targets, (b.block? x).isSome = true)) ∧
      ∀ {i p}, b.output.procedures.get? i = some p → ∃ p', (op.apply b).output.procedures.get? i = some p' ∧ p.Settles p' := by
  rcases op.apply_cases b with same | ⟨name,header,declared⟩ | ⟨p,drawn,p',here,after,edits,aimed⟩
  · refine ⟨⟨?_,?_,?_⟩,?_⟩ <;> rw [same]
    · exact orderly.spaced
    · exact orderly.numbered
    · exact fun found => (orderly.recorded found).weaken fun sure => ⟨sure.1,sure.2.1⟩
    · exact fun found => ⟨_,found,.refl _⟩
  · have sound := Procedure.sound_new ⟨b.output.nextProcedure⟩ name header
    have ahead : b.output.nextProcedure < (op.apply b).output.nextProcedure := by
      rw [declared]
      exact Nat.lt_of_lt_of_le (Nat.lt_succ_self _) (Nat.le_max_left _ _)
    refine orderly.enter left (i := ⟨b.output.nextProcedure⟩) (fun x => ?_) (Nat.le_of_lt ahead) ahead sound.numbered ?_
      fun found => absurd (orderly.spaced found) (Nat.lt_irrefl _)
    · rw [declared]
      exact Table.get?_insert
    · exact sound.wired.weaken fun _ => trivial
  · obtain ⟨i,current,found,output⟩ := exists_current here
    have next : (op.apply b).output.nextProcedure = b.output.nextProcedure := by rw [after,output]; rfl
    refine orderly.enter left (i := i) (fun x => ?_) (Nat.le_of_eq next.symm) (next ▸ orderly.spaced found) (edits.numbered (orderly.numbered found)) ?_
      fun found' => some.inj (found.symm.trans found') ▸ edits.settles (orderly.numbered found) (orderly.recorded found).numbered
    · rw [after,output,Module.modifyProcedure,Table.get?_modify]
      split
      · rename_i same
        rw [same,found]
        rfl
      · rfl
    · refine edits.recorded (orderly.recorded found) fun sure => ⟨⟨sure.1,sure.2.1⟩,fun x drawing => ?_⟩
      obtain ⟨rfl,succeeded⟩ := aimed (ne_nil_of_mem drawing)
      have there := sure.2.2 (current.trans (congrArg some sure.1)) succeeded x drawing
      rwa [block?,here] at there

theorem Orderly.session (orderly : b.Orderly id complete) (ops : List Operation) : (b.session ops).Orderly id (complete ∧ b.Aimed id ops) ∧
      ∀ {i p}, b.output.procedures.get? i = some p → ∃ p', (b.session ops).output.procedures.get? i = some p' ∧ p.Settles p' := by
  induction ops generalizing b complete with
  | nil => exact ⟨by simpa only [Aimed,and_true,session,foldl_nil] using orderly,fun found => ⟨_,found,.refl _⟩⟩
  | cons op rest ih =>
    obtain ⟨after,settles⟩ := orderly.apply op
    obtain ⟨orderly',settles'⟩ := ih after
    simp only [and_assoc] at orderly'
    refine ⟨orderly',fun found => ?_⟩
    obtain ⟨p',found',first⟩ := settles found
    obtain ⟨p'',found'',second⟩ := settles' found'
    exact ⟨p'',found'',first.trans second⟩

theorem orderly_new (id : ProcId) (name : String) : (new name).Orderly id True := by
  have none {i : ProcId} {p : Procedure} (found : (new name).output.procedures.get? i = some p) : False := nomatch found
  exact ⟨fun found => (none found).elim,fun found => (none found).elim,fun found => (none found).elim⟩

/-- Whatever operations built a function, and whatever operations follow: each register is defined once; blocks that
    have ended stay as they are, but for stack slots inserted in the entry; stack slots are the head of the entry; and
    predecessors are recorded once, which are the blocks that end with an edge if no edge led to a missing block. -/
theorem session_keeps_order (name : String) (ops later : List Operation) (id : ProcId) (p : Procedure)
    (found : ((Builder.new name).session ops).output.procedures.get? id = some p) :
    (p.inputs ++ p.graph.blocks.values.flatMap Block.defs).Nodup ∧
      (∃ p', ((Builder.new name).session (ops ++ later)).output.procedures.get? id = some p' ∧ p.Settles p') ∧
      ∀ b k, p.graph.block? b = some k → k.Headed (b = p.graph.entry) ∧ k.predecessors.Nodup ∧
        ((Builder.new name).Aimed id ops → ∀ a, a ∈ k.predecessors ↔ ∃ k', p.graph.block? a = some k' ∧ b ∈ k'.successors) := by
  obtain ⟨orderly,-⟩ := (orderly_new id name).session ops
  have numbered := orderly.numbered found
  have recorded := orderly.recorded found
  refine ⟨?_,?_,fun b k there => ⟨numbered.headed there,recorded.distinct there,fun aimed a => ⟨recorded.sources there,?_⟩⟩⟩
  · have distinct := numbered.nodup_defs p.graph.blocks.nodup fun e => Table.mem_entries_iff.mp
    rwa [Table.values,flatMap_map]
  · rw [session,foldl_append]
    exact (orderly.session later).2 found
  · rintro ⟨k',source,edge⟩
    obtain ⟨k'',target,back⟩ := recorded.reached ⟨rfl,trivial,aimed⟩ source edge
    exact Option.some.inj (there.symm.trans target) ▸ back

/-- A loop whose head merges a value, with a stack slot that is made when its blocks have ended, and operations that fail. -/
def countingSession : List Operation :=
  [.int 1 .i32,.startProcedure "count" ⟨[],.void⟩,.newBlock,.newBlock,
    .int 0 .i32,.branch ⟨1⟩,.switchTo ⟨1⟩,.phi ⟨1⟩ .i32,.bool true,.condBranch ⟨2⟩ ⟨1⟩ ⟨2⟩,.addIncoming ⟨1⟩ ⟨1⟩ ⟨0⟩ ⟨0⟩,
    .branch ⟨2⟩,.alloc .i32,.switchTo ⟨2⟩,.ret none]

theorem session_keeps_order_counting : ∃ p, ((Builder.new "m").session countingSession).output.procedures.get? ⟨0⟩ = some p ∧
    (p.inputs ++ p.graph.blocks.values.flatMap Block.defs).Nodup ∧ ∃ k, p.graph.block? ⟨1⟩ = some k ∧ k.predecessors = [⟨0⟩,⟨1⟩] ∧
      ∀ a, a ∈ k.predecessors ↔ ∃ k', p.graph.block? a = some k' ∧ (⟨1⟩ : BlockId) ∈ k'.successors := by
  have aimed : (Builder.new "m").Aimed ⟨0⟩ countingSession := by decide +kernel
  have run : (((Builder.new "m").session countingSession).output.procedures.get? ⟨0⟩).bind
      (fun p => (p.graph.block? ⟨1⟩).map Block.predecessors) = some [⟨0⟩,⟨1⟩] := by decide +kernel
  obtain ⟨p,found,reached⟩ := bind_eq_some_iff.mp run
  obtain ⟨k,there,predecessors⟩ := map_eq_some_iff.mp reached
  have order := session_keeps_order "m" countingSession [] ⟨0⟩ p found
  exact ⟨p,found,order.1,k,there,predecessors,(order.2.2 ⟨1⟩ k there).2.2 aimed⟩

end Builder

end BlockLowering
