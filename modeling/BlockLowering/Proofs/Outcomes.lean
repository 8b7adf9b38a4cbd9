import BlockLowering.Pass.Call
import BlockLowering.Proofs.Runs
/-!
Outcomes of steps, failures included. A failure lies in the program that is lowered, or else in the way the
parts of the pass work together. A step is safe where it succeeds with what is asked of its result or fails
for a reason of the first kind. Sequences are taken apart from the front: the first step is safe if behind
it the rest is.
-/
namespace BlockLowering
open Declarations Except Layout Lower
variable {id : Nat} {block : BlockId} {β : Type}

/-- Whether a breach lies in the program that is lowered. -/
def Breach.inProgram : Breach → Bool
  | .immutableVariable .. | .noReceiver _ | .noReceiverArgument _ | .noOperand .. => true
  | .procedureUndeclared _ | .procedureVanished _ | .noProcedure | .noInsertionBlock | .noBlock _ | .noEntryBlock
  | .noPhi .. | .incompleteValue | .noProduct _ | .parameterCount _ | .depthExceeded => false

/-- Whether lowering stops for a reason that lies in the program. -/
def Error.inProgram : Error → Bool
  | .terminatedBlock .. => false
  | .internal breach => breach.inProgram
  | .unsupported .. | .typeMismatch .. | .unboundVariable .. | .unresolved _ | .invalidTransfer _ | .missingArgument ..
  | .extraArguments .. | .verification .. => true

namespace Build
variable {α β : Type} {b : Builder}

/-- A step of construction succeeds with a postcondition, or fails for a reason that lies in the program. -/
def Safe (m : Build α) (b : Builder) (Q : α → Builder → Prop) : Prop :=
  match m.run.run b with
  | (.ok a, b') => Q a b'
  | (.error e, _) => e.inProgram = true

theorem Safe.mono {m : Build α} {Q Q' : α → Builder → Prop} (safe : Safe m b Q) (weaker : ∀ a b', Q a b' → Q' a b') : Safe m b Q' := by
  unfold Safe at safe ⊢
  split at safe
  · exact weaker _ _ safe
  · exact safe

theorem Safe.of_runs {m : Build α} {Q : α → Builder → Prop} {a : α} {b' : Builder} (safe : Safe m b Q) (run : Runs m b a b') : Q a b' := by
  unfold Safe at safe
  rwa [run] at safe

@[simp] theorem safe_pure {a : α} {Q : α → Builder → Prop} : Safe (pure a) b Q ↔ Q a b := Iff.rfl

theorem safe_bind {m : Build α} {f : α → Build β} {Q : β → Builder → Prop} : Safe (m >>= f) b Q ↔ Safe m b fun a b' => Safe (f a) b' Q := by
  unfold Safe
  simp only [run_bind,run_bind]
  cases m.run.run b with
  | mk result b' => cases result <;> rfl

@[simp] theorem safe_get {Q : Builder → Builder → Prop} : Safe get b Q ↔ Q b b := Iff.rfl

@[simp] theorem safe_modify {f : Builder → Builder} {Q : PUnit → Builder → Prop} : Safe (modify f) b Q ↔ Q ⟨⟩ (f b) := Iff.rfl

end Build

namespace Lower
variable {α β : Type} {env : Environment} {s s' : State}
variable {m : Lower α} {Q : α → State → Prop}

/-- A step of lowering succeeds with a postcondition, or fails for a reason that lies in the program. -/
def Safe (env : Environment) (m : Lower α) (s : State) (Q : α → State → Prop) : Prop :=
  match (m.run env).run.run s with
  | (.ok a, s') => Q a s'
  | (.error e, _) => e.inProgram = true

theorem Safe.mono {Q' : α → State → Prop} (safe : Safe env m s Q) (weaker : ∀ a s', Q a s' → Q' a s') : Safe env m s Q' := by
  unfold Safe at safe ⊢
  split at safe
  · exact weaker _ _ safe
  · exact safe

theorem Safe.and_runs (safe : Safe env m s Q) : Safe env m s fun a s' => Q a s' ∧ Runs m env s a s' := by
  unfold Safe Runs at *
  cases outcome : (m.run env).run.run s with
  | mk result s' =>
    rw [outcome] at safe
    cases result with
    | ok a => exact ⟨safe,rfl⟩
    | error e => exact safe

theorem Safe.of_runs {a : α} (safe : Safe env m s Q) (run : Runs m env s a s') : Q a s' := by
  unfold Safe at safe
  rwa [run] at safe

theorem Safe.runs (safe : Safe env m s fun _ _ => True) : Safe env m s fun a s' => Runs m env s a s' :=
  safe.and_runs.mono fun _ _ done => done.2

@[simp] theorem safe_pure {a : α} : Safe env (pure a) s Q ↔ Q a s := Iff.rfl

theorem safe_bind {f : α → Lower β} {Q : β → State → Prop} : Safe env (m >>= f) s Q ↔ Safe env m s fun a s' => Safe env (f a) s' Q := by
  unfold Safe
  rw [run_bind]
  cases (m.run env).run.run s with
  | mk result s' => cases result <;> rfl

theorem Safe.bind {f : α → Lower β} {P : α → State → Prop} {Q : β → State → Prop} (first : Safe env m s P)
    (rest : ∀ a s', P a s' → Safe env (f a) s' Q) : Safe env (m >>= f) s Q :=
  safe_bind.mpr (first.mono rest)

@[simp] theorem safe_throw {e : Error} : Safe env (throw e) s Q ↔ e.inProgram = true := Iff.rfl

@[simp] theorem safe_get {Q : State → State → Prop} : Safe env get s Q ↔ Q s s := Iff.rfl

@[simp] theorem safe_modify {f : State → State} {Q : PUnit → State → Prop} : Safe env (modify f) s Q ↔ Q ⟨⟩ (f s) := Iff.rfl

@[simp] theorem safe_read {Q : Environment → State → Prop} : Safe env read s Q ↔ Q env s := Iff.rfl

theorem safe_lift {x : Except Error α} : Safe env (liftM x) s Q ↔ (∀ a, x = .ok a → Q a s) ∧ ∀ e, x = .error e → e.inProgram = true := by
  cases x with
  | error e =>
    show e.inProgram = true ↔ _
    simp
  | ok a =>
    show Q a s ↔ _
    simp

theorem safe_build {m : Build α} : Safe env (build m) s Q ↔ m.Safe s.builder fun a b => Q a { s with builder := b } := by
  show (match ((m.run.run s.builder).1, { s with builder := (m.run.run s.builder).2 }) with
    | (.ok a, s') => Q a s'
    | (.error e, _) => e.inProgram = true) ↔ _
  unfold Build.Safe
  cases m.run.run s.builder with
  | mk result b => cases result <;> rfl

theorem safe_build_bind {m : Build α} {f : α → Build β} {Q : β → State → Prop} :
    Safe env (build (m >>= f)) s Q ↔ Safe env (build m) s fun a s' => Safe env (build (f a)) s' Q := by
  simp only [safe_build,Build.safe_bind]

@[simp] theorem safe_onModule {f : Module → α × Module} : Safe env (onModule f) s Q ↔
    Q (f s.builder.output).1 { s with builder := { s.builder with output := (f s.builder.output).2 } } := Iff.rfl

@[simp] theorem safe_log {e : Event} {Q : Unit → State → Prop} : Safe env (log e) s Q ↔ Q () { s with log := e :: s.log } := Iff.rfl

@[simp] theorem safe_isTerminated {Q : Bool → State → Prop} : Safe env isTerminated s Q ↔ Q s.builder.isTerminated s := Iff.rfl

@[simp] theorem safe_scopeState {Q : ScopeState → State → Prop} :
    Safe env (scopeState id) s Q ↔ Q ((s.scopes[id]?).getD .empty) s := Iff.rfl

@[simp] theorem safe_modifyScope {f : ScopeState → ScopeState} {Q : Unit → State → Prop} :
    Safe env (modifyScope id f) s Q ↔ Q () { s with scopes := s.scopes.modify id f } := Iff.rfl

@[simp] theorem safe_modifySymbols {f : Symbols → Symbols} {Q : Unit → State → Prop} :
    Safe env (modifySymbols f) s Q ↔ Q () { s with symbols := f s.symbols } := Iff.rfl

theorem safe_tryCatch {handler : Error → Lower α} (again : ∀ e s, ∃ s', ((handler e).run env).run.run s = (.error e, s')) :
    Safe env (tryCatch m handler) s Q ↔ Safe env m s Q := by
  unfold Safe
  rw [run_tryCatch]
  cases (m.run env).run.run s with
  | mk result s' =>
    cases result with
    | ok a => rfl
    | error e =>
      obtain ⟨s'',failed⟩ := again e s'
      simp only [failed]

theorem safe_atBlock {step : Lower α} : Safe env (atBlock block step) s Q ↔
      Safe env step { s with builder := { s.builder with cursor := some block } } fun a s' =>
        Q a { s' with builder := { s'.builder with cursor := s.builder.cursor } } := by
  unfold atBlock setCursor
  simp only [safe_bind,safe_get,safe_modify,safe_pure]
  exact safe_tryCatch fun _ _ => ⟨_,rfl⟩

/-! ### Passes that agree -/

variable {r r' : Recurse}

/-- Two passes over the children give the same outcome of a step, and it is safe. -/
def Agree (env : Environment) (r r' : Recurse) (m : Recurse → Lower α) (s : State) (Q : α → State → Prop) : Prop :=
  ((m r).run env).run.run s = ((m r').run env).run.run s ∧ Safe env (m r) s Q

theorem Safe.agree (safe : Safe env m s Q) : Agree env r r' (fun _ => m) s Q := ⟨rfl,safe⟩

theorem Agree.mono {m : Recurse → Lower α} {Q' : α → State → Prop} (agree : Agree env r r' m s Q)
    (weaker : ∀ a s', Q a s' → Q' a s') : Agree env r r' m s Q' := ⟨agree.1,agree.2.mono weaker⟩

theorem Agree.and_runs {m : Recurse → Lower α} (agree : Agree env r r' m s Q) :
    Agree env r r' m s fun a s' => Q a s' ∧ Runs (m r) env s a s' := ⟨agree.1,agree.2.and_runs⟩

theorem Agree.bind {m : Recurse → Lower α} {f : Recurse → α → Lower β} {P : α → State → Prop} {Q : β → State → Prop}
    (first : Agree env r r' m s P) (rest : ∀ a s', P a s' → Agree env r r' (fun r => f r a) s' Q) :
    Agree env r r' (fun r => m r >>= f r) s Q := by
  refine ⟨?_,first.2.bind fun a s' h => (rest a s' h).2⟩
  have safe := first.2
  unfold Safe at safe
  simp only [run_bind,← first.1]
  cases outcome : ((m r).run env).run.run s with
  | mk result s' =>
    rw [outcome] at safe
    cases result with
    | ok a => exact (rest a s' safe).1
    | error e => rfl

theorem Agree.tryCatch {m : Recurse → Lower α} {handler : Error → Lower α}
    (again : ∀ e s, ∃ s', ((handler e).run env).run.run s = (.error e, s')) (agree : Agree env r r' m s Q) :
    Agree env r r' (fun r => tryCatch (m r) handler) s Q :=
  ⟨by simp only [run_tryCatch,agree.1],(safe_tryCatch again).mpr agree.2⟩

theorem Agree.after {f : Recurse → α → Lower β} {Q : β → State → Prop} {a : α} {s' : State}
    (run : Runs m env s a s') (rest : Agree env r r' (fun r => f r a) s' Q) : Agree env r r' (fun r => m >>= f r) s Q := by
  have first : Safe env m s fun x t => x = a ∧ t = s' := by
    unfold Safe
    rw [run]
    exact ⟨rfl,rfl⟩
  exact first.agree.bind fun _ _ ⟨same,same'⟩ => same ▸ same' ▸ rest

theorem Agree.withScope {kind : ScopeKind} {chain : Chain} {step : Recurse → Chain → Lower α}
    (inner : Agree env r r' (fun r => step r (⟨s.scopes.size,kind⟩ :: chain)) { s with scopes := s.scopes.push .empty }
      fun a s' => Q a { s' with scopes := s'.scopes.take s.scopes.size }) :
    Agree env r r' (fun r => withScope kind chain (step r)) s Q := by
  refine .after rfl (.after rfl (.after rfl ?_))
  exact (inner.tryCatch fun _ _ => ⟨_,rfl⟩).bind fun a s' done => .after rfl (safe_pure.mpr done).agree

theorem Agree.atBlock {step : Recurse → Lower α}
    (inner : Agree env r r' step { s with builder := { s.builder with cursor := some block } } fun a s' =>
      Q a { s' with builder := { s'.builder with cursor := s.builder.cursor } }) :
    Agree env r r' (fun r => atBlock block (step r)) s Q := by
  refine .after rfl (.after rfl ?_)
  exact (inner.tryCatch fun _ _ => ⟨_,rfl⟩).bind fun a s' done => .after rfl (safe_pure.mpr done).agree

end Lower

/-! ### Failures of lookups -/

section
variable {α : Type} {decls : Declarations} {layout : Layout} {chain : Chain} {function : FunctionDecl}

/-- A lookup that fails, fails for a reason that lies in the program. -/
def FailsInProgram (x : Except Error α) : Prop := ∀ e, x = .error e → e.inProgram = true

theorem failsInProgram_ok {a : α} : FailsInProgram (.ok a) := nofun

theorem failsInProgram_unresolved {what : Missing} : FailsInProgram (.error (.unresolved what) : Except Error α) :=
  fun _ failed => error.inj failed ▸ rfl

theorem failsInProgram_bind {x : Except Error α} {f : α → Except Error β} (fails : FailsInProgram x)
    (rest : ∀ a, FailsInProgram (f a)) : FailsInProgram (x >>= f) := by
  cases x with
  | error e => exact fun _ failed => error.inj failed ▸ fails e rfl
  | ok a => exact rest a

theorem failsInProgram_getFunction (id : FunctionId) : FailsInProgram (decls.getFunction id) := by
  unfold getFunction
  split
  · exact failsInProgram_ok
  · exact failsInProgram_unresolved

theorem failsInProgram_getClass (id : ClassId) : FailsInProgram (decls.getClass id) := by
  unfold getClass
  split
  · exact failsInProgram_ok
  · exact failsInProgram_unresolved

theorem failsInProgram_getField (id : FieldId) : FailsInProgram (decls.getField id) := by
  unfold getField
  split
  · exact failsInProgram_ok
  · exact failsInProgram_unresolved

theorem failsInProgram_defaultConstructor (id : ClassId) : FailsInProgram (decls.defaultConstructor id) := by
  unfold defaultConstructor
  split
  · exact failsInProgram_ok
  · exact failsInProgram_unresolved

theorem failsInProgram_bodyType (id : ClassId) : FailsInProgram (layout.bodyType id) := by
  unfold bodyType
  split
  · exact failsInProgram_ok
  · exact failsInProgram_unresolved

theorem failsInProgram_fieldIndex (id : FieldId) : FailsInProgram (layout.fieldIndex id) := by
  unfold fieldIndex
  split
  · exact failsInProgram_ok
  · exact failsInProgram_unresolved

theorem failsInProgram_vtableSlot (id : FunctionId) : FailsInProgram (layout.vtableSlot id) := by
  unfold vtableSlot
  split
  · exact failsInProgram_ok
  · exact failsInProgram_unresolved

theorem failsInProgram_descriptorType (id : ClassId) : FailsInProgram (layout.descriptorType id) := by
  unfold descriptorType
  split
  · exact failsInProgram_ok
  · exact failsInProgram_unresolved

theorem failsInProgram_globalSpec {env : Environment} (role : GlobalRole) : FailsInProgram (env.globalSpec role) := by
  cases role with
  | staticField id => exact failsInProgram_bind (failsInProgram_getField id) fun _ => failsInProgram_ok
  | descriptor cls =>
    exact failsInProgram_bind (failsInProgram_getClass cls) fun _ =>
      failsInProgram_bind (failsInProgram_descriptorType cls) fun _ => failsInProgram_ok
  | singleton cls =>
    refine failsInProgram_bind (failsInProgram_getClass cls) fun decl => ?_
    split <;> exact failsInProgram_ok
  | unit => exact failsInProgram_ok

theorem failsInProgram_ownerOf : FailsInProgram (ownerOf function) := by
  unfold ownerOf
  split
  · exact failsInProgram_ok
  · exact failsInProgram_unresolved

theorem failsInProgram_map {x : Except Error α} {f : α → β} (fails : FailsInProgram x) : FailsInProgram (x.map f) := by
  cases x with
  | ok a => exact failsInProgram_ok
  | error e => exact fun _ failed => error.inj failed ▸ fails e rfl

theorem failsInProgram_ownerKind : FailsInProgram (ownerKind decls function) := by
  unfold ownerKind
  split
  · exact failsInProgram_map (failsInProgram_getClass _)
  · exact failsInProgram_ok

theorem failsInProgram_receiver : FailsInProgram chain.receiver := by
  intro e failed
  fun_induction Chain.receiver chain with
  | case1 => exact error.inj failed ▸ rfl
  | case2 => cases failed
  | case3 _ _ _ ih => exact ih failed

theorem failsInProgram_catcher {request : Request} : FailsInProgram (chain.catcher request) := by
  intro e failed
  fun_induction Chain.catcher request chain with
  | case1 => exact error.inj failed ▸ rfl
  | case2 => cases failed
  | case3 => cases failed
  | case4 => cases failed
  | case5 _ _ _ _ _ ih => exact ih failed

end

end BlockLowering
