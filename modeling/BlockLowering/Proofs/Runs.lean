import BlockLowering.Pass.Exit
/-!
Successful runs. Steps of construction and of lowering are taken apart here: a run of a sequence is a
run of its first step and a run of the rest from where that ended. Failures have no run, so that every
later statement is about outcomes that exist.
-/
namespace BlockLowering
open Except ScopeKind Build PUnit
variable {e : Error} {id : Nat} {kind : ScopeKind}

def ScopeKind.claims : ScopeKind → Exit → Bool
  | .function (some own) _ _, .returning target => own = target
  | .inlined own _, .returning target => own = target
  | .loop own _ _, .breaking target => own = target
  | .loop own _ _, .continuing target => own = target
  | _, _ => false

namespace Build
variable {α β : Type} {b b' b'' : Builder}
variable {a : α}

/-- A step of construction succeeds with a result and leaves a builder behind. -/
def Runs (m : Build α) (b : Builder) (a : α) (b' : Builder) : Prop := m.run.run b = (.ok a, b')

@[simp] theorem runs_pure {a' : α} : Runs (pure a) b a' b' ↔ a = a' ∧ b = b' := by
  show (ok a, b) = (ok a', b') ↔ _
  simp

theorem run_bind (m : Build α) (f : α → Build β) : (m >>= f).run.run b =
      match m.run.run b with
      | (.ok a, b') => (f a).run.run b'
      | (.error e, b') => (.error e, b') := by
  simp only [ExceptT.run_bind,StateT.run_bind]
  cases m.run.run b with
  | mk result b' => cases result <;> rfl

theorem runs_bind {m : Build α} {f : α → Build β} {r : β} : Runs (m >>= f) b r b'' ↔ ∃ a b', Runs m b a b' ∧ Runs (f a) b' r b'' := by
  rw [Runs,run_bind]
  constructor
  · intro run
    cases first : m.run.run b with
    | mk result b' =>
      rw [first] at run
      cases result with
      | error e => cases run
      | ok a => exact ⟨a,b',first,run⟩
  · rintro ⟨a,b',first,rest⟩
    rw [first]
    exact rest

@[simp] theorem runs_throw : ¬ Runs (throw e) b a b' := by
  show ¬ (error e, b) = (ok a, b')
  simp

@[simp] theorem runs_breach {e : Breach} : ¬ Runs (breach e) b a b' := runs_throw

@[simp] theorem runs_get {r : Builder} : Runs get b r b' ↔ r = b ∧ b' = b := by
  show (ok b, b) = (ok r, b') ↔ _
  simp [eq_comm]

@[simp] theorem runs_modify {f : Builder → Builder} {r : PUnit} : Runs (modify f) b r b' ↔ b' = f b := by
  show (ok unit, f b) = (ok r, b') ↔ _
  simp [eq_comm]

end Build

namespace Lower
variable {α β : Type} {env : Environment} {s s' s'' : State}
variable {a : α} {m : Lower α} {r : Unit}

/-- A step of lowering succeeds with a result and leaves a state behind. -/
def Runs (m : Lower α) (env : Environment) (s : State) (a : α) (s' : State) : Prop :=
  (m.run env).run.run s = (.ok a, s')

@[simp] theorem runs_pure {a' : α} : Runs (pure a) env s a' s' ↔ a' = a ∧ s' = s := by
  show (ok a, s) = (ok a', s') ↔ _
  simp [eq_comm]

theorem run_bind (m : Lower α) (f : α → Lower β) : ((m >>= f).run env).run.run s =
      match (m.run env).run.run s with
      | (.ok a, s') => ((f a).run env).run.run s'
      | (.error e, s') => (.error e, s') := by
  simp only [ReaderT.run_bind,ExceptT.run_bind,StateT.run_bind]
  cases (m.run env).run.run s with
  | mk result s' => cases result <;> rfl

theorem runs_bind {f : α → Lower β} {r : β} : Runs (m >>= f) env s r s'' ↔ ∃ a s', Runs m env s a s' ∧ Runs (f a) env s' r s'' := by
  rw [Runs,run_bind]
  constructor
  · intro run
    cases first : (m.run env).run.run s with
    | mk result s' =>
      rw [first] at run
      cases result with
      | error e => cases run
      | ok a => exact ⟨a,s',first,run⟩
  · rintro ⟨a,s',first,rest⟩
    rw [first]
    exact rest

@[simp] theorem runs_map {f : α → β} {r : β} : Runs (f <$> m) env s r s' ↔ ∃ a, Runs m env s a s' ∧ r = f a := by
  rw [map_eq_pure_bind,runs_bind]
  simp only [runs_pure]
  constructor
  · rintro ⟨a,_,run,rfl,rfl⟩
    exact ⟨a,run,rfl⟩
  · rintro ⟨a,run,rfl⟩
    exact ⟨a,_,run,rfl,rfl⟩

@[simp] theorem runs_throw : ¬ Runs (throw e) env s a s' := by
  show ¬ (error e, s) = (ok a, s')
  simp

@[simp] theorem runs_breach {e : Breach} : ¬ Runs (breach e) env s a s' := runs_throw

@[simp] theorem runs_get {r : State} : Runs get env s r s' ↔ r = s ∧ s' = s := by
  show (ok s, s) = (ok r, s') ↔ _
  simp [eq_comm]

@[simp] theorem runs_set {x : State} {r : PUnit} : Runs (set x) env s r s' ↔ s' = x := by
  show (ok unit, x) = (ok r, s') ↔ _
  simp [eq_comm]

@[simp] theorem runs_modify {f : State → State} {r : PUnit} : Runs (modify f) env s r s' ↔ s' = f s := by
  show (ok unit, f s) = (ok r, s') ↔ _
  simp [eq_comm]

@[simp] theorem runs_read {r : Environment} : Runs read env s r s' ↔ r = env ∧ s' = s := by
  show (ok env, s) = (ok r, s') ↔ _
  simp [eq_comm]

@[simp] theorem runs_lift {x : Except Error α} : Runs (liftM x) env s a s' ↔ x = .ok a ∧ s' = s := by
  cases x with
  | error e =>
    show (error e, s) = (ok a, s') ↔ _
    simp
  | ok v =>
    show (ok v, s) = (ok a, s') ↔ _
    simp [eq_comm]

theorem runs_build {m : Build α} : Runs (build m) env s a s' ↔ ∃ b, m.Runs s.builder a b ∧ s' = { s with builder := b } := by
  show ((m.run.run s.builder).1, { s with builder := (m.run.run s.builder).2 }) = (ok a, s') ↔ _
  constructor
  · intro run
    obtain ⟨same,rfl⟩ := Prod.mk.inj run
    exact ⟨_,Prod.ext same rfl,rfl⟩
  · rintro ⟨b,run,rfl⟩
    rw [run]

theorem runs_build_bind {m : Build α} {f : α → Build β} {r : β} : Runs (build (m >>= f)) env s r s'' ↔
      ∃ a s', Runs (build m) env s a s' ∧ Runs (build (f a)) env s' r s'' := by
  simp only [runs_build,Build.runs_bind]
  constructor
  · rintro ⟨b'',⟨a,b',first,rest⟩,rfl⟩
    exact ⟨a,_,⟨b',first,rfl⟩,b'',rest,rfl⟩
  · rintro ⟨a,_,⟨b',first,rfl⟩,b'',rest,rfl⟩
    exact ⟨b'',⟨a,b',first,rest⟩,rfl⟩

@[simp] theorem runs_build_get {b : Builder} : Runs (build get) env s b s' ↔ b = s.builder ∧ s' = s := by
  rw [runs_build]
  simp only [Build.runs_get,and_assoc,exists_and_left,exists_eq_left]

@[simp] theorem runs_build_throw : ¬ Runs (build (throw e)) env s a s' := by
  simp [runs_build]

@[simp] theorem runs_onModule {f : Module → α × Module} : Runs (onModule f) env s a s' ↔ a = (f s.builder.output).1 ∧
        s' = { s with builder := { s.builder with output := (f s.builder.output).2 } } := by
  show (ok (f s.builder.output).1, _) = (ok a, s') ↔ _
  simp [eq_comm]

@[simp] theorem runs_log {e : Event} : Runs (log e) env s r s' ↔ s' = { s with log := e :: s.log } := runs_modify

@[simp] theorem runs_isTerminated {r : Bool} : Runs isTerminated env s r s' ↔ r = s.builder.isTerminated ∧ s' = s := by
  simp only [isTerminated,runs_bind,runs_get,runs_pure]
  constructor
  · rintro ⟨_,_,⟨rfl,rfl⟩,rfl,rfl⟩
    exact ⟨rfl,rfl⟩
  · rintro ⟨rfl,rfl⟩
    exact ⟨_,_,⟨rfl,rfl⟩,rfl,rfl⟩

@[simp] theorem runs_produced {product : Product} {found : Option Register} {r : Register} :
    Runs (produced product found) env s r s' ↔ found = some r ∧ s' = s := by
  cases found with
  | none => simp [produced]
  | some register => simp [produced,eq_comm]

theorem run_tryCatch (m : Lower α) (handler : Error → Lower α) : ((tryCatch m handler).run env).run.run s =
      match (m.run env).run.run s with
      | (.ok a, s') => (.ok a, s')
      | (.error e, s') => ((handler e).run env).run.run s' := by
  unfold StateT.run ExceptT.run ReaderT.run
  simp only [tryCatch,tryCatchThe,MonadExceptOf.tryCatch,ExceptT.tryCatch,ExceptT.mk,bind,StateT.bind]
  cases m env s with
  | mk result s' => cases result <;> rfl

theorem runs_tryCatch {handler : Error → Lower α} (fails : ∀ e s, ¬ Runs (handler e) env s a s') :
    Runs (tryCatch m handler) env s a s' ↔ Runs m env s a s' := by
  rw [Runs,run_tryCatch,Runs]
  cases outcome : (m.run env).run.run s with
  | mk result s₁ =>
    cases result with
    | ok a => exact Iff.rfl
    | error e =>
      constructor
      · intro run
        exact absurd run (fails e s₁)
      · intro run
        cases run

@[simp] theorem runs_scopeState {r : ScopeState} :
    Runs (scopeState id) env s r s' ↔ r = (s.scopes[id]?).getD .empty ∧ s' = s := by
  simp [scopeState,and_assoc,and_comm]

@[simp] theorem runs_modifyScope {f : ScopeState → ScopeState} :
    Runs (modifyScope id f) env s r s' ↔ s' = { s with scopes := s.scopes.modify id f } := runs_modify

@[simp] theorem runs_setCursor {cursor : Option BlockId} :
    Runs (setCursor cursor) env s r s' ↔ s' = { s with builder := { s.builder with cursor } } := runs_modify

@[simp] theorem runs_modifySymbols {f : Symbols → Symbols} :
    Runs (modifySymbols f) env s r s' ↔ s' = { s with symbols := f s.symbols } := runs_modify

theorem runs_closing {handler : Error → Lower α} {close : State → State} (fails : ∀ e s s', ¬ Runs (handler e) env s a s') :
    Runs (do let a ← tryCatch m handler; modify close; return a) env s a s' ↔ ∃ s₁, Runs m env s a s₁ ∧ s' = close s₁ := by
  simp only [runs_bind,runs_modify]
  constructor
  · rintro ⟨_,s₁,run,_,_,rfl,rest⟩
    obtain ⟨rfl,rfl⟩ := runs_pure.mp rest
    exact ⟨s₁,(runs_tryCatch (fails · · _)).mp run,rfl⟩
  · rintro ⟨s₁,run,rfl⟩
    exact ⟨a,s₁,(runs_tryCatch (fails · · _)).mpr run,⟨⟩,_,rfl,runs_pure.mpr ⟨rfl,rfl⟩⟩

theorem runs_withScope {chain : Chain} {step : Chain → Lower α} : Runs (withScope kind chain step) env s a s' ↔
      ∃ s₁, Runs (step (⟨s.scopes.size,kind⟩ :: chain)) env { s with scopes := s.scopes.push .empty } a s₁ ∧
        s' = { s₁ with scopes := s₁.scopes.take s.scopes.size } := by
  exact runs_closing (s := { s with scopes := s.scopes.push .empty }) fun _ _ _ => by simp [runs_bind]

theorem runs_atBlock {block : BlockId} {step : Lower α} : Runs (atBlock block step) env s a s' ↔
      ∃ s₁, Runs step env { s with builder := { s.builder with cursor := some block } } a s₁ ∧
        s' = { s₁ with builder := { s₁.builder with cursor := s.builder.cursor } } := by
  exact runs_closing (s := { s with builder := { s.builder with cursor := some block } }) fun _ _ _ => by simp [runs_bind]

theorem Runs.newContinuation_merges {env : Environment} {s s' : State} {ty : Ty} {label : String} {k : Continuation}
    (run : Runs (newContinuation ty label) env s k s') : k.ty = ty ∧ (k.phi = none ↔ ty.isValueless = true) := by
  obtain ⟨block,s₁,-,run⟩ := runs_bind.mp run
  split at run
  · rename_i valueless
    obtain ⟨rfl,-⟩ := runs_pure.mp run
    exact ⟨rfl,iff_of_true rfl valueless⟩
  · rename_i valued
    obtain ⟨phi,s₂,-,run⟩ := runs_bind.mp run
    obtain ⟨rfl,-⟩ := runs_pure.mp run
    exact ⟨rfl,iff_of_false (Option.some_ne_none _) valued⟩

/-- How an exit is taken at a scope: the scope finalizes, it is the one to be left, or the exit goes on outwards. -/
inductive Exits (number : Nat) (outer : Chain) (value : Value) : ScopeKind → Exit → (Recurse → Lower Unit) → Prop
  | finalizing {finalizer : Expr} {exit : Exit} :
    Exits number outer value (.finalizing finalizer) exit fun r => leave r (⟨number,.finalizing finalizer⟩ :: outer) exit value
  | returning {function : FunctionId} {returnsVoid : Bool} {receiver : Option Value} :
    Exits number outer value (.function (some function) returnsVoid receiver) (.returning function) fun _ =>
      returnFrom returnsVoid value
  | inlined {function : FunctionId} {target : Continuation} :
    Exits number outer value (.inlined function target) (.returning function) fun _ => jump target value
  | breaking {loop : LoopId} {target : Continuation} {check : BlockId} :
    Exits number outer value (.loop loop target check) (.breaking loop) fun _ => jump target .unit
  | continuing {loop : LoopId} {target : Continuation} {check : BlockId} :
    Exits number outer value (.loop loop target check) (.continuing loop) fun _ => restart check
  | outwards {kind : ScopeKind} {exit : Exit} (passed : kind.claims exit = false)
    (plain : ∀ finalizer, kind ≠ .finalizing finalizer) : Exits number outer value kind exit fun r => leave r outer exit value

theorem Exits.ite {number : Nat} {outer : Chain} {value : Value} {exit : Exit} {here : Prop} [Decidable here]
    {step step' : Recurse → Lower Unit} (taken : here → Exits number outer value kind exit step)
    (passed : ¬ here → Exits number outer value kind exit step') :
    Exits number outer value kind exit fun r => if here then step r else step' r := by
  by_cases same : here
  · simpa only [if_pos same] using taken same
  · simpa only [if_neg same] using passed same

theorem exits_leave (number : Nat) (kind : ScopeKind) (outer : Chain) (exit : Exit) (value : Value) :
    ∃ step, (fun r => leave r (⟨number,kind⟩ :: outer) exit value) = step ∧ Exits number outer value kind exit step := by
  refine ⟨_,rfl,?_⟩
  cases kind with
  | finalizing finalizer => exact .finalizing
  | function function returnsVoid receiver =>
    cases function with
    | none => cases exit <;> exact .outwards rfl nofun
    | some function =>
      cases exit with
      | returning target => exact .ite (fun same => same ▸ .returning) fun other => .outwards (by simpa [claims] using other) nofun
      | _ => exact .outwards rfl nofun
  | inlined function target =>
    cases exit with
    | returning goal => exact .ite (fun same => same ▸ .inlined) fun other => .outwards (by simpa [claims] using other) nofun
    | _ => exact .outwards rfl nofun
  | loop loop target check =>
    cases exit with
    | returning goal => exact .outwards rfl nofun
    | breaking goal => exact .ite (fun same => same ▸ .breaking) fun other => .outwards (by simpa [claims] using other) nofun
    | continuing goal => exact .ite (fun same => same ▸ .continuing) fun other => .outwards (by simpa [claims] using other) nofun
  | _ => cases exit <;> exact .outwards rfl nofun

/-- The code that links an initializer. -/
def linkNode (node : GlobalId) : Lower Unit := do
  let ptr ← build (const (.global node))
  let target ← supportTarget .appendInitializer
  let _ ← callPlain target [ptr]
  build (ret none)

end Lower

end BlockLowering
