import BlockLowering.Proofs.CompositionWalk
/-!
The scopes behind a step, however it ends. Variables are bound only in scopes that the step itself has opened,
and these are closed again; of the other scopes only those around that exceptions or exits can stop at come to remember
blocks, and what a scope remembers it keeps. Failures are no exception: each kind of step is looked at with all its outcomes.
-/
namespace BlockLowering
open Lower List Finding ScopeState CallTarget
variable {n : Nat} {found needs : List Finding} {id : FunctionId} {f : ScopeState → ScopeState} {α : Type}

attribute [ext] ScopeState

/-- What becomes of a scope in which variables may be bound, and which may come to remember blocks, or not. -/
structure ScopeState.Framed (binds guards : Prop) (before after : ScopeState) : Prop where
  slots : ¬binds → after.slots = before.slots
  still : ¬guards → after.landingPad = before.landingPad ∧ after.handler = before.handler ∧ after.cleanups = before.cleanups
  recalls : before.Recalls after

/-- What becomes of the scopes in a step that counts on some findings. -/
structure Framed (needs : List Finding) (scopes scopes' : Array ScopeState) : Prop where
  size : scopes'.size = scopes.size
  each : ∀ {i before}, scopes[i]? = some before →
    ∃ after, scopes'[i]? = some after ∧ ScopeState.Framed (.opened i ∈ needs) (.guarding i ∈ needs) before after

/-- No further scope may be changed, of some number of them. -/
def Finding.Within (n : Nat) (found needs : List Finding) : Prop :=
  ∀ i < n, (.opened i ∈ found → .opened i ∈ needs) ∧ (.guarding i ∈ found → .guarding i ∈ needs)

theorem Finding.within_of_subset (subset : found ⊆ needs) : Within n found needs :=
  fun _ _ => ⟨fun inside => subset inside,fun inside => subset inside⟩

theorem Finding.Within.trans {first second third : List Finding} (within : Within n first second) (within' : Within n second third) :
    Within n first third :=
  fun i bound => ⟨fun inside => (within' i bound).1 ((within i bound).1 inside),fun inside => (within' i bound).2 ((within i bound).2 inside)⟩

theorem CallTarget.relies_apart {target : CallTarget} {i : Nat} : .opened i ∉ target.relies ∧ .guarding i ∉ target.relies := by
  unfold relies Callee.relies
  split <;> simp

theorem Finding.Within.append (within : Within n found needs) : Within n (found ++ needs) needs :=
  fun i bound => ⟨fun inside => (mem_append.mp inside).elim (within i bound).1 id,fun inside => (mem_append.mp inside).elim (within i bound).2 id⟩

namespace Framed
variable {needs needs' : List Finding} {scopes scopes₁ scopes₂ : Array ScopeState}

theorem refl : Framed needs scopes scopes :=
  ⟨rfl,fun there => ⟨_,there,fun _ => rfl,fun _ => ⟨rfl,rfl,rfl⟩,fun h => h,fun h => h,fun h => h⟩⟩

theorem widen (framed : Framed needs' scopes scopes₁) (within : Finding.Within scopes.size needs' needs) : Framed needs scopes scopes₁ := by
  refine ⟨framed.size,fun {i before} there => ?_⟩
  obtain ⟨after,there',step⟩ := framed.each there
  obtain ⟨opens,guards⟩ := within i (getElem?_eq_some_iff.mp there).1
  exact ⟨after,there',fun none => step.slots fun may => none (opens may),fun none => step.still fun may => none (guards may),step.recalls⟩

theorem trans (first : Framed needs scopes scopes₁) (second : Framed needs scopes₁ scopes₂) : Framed needs scopes scopes₂ := by
  refine ⟨second.size.trans first.size,fun {i before} there => ?_⟩
  obtain ⟨middle,there₁,step₁⟩ := first.each there
  obtain ⟨after,there₂,step₂⟩ := second.each there₁
  refine ⟨after,there₂,fun none => (step₂.slots none).trans (step₁.slots none),fun none => ?_,?_⟩
  · obtain ⟨pad₁,handler₁,cleanups₁⟩ := step₁.still none
    obtain ⟨pad₂,handler₂,cleanups₂⟩ := step₂.still none
    exact ⟨pad₂.trans pad₁,handler₂.trans handler₁,cleanups₂.trans cleanups₁⟩
  · exact ⟨fun known => step₂.recalls.landingPad (step₁.recalls.landingPad known),fun known => step₂.recalls.handler (step₁.recalls.handler known),
      fun known => step₂.recalls.cleanups (step₁.recalls.cleanups known)⟩

theorem modify {id : Nat}
    (step : ∀ {state}, scopes[id]? = some state → ScopeState.Framed (.opened id ∈ needs) (.guarding id ∈ needs) state (f state)) :
    Framed needs scopes (scopes.modify id f) := by
  refine ⟨Array.size_modify,fun {i before} there => ?_⟩
  rw [Array.getElem?_modify]
  by_cases here : id = i
  · subst here
    exact ⟨f before,by rw [if_pos rfl,there]; rfl,step there⟩
  · exact ⟨before,by rw [if_neg here,there],fun _ => rfl,fun _ => ⟨rfl,rfl,rfl⟩,fun h => h,fun h => h,fun h => h⟩

theorem eq_of_nil (framed : Framed [] scopes scopes₁) : scopes₁ = scopes := by
  refine Array.ext framed.size fun i bound₁ bound => ?_
  obtain ⟨after,there,step⟩ := framed.each (Array.getElem?_eq_getElem bound)
  rw [Array.getElem?_eq_getElem bound₁] at there
  cases there
  obtain ⟨pad,handler,cleanups⟩ := step.still not_mem_nil
  exact ScopeState.ext (step.slots not_mem_nil) pad handler cleanups

theorem enclosed (framed : Framed (.opened scopes.size :: .guarding scopes.size :: needs) (scopes.push .empty) scopes₁) :
    Framed needs scopes (scopes₁.take scopes.size) := by
  have size : scopes₁.size = scopes.size + 1 := framed.size.trans (Array.size_push _)
  refine ⟨by simp [size],fun {i before} there => ?_⟩
  have bound := (Array.getElem?_eq_some_iff.mp there).1
  have inside : (scopes.push .empty)[i]? = some before := by rw [Array.getElem?_push,if_neg (Nat.ne_of_lt bound),there]
  obtain ⟨after,there',step⟩ := framed.each inside
  have other : i ≠ scopes.size := Nat.ne_of_lt bound
  refine ⟨after,?_,fun none => step.slots (by simpa [other] using none),fun none => step.still (by simpa [other] using none),step.recalls⟩
  rw [Array.take_eq_extract,Array.getElem?_extract,if_pos (by omega),Nat.zero_add,there']

end Framed

/-- What a step that counts on some findings makes of the scopes of a state, however it ends; its result lets no further scope be
    changed. -/
structure Frames {α : Type} (env : Environment) (s : State) (needs : List Finding) (step : Lower α) (gives : α → List Finding) : Prop where
  lead : Framed needs s.scopes ((step.run env).run.run s).2.scopes
  within : ∀ {a s'}, Runs step env s a s' → Finding.Within s.scopes.size (gives a) needs

/-- A step that leaves the scopes alone, however it ends. -/
def Lower.Apart (step : Lower α) : Prop := ∀ env s, ((step.run env).run.run s).2.scopes = s.scopes

namespace Lower.Apart
variable {α β : Type}

theorem bind {step : Lower α} {f : α → Lower β} (first : Apart step) (second : ∀ a, Apart (f a)) : Apart (step >>= f) := by
  intro env s
  rw [run_bind]
  have same := first env s
  revert same
  cases (step.run env).run.run s with
  | mk result s₁ =>
    intro same
    cases result with
    | ok a => exact (second a env s₁).trans same
    | error e => exact same

theorem lift {x : Except Error α} : Apart (liftM x : Lower α) := fun _ _ => by cases x <;> rfl

theorem procedureOf : Apart (procedureOf id) := by
  refine .bind (fun _ _ => rfl) fun s => ?_
  split
  · exact fun _ _ => rfl
  · exact .bind (fun _ _ => rfl) fun env => .bind lift fun function => fun _ _ => rfl

theorem directTarget : Apart (directTarget id) :=
  .bind (fun _ _ => rfl) fun _ => .bind lift fun _ => .bind procedureOf fun _ => fun _ _ => rfl

theorem globalOf {role : GlobalRole} : Apart (globalOf role) := by
  refine .bind (fun _ _ => rfl) fun s => ?_
  split
  · exact fun _ _ => rfl
  · exact .bind (fun _ _ => rfl) fun env => .bind lift fun spec => fun _ _ => rfl

theorem literalOf {constant : Constant} : Apart (literalOf constant) := by
  cases constant <;> exact fun _ _ => rfl

end Lower.Apart

namespace Frames
variable {α β : Type} {env : Environment} {s : State} {needs needs' : List Finding} {step : Lower α} {gives : α → List Finding}

theorem apart (apart : step.Apart) (none : ∀ {a i}, .opened i ∉ gives a ∧ .guarding i ∉ gives a) : Frames env s needs step gives :=
  ⟨by rw [apart env s]; exact .refl,fun _ _ _ => ⟨fun inside => absurd inside none.1,fun inside => absurd inside none.2⟩⟩

theorem bind {f : α → Lower β} {gives' : β → List Finding} (first : Frames env s needs step gives)
    (second : ∀ a s', Runs step env s a s' → Frames env s' (gives a ++ needs) (f a) gives') : Frames env s needs (step >>= f) gives' := by
  have framed := first.lead
  refine ⟨?_,fun {b s'} run => ?_⟩
  · rw [run_bind]
    cases outcome : (step.run env).run.run s with
    | mk result s₁ =>
      rw [outcome] at framed
      cases result with
      | error e => exact framed
      | ok a => exact framed.trans ((second a s₁ outcome).lead.widen (framed.size ▸ (first.within outcome).append))
  · obtain ⟨a,s₁,run₁,run₂⟩ := runs_bind.mp run
    rw [run₁] at framed
    have after := (second a s₁ run₁).within run₂
    rw [framed.size] at after
    exact after.trans (first.within run₁).append

theorem widen (frames : Frames env s needs step gives) (within : Finding.Within s.scopes.size needs needs') : Frames env s needs' step gives :=
  ⟨frames.lead.widen within,fun run => (frames.within run).trans within⟩

theorem mono {gives' : α → List Finding} (frames : Frames env s needs step gives) (more : needs ⊆ needs')
    (fewer : ∀ a, gives' a ⊆ gives a ++ needs') : Frames env s needs' step gives' := by
  have wide := frames.widen (within_of_subset more)
  exact ⟨wide.lead,fun {a s'} run => (within_of_subset (fewer a)).trans (wide.within run).append⟩

theorem scopeState {id : Nat} : Frames env s needs (scopeState id) remembered :=
  .apart (fun _ _ => rfl) (by simp [mem_remembered])

theorem modifyScope {id : Nat}
    (step : ∀ {state}, s.scopes[id]? = some state → ScopeState.Framed (.opened id ∈ needs) (.guarding id ∈ needs) state (f state)) :
    Frames env s needs (modifyScope id f) noFacts :=
  ⟨Framed.modify step,fun _ _ _ => by simp [noFacts]⟩

theorem withScope {kind : ScopeKind} {chain : Chain} {step : Chain → Lower α}
    (inner : Frames env { s with scopes := s.scopes.push .empty } (.opened s.scopes.size :: .guarding s.scopes.size :: needs)
      (step (⟨s.scopes.size,kind⟩ :: chain)) gives) : Frames env s needs (withScope kind chain step) gives := by
  refine ⟨?_,fun {a s'} run i bound => ?_⟩
  · suffices closed : (((Lower.withScope kind chain step).run env).run.run s).2.scopes = (((step (⟨s.scopes.size,kind⟩ :: chain)).run env).run.run
        { s with scopes := s.scopes.push .empty }).2.scopes.take s.scopes.size by rw [closed]; exact inner.lead.enclosed
    show (((tryCatch (step _) _ >>= _ : Lower α).run env).run.run { s with scopes := s.scopes.push .empty }).2.scopes = _
    rw [run_bind,run_tryCatch]
    cases ((step (⟨s.scopes.size,kind⟩ :: chain)).run env).run.run { s with scopes := s.scopes.push .empty } with
    | mk result s₁ => cases result <;> rfl
  · obtain ⟨s₁,inside,-⟩ := runs_withScope.mp run
    have within := inner.within inside i (by rw [Array.size_push]; omega)
    have other : i ≠ s.scopes.size := Nat.ne_of_lt bound
    simpa [other] using within

theorem atBlock {block : BlockId} (inner : Frames env { s with builder := { s.builder with cursor := some block } } needs step gives) :
    Frames env s needs (atBlock block step) gives := by
  refine ⟨?_,fun {a s'} run => ?_⟩
  · suffices same : (((Lower.atBlock block step).run env).run.run s).2.scopes =
        ((step.run env).run.run { s with builder := { s.builder with cursor := some block } }).2.scopes by rw [same]; exact inner.lead
    show (((tryCatch step _ >>= _ : Lower α).run env).run.run { s with builder := { s.builder with cursor := some block } }).2.scopes = _
    rw [run_bind,run_tryCatch]
    cases (step.run env).run.run { s with builder := { s.builder with cursor := some block } } with
    | mk result s₁ => cases result <;> rfl
  · obtain ⟨s₁,inside,-⟩ := runs_atBlock.mp run
    exact inner.within inside

end Frames

theorem Composed.frames {step : Lower α} {gives : α → List Finding} (composed : Composed needs step gives)
    (env : Environment) (s : State) : Frames env s needs step gives := by
  induction composed generalizing s with
  | pure old => exact ⟨.refl,fun run => (runs_pure.mp run).1 ▸ within_of_subset old⟩
  | bindKnown _ sure _ first second => exact (first s).bind fun a s' run => second a (sure run) s'
  | mono _ more fewer ih => exact (ih s).mono more fewer
  | throw => exact ⟨.refl,fun run => absurd run runs_throw⟩
  | lift => exact .apart .lift (by simp [noFacts])
  | ask _ _ each => exact ⟨(each env s).lead,fun run => (each env s).within run⟩
  | look _ _ each => exact ⟨(each s s).lead,fun run => (each s s).within run⟩
  | inspect _ _ each => exact ⟨(each s.builder s).lead,fun run => (each s.builder s).within run⟩
  | isTerminated | slot? | log | insertionBlock | switchTo => exact .apart (fun _ _ => rfl) (by simp [noFacts])
  | scopeState => exact .scopeState
  | bindVariable own =>
    refine .modifyScope fun _ => ⟨fun none => absurd own none,fun _ => ⟨rfl,rfl,rfl⟩,fun h => h,fun h => h,fun h => h⟩
  | recollect has put absent around recalls bound _ _ _ _ _ making old new =>
    refine .bind .scopeState fun state s₁ run => ?_
    obtain ⟨seen,rfl⟩ := runs_scopeState.mp run
    cases known : has state with
    | some k => exact old known s₁
    | none =>
      rw [absent known]
      refine .bind ((making s₁).widen (within_of_subset (nil_subset _))) fun k s₂ made => ?_
      -- What is remembered is made away from the scopes: the scope does not remember it yet when it is entered.
      have same : s₂.scopes = s₁.scopes := by
        have framed := (making s₁).lead
        rw [made] at framed
        exact framed.eq_of_nil
      refine .bind (.modifyScope fun {state'} there => ⟨fun _ => bound k state',
        fun none => absurd (mem_append_right _ (mem_append_right _ around)) none,recalls ?_⟩) fun _ s₃ _ => ?_
      · rw [same] at there
        rw [there,Option.getD_some] at seen
        exact seen ▸ known
      · exact (new k s₃).widen (within_of_subset ((sublist_append_right _ _).append_left _).subset)
  | withScope _ inner => exact .withScope (inner _ _)
  | atBlock _ _ inner => exact .atBlock (inner _)
  | build constructs =>
    refine .apart (fun _ _ => rfl) fun {a i} => ?_
    cases constructs <;> simp [noFacts]
  | callAt _ parts => exact (parts s).widen fun _ _ => by simp
  | procedureOf => exact .apart .procedureOf (by simp)
  | directTarget => exact .apart .directTarget relies_apart
  | supportTarget => exact .apart (fun _ _ => rfl) relies_apart
  | globalOf => exact .apart .globalOf (by simp)
  | literalOf => exact .apart .literalOf (by simp [Literal.relies])
  | placeArray | placeAggregate => exact .apart (fun _ _ => rfl) (by simp)

/-! ### Expressions -/

/-- Whether a scope comes to remember blocks: exceptions stop there, or exits run its finalizer. -/
def Scope.guards : Scope → Bool
  | ⟨_,.catching⟩ | ⟨_,.finalizing _⟩ => true
  | _ => false

namespace Chain
variable {chain : Chain} {i : Nat}

theorem guarding_exits (inside : .guarding i ∈ chain.exits) : ∃ scope ∈ chain, scope.id = i ∧ scope.guards = true := by
  obtain ⟨scope,there,own⟩ := mem_flatMap.mp inside
  refine ⟨scope,there,?_⟩
  obtain ⟨id,kind⟩ := scope
  cases kind <;> simp [Scope.exits,Scope.guards] at own ⊢
  all_goals exact own.symm

theorem opened_exits : .opened i ∉ chain.exits := by
  intro inside
  obtain ⟨⟨id,kind⟩,-,own⟩ := mem_flatMap.mp inside
  cases kind <;> simp [Scope.exits] at own

end Chain

/-- However the lowering of an expression ends, there are as many scopes as before, with the same variables. Only scopes around it
    that catch exceptions or have a finalizer are changed: they come to remember blocks, and keep what they remember.

    Which scope is the innermost one is not part of the state. It is the head of the chain, an argument, so a failure or an early
    return cannot leave another one in place, and nothing is said about it here. -/
theorem lowerExpr_keeps_scopes (env : Environment) (s : State) (chain : Chain) (e : Expr) :
    let behind := (((lowerExpr chain e).run env).run.run s).2
    behind.scopes.size = s.scopes.size ∧ ∀ {i before}, s.scopes[i]? = some before → ∃ after, behind.scopes[i]? = some after ∧
      after.slots = before.slots ∧ before.Recalls after ∧ (after ≠ before → ∃ scope ∈ chain, scope.id = i ∧ scope.guards = true) := by
  have composed : Composed chain.exits (lowerExpr chain e) noFacts := composes_lowerExpr (Subset.refl _)
  have framed := (composed.frames env s).lead
  refine ⟨framed.size,fun {i before} there => ?_⟩
  obtain ⟨after,there',step⟩ := framed.each there
  have slots := step.slots Chain.opened_exits
  refine ⟨after,there',slots,step.recalls,fun changed => Chain.guarding_exits (Decidable.byContradiction fun apart => ?_)⟩
  obtain ⟨pad,handler,cleanups⟩ := step.still apart
  exact changed (ScopeState.ext slots pad handler cleanups)

end BlockLowering
