import BlockLowering.Proofs.Lockstep
import BlockLowering.Proofs.Rounds
/-!
Programs in lockstep. Two runs over the same units that are compared enter the same functions in the same order
and leave them together, so that they fail for reasons that count as the same or give modules that show the
same. A function that is entered a second time is closed at its entry, and then nothing is lowered in either run.
-/
namespace BlockLowering
open Lower List Procedure Builder Table
variable {p : Procedure}

def Module.mapProcedures (m : Module) (f : Procedure → Procedure) : Module := { m with procedures := m.procedures.mapValues f }

theorem Procedure.Closed.isTerminated {c : BlockId} (closed : p.Closed c) {b : Builder} (here : b.procedure? = some p)
    (cursor : b.cursor = some c) : b.isTerminated = true := by
  obtain ⟨k,found,stopped⟩ := closed
  simp [Builder.isTerminated,cursor,Builder.blockIsTerminated,Builder.block?,here,found,stopped]

theorem Settings.closed_finished (settings : Settings) (closed : p.Closed p.graph.entry) :
    (settings.finished p).Closed (settings.finished p).graph.entry := by
  unfold finished
  split
  · obtain ⟨k,found,stopped⟩ := closed
    exact ⟨p.graph.trimmed k,Graph.prune_of_exists .entry found,stopped⟩
  · exact closed

/-! ### Behind the end of a path -/

/-- A part of a run that changes scopes and the log at most. -/
structure State.Idles (s s' : State) : Prop where
  builder : s'.builder = s.builder
  symbols : s'.symbols = s.symbols
  strings : s'.strings = s.strings

section
variable {env : Environment} {s : State}

private theorem take_modify_self {α : Type} (xs : Array α) (n : Nat) (f : α → α) : (xs.modify n f).take n = xs.take n := by
  refine Array.ext_getElem? fun i => ?_
  simp only [Array.take_eq_extract,Array.getElem?_extract,Array.getElem?_modify,Array.size_modify]
  split
  · rw [if_neg (by omega)]
  · rfl

theorem Lower.runs_lowerExpr_ended (ended : s.builder.isTerminated = true) (chain : Chain) (e : Expr) :
    Runs (lowerExpr chain e) env s (.unreachable e.ty) s := by
  obtain ⟨node,ty,location⟩ := e
  refine runs_bind.mpr ⟨true,s,runs_isTerminated.mpr ⟨ended.symm,rfl⟩,?_⟩
  exact runs_pure.mpr ⟨rfl,rfl⟩

theorem Lower.runs_bindParameters (env : Environment) (n : Nat) (function : Option FunctionId) (returnsVoid : Bool) (receiver : Option Value)
    (bindings : List (ParameterDecl × Register)) (s : State) : ∃ s',
    Runs (bindParameters [⟨n,.function function returnsVoid receiver⟩] bindings) env s () s' ∧ s.Idles s' ∧
      s'.scopes.take n = s.scopes.take n := by
  induction bindings generalizing s with
  | nil => exact ⟨s,runs_pure.mpr ⟨rfl,rfl⟩,⟨rfl,rfl,rfl⟩,rfl⟩
  | cons binding rest ih =>
    obtain ⟨s',run,idles,around⟩ := ih { s with
      log := .declaredVariable binding.1.id n :: s.log
      scopes := s.scopes.modify n fun scope =>
        { scope with slots := scope.slots.insert binding.1.id (.value (.ofRegister binding.2 binding.1.ty)) } }
    refine ⟨s',runs_bind.mpr ⟨(),_,?_,run⟩,⟨idles.builder,idles.symbols,idles.strings⟩,?_⟩
    · exact runs_bind.mpr ⟨(),_,runs_log.mpr rfl,runs_modifyScope.mpr rfl⟩
    · simpa only [take_modify_self] using around

theorem Lower.runs_body_ended (env : Environment) (ended : s.builder.isTerminated = true) (function : Option FunctionId) (returnsVoid : Bool)
    (receiver : Option Value) (bindings : List (ParameterDecl × Register)) (e : Expr) : ∃ s',
    Runs (withScope (.function function returnsVoid receiver) [] fun chain => do
      bindParameters chain bindings
      let _ ← lowerExpr chain e
      closeFunction returnsVoid) env s () s' ∧ s.Idles s' ∧ s'.scopes = s.scopes := by
  obtain ⟨s₁,bound,idles,around⟩ := runs_bindParameters env s.scopes.size function returnsVoid receiver bindings
    { s with scopes := s.scopes.push .empty }
  have ended₁ : s₁.builder.isTerminated = true := by rw [idles.builder]; exact ended
  have closed : Runs (closeFunction returnsVoid) env s₁ () s₁ := by
    refine runs_bind.mpr ⟨true,s₁,runs_isTerminated.mpr ⟨ended₁.symm,rfl⟩,?_⟩
    exact runs_pure.mpr ⟨rfl,rfl⟩
  refine ⟨_,runs_withScope.mpr ⟨s₁,?_,rfl⟩,⟨idles.builder,idles.symbols,idles.strings⟩,?_⟩
  · exact runs_bind.mpr ⟨(),s₁,bound,runs_bind.mpr ⟨_,s₁,runs_lowerExpr_ended ended₁ _ e,closed⟩⟩
  · exact around.trans (by simp)

end

namespace Lower
variable {env : Environment} {s : State} {id : ProcId} {p : Procedure}

theorem run_begin_undeclared {location : Location} (undeclared : s.builder.output.procedures.get? id = none) : ((build do
      Build.beginProcedure id
      Build.modifyProcedure fun p => { p with location }).run env).run.run s = (.error (.internal (.procedureUndeclared id)), s) := by
  have fails : (Build.beginProcedure id).run.run s.builder = (.error (.internal (.procedureUndeclared id)), s.builder) := by
    unfold Build.beginProcedure
    rw [Build.run_get_bind,undeclared]
    rfl
  show ((Build.beginProcedure id >>= _).run.run s.builder |>.1, { s with builder := ((Build.beginProcedure id >>= _).run.run s.builder).2 }) = _
  rw [Build.run_bind,fails]

end Lower

theorem Procedure.entry_seen (blind : Bool) (p : Procedure) : (p.seen blind).graph.entry = p.graph.entry := by
  cases blind <;> rfl

theorem Procedure.header_seen (blind : Bool) (p : Procedure) : (p.seen blind).header = p.header := by
  cases blind <;> rfl

theorem Procedure.seen_relocated {blind : Bool} {q : Procedure} (same : p.seen blind = q.seen blind) (location : Location) :
    { p with location }.seen blind = { q with location }.seen blind := by
  have moved : ∀ r : Procedure, { r with location }.seen blind = { r.seen blind with location } := by
    intro r
    cases blind <;> rfl
  rw [moved,moved,same]

/-! ### Leaving a function -/

namespace Comparison
variable {c : Comparison} {proc : ProcId} {s s' : State} {p q : Procedure} {α : Type}
variable {m m' : Module} {unit : SourceUnit}

/-- The two runs are about to leave a function, which is closed at the entry. -/
structure Leaving (c : Comparison) (proc : ProcId) (s s' : State) : Prop extends c.Beside (some proc) s s' where
  own : ∃ p q, s.builder.output.procedures.get? proc = some p ∧ s'.builder.output.procedures.get? proc = some q ∧
    (p.seen c.blind = q.seen c.blind ∨ c.left p = c.right q) ∧ p.Closed p.graph.entry

theorem Matches.finished (alike : c.Matches (some proc) m m') (found : m.procedures.get? proc = some p)
    (found' : m'.procedures.get? proc = some q) (same : p.seen c.blind = q.seen c.blind ∨ c.left p = c.right q)
    (closed : p.Closed p.graph.entry) :
    c.Matches none (m.modifyProcedure proc c.first.settings.finished) (m'.modifyProcedure proc c.second.settings.finished) where
  rest := congrArg (fun m : Module => m.modifyProcedure proc c.second.settings.finished) alike.rest
  keys := by simpa only [Module.modifyProcedure,keys_modify] using alike.keys
  shown id _ := by
    simp only [Module.modifyProcedure,get?_modify]
    by_cases here : id = proc
    · rw [if_pos here,if_pos here,here,found,found']
      exact congrArg some (c.finishes p q same)
    · rw [if_neg here,if_neg here]
      exact alike.shown id fun same => here (Option.some.inj same)
  ready {id r} _ there := by
    simp only [Module.modifyProcedure,get?_modify] at there
    by_cases here : id = proc
    · rw [if_pos here,here,found] at there
      cases there
      exact .inr (c.first.settings.closed_finished closed)
    · rw [if_neg here] at there
      exact alike.ready (fun same => here (Option.some.inj same)) there

theorem relates_finishFunction : c.Relates (c.Leaving proc) (finishFunction proc) fun _ => c.Level none := by
  refine ⟨fun {s s'} leaving => ?_⟩
  obtain ⟨p,q,found,found',same,closed⟩ := leaving.own
  obtain ⟨log,run⟩ := run_finishFunction c.first found
  obtain ⟨log',run'⟩ := run_finishFunction c.second found'
  rw [run,run']
  rcases c.judges p q same with ⟨passed,passed'⟩ | ⟨e,e',failed,failed',alike⟩ | ⟨e,failed,excused⟩
  · rw [passed,passed']
    exact .level ⟨⟨leaving.scopes,leaving.symbols,leaving.strings,leaving.labels,leaving.output.finished found found' same closed⟩,
      rfl,rfl,rfl,rfl⟩
  · rw [failed,failed']
    exact .failed alike
  · rw [failed]
    exact .excused excused

theorem Level.leaving (level : c.Level (some proc) s s') (here : s.builder.procedure? = some p) (closed : p.Closed p.graph.entry) :
    c.Leaving proc s s' := by
  have seen := level.procedure
  rw [here,Option.map_some] at seen
  obtain ⟨q,here',same⟩ := Option.map_eq_some_iff.mp seen.symm
  refine ⟨level.toBeside,p,q,?_,?_,.inl same.symm,closed⟩
  · rw [procedure?,level.current,Option.bind_some] at here
    exact here
  · rw [procedure?,level.current',Option.bind_some] at here'
    exact here'

/-! ### Entering a function -/

/-- The two runs have moved to the entry of a function that was left before. -/
structure Again (c : Comparison) (proc : ProcId) (s s' : State) : Prop extends c.Beside (some proc) s s' where
  current : s.builder.current = some proc
  current' : s'.builder.current = some proc
  stopped : ∃ p q, s.builder.procedure? = some p ∧ s'.builder.procedure? = some q ∧ c.left p = c.right q ∧ p.Closed p.graph.entry ∧
    s.builder.cursor = some p.graph.entry ∧ s'.builder.cursor = some q.graph.entry

theorem Level.focused (level : c.Level none s s') (found : s.builder.output.procedures.get? proc = some p)
    (found' : s'.builder.output.procedures.get? proc = some q) (same : p.seen c.blind = q.seen c.blind) (cursor : Option BlockId) :
    c.Level (some proc) { s with builder := { s.builder with current := some proc, cursor } }
      { s' with builder := { s'.builder with current := some proc, cursor } } where
  scopes := level.scopes
  symbols := level.symbols
  strings := level.strings
  labels := level.labels
  output := {
    rest := level.output.rest
    keys := level.output.keys
    shown := fun id _ => level.output.shown id (by simp)
    ready := fun _ there => level.output.ready (by simp) there }
  current := rfl
  current' := rfl
  cursor := rfl
  procedure := by
    show (s.builder.output.procedures.get? proc).map _ = (s'.builder.output.procedures.get? proc).map _
    rw [found,found',Option.map_some,Option.map_some,same]

theorem Matches.added (alike : c.Matches none m m') (blank : p.graph = .new) :
    c.Matches none (m.takeProcedureId.2.addProcedure p) (m'.takeProcedureId.2.addProcedure p) where
  rest := congrArg (fun m : Module => m.takeProcedureId.2.addProcedure p) alike.rest
  keys := keys_insert alike.keys p.id p p
  shown id _ := by
    show ((m.procedures.insert p.id p).get? id).map c.left = ((m'.procedures.insert p.id p).get? id).map c.right
    rw [get?_insert,get?_insert]
    by_cases here : id = p.id
    · rw [if_pos here,if_pos here,Option.map_some,Option.map_some,c.fresh p blank]
    · rw [if_neg here,if_neg here]
      exact alike.shown id (by simp)
  ready {id q} _ there := by
    exact of_insert there (.inl blank) fun before => alike.ready (by simp) before

theorem relates_declareProcedure {name : String} {header : Header} :
    c.Relates (c.Level none) (build (Build.declareProcedure name header)) fun id s s' => c.Level none s s' ∧
      s.builder.output.procedures.get? id = some (.new id name header) ∧ s'.builder.output.procedures.get? id = some (.new id name header) := by
  refine ⟨fun {s s'} level => ?_⟩
  have next : s'.builder.output.nextProcedure = s.builder.output.nextProcedure := by rw [level.output.rest]
  rw [runs_declareProcedure.mpr ⟨rfl,rfl⟩,runs_declareProcedure.mpr ⟨congrArg ProcId.mk next.symm,rfl⟩]
  refine .level ⟨⟨⟨level.scopes,level.symbols,level.strings,level.labels,level.output.added rfl⟩,level.current,level.current',
    level.cursor,?_⟩,?_,?_⟩
  · show (s.builder.current.bind _).map _ = (s'.builder.current.bind _).map _
    rw [level.current,level.current']
    rfl
  · exact get?_insert_self
  · exact get?_insert_self

/-- Code that keeps the runs at the same point and comes to an end has closed the entry. -/
theorem Lockstep.leaving {step : Lower α} (pre : State → State → Prop) (lockstep : c.Lockstep (some proc) step)
    (level : ∀ {s s'}, pre s s' → c.Level (some proc) s s')
    (ends : ∀ {s s' a t}, pre s s' → Runs step c.first s a t → ∃ p, t.builder.procedure? = some p ∧ p.Closed p.graph.entry) :
    c.Relates pre step fun _ => c.Leaving proc := by
  refine ((lockstep.mono level fun after => after).also ends).mono (fun before => before) fun after => ?_
  obtain ⟨level,p,here,closed⟩ := after
  exact level.leaving here closed

theorem relates_startProcedure {name : String} {header : Header} :
    c.Relates (c.Level none) (build (Build.startProcedure name header)) fun id => c.Level (some id) := by
  unfold Build.startProcedure
  rw [build_bind]
  refine .bind relates_declareProcedure fun id => ⟨fun {s s'} declared => ?_⟩
  obtain ⟨level,found,found'⟩ := declared
  exact .level (level.focused found found' rfl (some .first))

/-- The two runs move to the entry of a function, whose location is noted. It is blank, or it was left before. -/
theorem relates_begin {location : Location} : c.Relates (c.Level none) (build do
      Build.beginProcedure proc
      Build.modifyProcedure fun p => { p with location }) fun _ s s' => c.Level (some proc) s s' ∨ c.Again proc s s' := by
  refine ⟨fun {s s'} level => ?_⟩
  have shown := level.output.shown proc (by simp)
  cases found : s.builder.output.procedures.get? proc with
  | none =>
    rw [found,Option.map_none] at shown
    rw [run_begin_undeclared found,run_begin_undeclared (Option.map_eq_none_iff.mp shown.symm)]
    exact .failed (c.refl _)
  | some p =>
    rw [found,Option.map_some] at shown
    obtain ⟨q,found',same⟩ := Option.map_eq_some_iff.mp shown.symm
    have placed : ∀ {b : Builder} {p cursor}, b.output.procedures.get? proc = some p →
        ({ b with current := some proc, cursor } : Builder).modifyProcedure (fun p => { p with location }) =
          ({ b with current := some proc, cursor } : Builder).put { p with location } :=
      fun found => modifyProcedure_eq found
    rw [runs_begin c.first location found,runs_begin c.second location found',placed found,placed found']
    rcases level.output.ready (by simp) found with blank | closed
    · have seen := c.starts p q same.symm blank
      have entry : q.graph.entry = p.graph.entry := by rw [← entry_seen c.blind,← seen,entry_seen]
      have level₁ := level.focused found found' seen (some p.graph.entry)
      have level₂ := level₁.put found found' (seen_relocated seen location)
      rw [entry]
      exact .level (.inl level₂)
    · refine .level (.inr ⟨⟨level.scopes,level.symbols,level.strings,level.labels,level.output.changed _ _ (by simp)⟩,rfl,rfl,
        { p with location },{ q with location },procedure?_put found,procedure?_put found',?_,closed,rfl,rfl⟩)
      rw [c.shownLeft.relocated,c.shownRight.relocated,same]

/-! ### Functions -/

theorem Relates.either {pre pre' : State → State → Prop} {step : Lower α} {post : α → State → State → Prop}
    (one : c.Relates pre step post) (other : c.Relates pre' step post) : c.Relates (fun s s' => pre s s' ∨ pre' s s') step post :=
  ⟨fun before => before.elim one.lead other.lead⟩

theorem relates_parameterRegisters {pre : State → State → Prop} {function : FunctionDecl}
    (headers : ∀ {s s'}, pre s s' → s.builder.procedure?.map header = s'.builder.procedure?.map header) :
    c.Relates pre (parameterRegisters function) fun _ => pre := by
  refine .look (fun {s s'} before => ?_) fun s => ?_
  · have parameters : ∀ b : Builder, (b.procedure?.map fun p => p.header.parameters) = (b.procedure?.map header).map Header.parameters := by
      intro b
      rw [Option.map_map]
      rfl
    rw [parameters,parameters,headers before]
  · dsimp only
    split
    · exact .throw
    · exact .pure fun before => before

theorem Level.headers {focus : Option ProcId} (level : c.Level focus s s') :
    s.builder.procedure?.map header = s'.builder.procedure?.map header := by
  have seen : ∀ b : Builder, b.procedure?.map header = (b.procedure?.map (seen c.blind)).map header := by
    intro b
    rw [Option.map_map]
    exact Option.map_congr fun p _ => (p.header_seen c.blind).symm
  rw [seen,seen,level.procedure]

namespace Again

theorem headers (again : c.Again proc s s') : s.builder.procedure?.map header = s'.builder.procedure?.map header := by
  obtain ⟨p,q,here,here',same,-⟩ := again.stopped
  rw [here,here',Option.map_some,Option.map_some,← c.shownLeft.header,same,c.shownRight.header]

theorem rescoped (again : c.Again proc s s') (scopes : Array ScopeState) : c.Again proc { s with scopes } { s' with scopes } :=
  { again with scopes := rfl }

theorem ended (again : c.Again proc s s') : s.builder.isTerminated = true ∧ s'.builder.isTerminated = true := by
  obtain ⟨p,q,here,here',same,closed,cursor,cursor'⟩ := again.stopped
  have entry : p.graph.entry = q.graph.entry := by rw [← c.shownLeft.entry,same,c.shownRight.entry]
  have closed' : q.Closed q.graph.entry := by
    rw [← c.shownRight.closed,← same,← entry]
    exact (c.shownLeft.closed p).mpr closed
  exact ⟨closed.isTerminated here cursor,closed'.isTerminated here' cursor'⟩

end Again

theorem relates_again {function : Option FunctionId} {returnsVoid : Bool} {receiver : Option Value}
    {bindings : List (ParameterDecl × Register)} {e : Expr} : c.Relates (c.Again proc)
      (withScope (.function function returnsVoid receiver) [] fun chain => do
        bindParameters chain bindings
        let _ ← lowerExpr chain e
        closeFunction returnsVoid) fun _ => c.Leaving proc := by
  refine ⟨fun {s s'} again => ?_⟩
  obtain ⟨ended,ended'⟩ := again.ended
  obtain ⟨t,run,idles,scopes⟩ := runs_body_ended c.first ended function returnsVoid receiver bindings e
  obtain ⟨t',run',idles',scopes'⟩ := runs_body_ended c.second ended' function returnsVoid receiver bindings e
  obtain ⟨p,q,here,here',same,closed,-⟩ := again.stopped
  rw [run,run']
  refine .level ⟨⟨?_,?_,?_,?_,?_⟩,p,q,?_,?_,.inr same,closed⟩
  · rw [scopes,scopes',again.scopes]
  · rw [idles.symbols,idles'.symbols,again.symbols]
  · rw [idles.strings,idles'.strings,again.strings]
  · rw [idles.builder,idles'.builder]
    exact again.labels
  · rw [idles.builder,idles'.builder]
    exact again.output
  · rw [procedure?,again.current] at here
    rw [idles.builder]
    exact here
  · rw [procedure?,again.current'] at here'
    rw [idles'.builder]
    exact here'

/-- The first run is between functions, where every function of the output is sound. -/
structure Paused (c : Comparison) (s s' : State) : Prop extends c.Level none s s' where
  prepared : ∃ done, s.Prepared c.first done

theorem Relates.paused {step : Lower α} (relates : c.Relates c.Paused step fun _ => c.Level none)
    (keeps : ∀ {s a t done}, s.Prepared c.first done → Runs step c.first s a t → ∃ done, t.Prepared c.first done) :
    c.Relates c.Paused step fun _ => c.Paused :=
  (relates.also fun paused run => paused.prepared.elim fun _ prepared => keeps prepared run).mono (fun paused => paused)
    fun after => ⟨after.1,after.2⟩

theorem Lockstep.paused {step : Lower α} (lockstep : c.Lockstep none step)
    (keeps : ∀ {s a t done}, s.Prepared c.first done → Runs step c.first s a t → ∃ done, t.Prepared c.first done) :
    c.Relates c.Paused step fun _ => c.Paused :=
  (lockstep.mono (fun paused => paused.toLevel) fun level => level).paused keeps

theorem Lockstep.pausedQuiet {step : Lower α} (lockstep : c.Lockstep none step)
    (quiet : ∀ {s a t}, Runs step c.first s a t → s.Quiet c.first t) : c.Relates c.Paused step fun _ => c.Paused :=
  lockstep.paused fun prepared run => ⟨_,prepared.quiet (quiet run)⟩

theorem paused_log {event : Event} : c.Relates c.Paused (log event) fun _ => c.Paused :=
  Lockstep.log.pausedQuiet fun {s _ _} run => runs_log.mp run ▸ .logged c.first s _

/-- The first run has entered a sound function, and no scope is open but the outermost. -/
def Ready (c : Comparison) (proc : ProcId) (p : Procedure) (s : State) : Prop :=
  ∃ earlier supply, earlier.Named c.first ∧ p.Sound supply ∧ State.Entered c.first earlier proc p s

theorem relates_lowerFunction {body : FunctionBody} : c.Relates c.Paused (lowerFunction body) fun _ => c.Level none := by
  refine .ask (by rw [c.alike.decls]) (.bind .lift fun function => ?_)
  refine .bind (Lockstep.procedureOf.pausedQuiet fun run => run.procedureOf.1) fun proc => .bind paused_log fun _ => ?_
  refine .bind ((relates_begin.mono (fun paused => paused.toLevel) fun after => after).also
    (Q := fun _ s => ∃ p, c.Ready proc p { s with scopes := #[.empty] }) fun {s s' u t} paused run => ?_) fun _ => ?_
  · obtain ⟨done,prepared⟩ := paused.prepared
    obtain ⟨p,found,current,cursor,here,touches⟩ := run.begin
    obtain ⟨supply,sound⟩ := prepared.sound found
    exact ⟨_,s,supply,prepared.named,sound.relocated _,current,⟨here,cursor⟩,rfl,touches.trans (.of_same rfl rfl)⟩
  refine .bind (.modify fun after => after.imp_left (.imp (fun level => level.rescoped fun _ => #[.empty])
    fun again => again.rescoped #[.empty]) : c.Relates _ _ fun _ s s' => (c.Level (some proc) s s' ∨ c.Again proc s s') ∧
      ∃ p, c.Ready proc p s) fun _ => ?_
  refine .bind ((relates_parameterRegisters fun before => before.1.elim Level.headers Again.headers).also
    (Q := fun bindings s => ∃ p, c.Ready proc p s ∧ bindings = function.allParameters.zip p.inputs) fun {s s' u t} before run => ?_)
    fun bindings => ?_
  · obtain ⟨-,p,earlier,supply,named,sound,entered⟩ := before
    obtain ⟨rfl,same⟩ := run.parameterRegisters entered.stands.procedure
    exact ⟨p,⟨earlier,supply,named,sound,entered⟩,same⟩
  refine .bind (.mono (.either (Lockstep.leaving (fun s s' => c.Level (some proc) s s' ∧ ∃ p, c.Ready proc p s ∧
    bindings = function.allParameters.zip p.inputs) (Composed.body.lockstep c (some proc)) And.left fun {s s' u t} before run => ?_)
    relates_again) (fun before => ?_) fun after => after) fun _ => relates_finishFunction
  · obtain ⟨-,p,⟨earlier,supply,named,sound,entered⟩,rfl⟩ := before
    obtain ⟨waits,-,agree⟩ := agree_entered (fun _ => lowers_lowerExpr) entered named sound
      (.root trivial : Expr.Within (fun _ => True) body.body)
    exact (Safe.of_runs agree.2 run).entry_ended
  · exact before.1.1.imp (fun level => ⟨level,before.2⟩) fun again => again

theorem lockstep_declareFunction {id : FunctionId} : c.Lockstep none (declareFunction id) := by
  refine .ask (by rw [c.alike.decls]) (.bind .lift fun function => .bind relates_declareProcedure fun proc => ?_)
  exact Lockstep.modifySymbols.mono (fun declared => declared.1) fun level => level

theorem lockstep_declareStaticField {id : FieldId} : c.Lockstep none (declareStaticField id) := by
  refine .ask (by rw [c.alike.decls]) (.bind .lift fun field => ?_)
  dsimp only
  split
  · exact .bind Lockstep.literalOf fun initial => .bind (Lockstep.onModule (.defineGlobal _ _ _ _ _)) fun _ => Lockstep.modifySymbols
  · exact .bind Lockstep.done fun initial => .bind (Lockstep.onModule (.defineGlobal _ _ _ _ _)) fun _ => Lockstep.modifySymbols

theorem relates_forM {f : α → Lower PUnit} {xs : List α} (each : ∀ x, c.Relates c.Paused (f x) fun _ => c.Paused) :
    c.Relates c.Paused (xs.forM f) fun _ => c.Paused := by
  induction xs with
  | nil => exact .pure fun paused => paused
  | cons x rest ih => exact .bind (each x) fun _ => ih

theorem relates_declareUnit : c.Relates c.Paused (declareUnit unit) fun _ => c.Paused :=
  .bind (relates_forM fun _ => lockstep_declareFunction.paused fun prepared run => ⟨_,prepared.declared run⟩) fun _ =>
    relates_forM fun _ => lockstep_declareStaticField.pausedQuiet fun run => run.declareStaticField

theorem lockstep_pendingInitializers {fields : List FieldId} : c.Lockstep none (pendingInitializers fields) := by
  induction fields with
  | nil => exact Lockstep.done
  | cons id rest ih =>
    refine .ask (by rw [c.alike.decls]) (.bind .lift fun field => .bind ih fun pending => ?_)
    split
    · exact Lockstep.done
    · exact Lockstep.done

/-- A new function is entered. -/
theorem relates_start {name : String} {header : Header} : c.Relates c.Paused (build (Build.startProcedure name header)) fun id s s' =>
    c.Level (some id) s s' ∧ c.Ready id (.new id name header) { s with scopes := #[.empty] } := by
  refine (relates_startProcedure.mono (fun paused => paused.toLevel) fun level => level).also fun {s s' id t} paused run => ?_
  obtain ⟨done,prepared⟩ := paused.prepared
  exact ⟨s,_,prepared.named,sound_new _ _ _,(run.startProcedure prepared.named).2⟩

theorem relates_lowerInitializerFunction {pending : List (FieldId × Expr)} :
    c.Relates c.Paused (lowerInitializerFunction unit pending) fun _ => c.Level none := by
  refine .bind relates_start fun proc => .bind (.modify fun after => after.imp_left fun level => level.rescoped fun _ => #[.empty] :
    c.Relates _ _ fun _ s s' => c.Level (some proc) s s' ∧ c.Ready proc _ s) fun _ => ?_
  refine .bind ((Composed.initializers.lockstep c (some proc)).leaving _ And.left fun {s s' u t} before run => ?_) fun _ => .bind relates_finishFunction fun _ => Lockstep.done
  obtain ⟨-,earlier,supply,named,-,entered⟩ := before
  rw [← funext fun _ => lowerInitializersWith_lowerExpr] at run
  exact (Safe.of_runs (agree_lowerInitializersWith (fun _ => lowers_lowerExpr) (.start_new (fun _ => True) entered named)
    fun _ _ => .root trivial).2 run).entry_ended

theorem relates_lowerInitializerLink {initializer : ProcId} :
    c.Relates c.Paused (lowerInitializerLink unit initializer) fun _ => c.Level none := by
  have parts : lowerInitializerLink unit initializer = (do
      let node ← onModule fun m => m.defineGlobal s!"{unit.name}$init_node" initializerNode
        (some (.aggregate [.proc initializer,.null])) true .internal
      let proc ← build (Build.startProcedure s!"{unit.name}$init_ctor" initializerHeader)
      linkNode node
      finishFunction proc
      return proc) := by
    simp only [lowerInitializerLink,linkNode,bind_assoc]
  rw [parts]
  refine .bind ((Lockstep.onModule (.defineGlobal _ _ _ _ _)).pausedQuiet fun {s _ _} run => ?_) fun node => .bind relates_start fun proc => ?_
  · obtain ⟨-,rfl⟩ := runs_onModule.mp run
    exact (State.Quiet.defined s _ _ _ _ _)
  refine .bind ((Composed.linkNode.lockstep c (some proc)).leaving _ And.left fun {s s' u t} before run => ?_) fun _ => .bind relates_finishFunction fun _ => Lockstep.done
  obtain ⟨-,earlier,supply,named,-,entered⟩ := before
  exact (Safe.of_runs (safe_linkNode (.start_new (fun _ => True) entered named)) (run.linkNode_rescope _).1).entry_ended

/-! ### Programs -/

theorem relates_lowerUnitInitializers : c.Relates c.Paused (lowerUnitInitializers unit) fun _ => c.Paused := by
  refine .bind (lockstep_pendingInitializers.pausedQuiet fun {s _ _} run => run.pendingInitializers.1 ▸ .refl _ _) fun pending => ?_
  split
  · exact .pure fun paused => paused
  · refine .bind paused_log fun _ => .bind (relates_lowerInitializerFunction.paused fun prepared run => ⟨_,prepared.initializers run⟩)
      fun initializer => .bind (relates_lowerInitializerLink.paused fun prepared run => ⟨_,prepared.link run⟩) fun constructor => ?_
    refine .bind ((Lockstep.onModule (.addConstructor _)).pausedQuiet fun {s _ _} run => ?_) fun _ => paused_log
    obtain ⟨-,rfl⟩ := runs_onModule.mp run
    exact .placed s rfl rfl rfl rfl rfl

theorem relates_lowerUnit : c.Relates c.Paused (lowerUnit unit) fun _ => c.Paused :=
  .bind paused_log fun _ => .bind (relates_forM fun _ => relates_lowerFunction.paused fun prepared run => ⟨_,prepared.body run⟩)
    fun _ => relates_lowerUnitInitializers

/-- How the results of two runs compare: the modules show the same, the errors count as the same, or the first run is
    excused. -/
inductive Agrees (c : Comparison) : Except Error Module → Except Error Module → Prop
  | shown {m m' : Module} (same : m.mapProcedures c.left = m'.mapProcedures c.right) : Agrees c (.ok m) (.ok m')
  | failed {e e' : Error} (same : c.same e e') : Agrees c (.error e) (.error e')
  | excused {e : Error} {result : Except Error Module} (excused : c.excused e) : Agrees c (.error e) result

theorem Matches.mapProcedures (alike : c.Matches none m m') : m.mapProcedures c.left = m'.mapProcedures c.right := by
  have procedures : m.procedures.mapValues c.left = m'.procedures.mapValues c.right := by
    refine ext_keys ?_ fun id => ?_
    · rw [keys_mapValues,keys_mapValues,alike.keys]
    · rw [get?_mapValues,get?_mapValues]
      exact alike.shown id (by simp)
  unfold Module.mapProcedures
  rw [procedures,alike.rest]

theorem level_start (c : Comparison) (strings : StringPool) :
    c.Level none (State.start c.first.settings strings) (State.start c.second.settings strings) where
  scopes := rfl
  symbols := rfl
  strings := rfl
  labels := c.labels
  output := {
    rest := congrArg Module.new c.named.symm
    keys := rfl
    shown := fun _ _ => rfl
    ready := fun _ found => by cases found }
  current := rfl
  current' := rfl
  cursor := rfl
  procedure := rfl

theorem agrees (c : Comparison) (strings : StringPool) (units : List SourceUnit) :
    c.Agrees (lowerProgram c.first strings units).result (lowerProgram c.second strings units).result := by
  obtain ⟨rounds,parts,relates⟩ : ∃ rounds : Lower Unit, lowerUnits units = (rounds >>= fun _ => do
      let m := (← get).builder.output
      log (.loweredModule m.name m.procedures.size m.externs.size m.globals.size m.constructors.length)
      return m) ∧ c.Relates c.Paused rounds fun _ => c.Paused := by
    refine ⟨do
      log (.declaringUnits units.length)
      units.forM declareUnit
      units.forM lowerUnit,by simp only [lowerUnits,bind_assoc],.bind paused_log fun _ => ?_⟩
    exact .bind (relates_forM fun _ => relates_declareUnit) fun _ => relates_forM fun _ => relates_lowerUnit
  have ends := relates.lead ⟨c.level_start strings,_,.start c.first strings⟩
  show c.Agrees (((lowerUnits units).run c.first).run.run _).1 (((lowerUnits units).run c.second).run.run _).1
  rw [parts,run_bind,run_bind]
  revert ends
  generalize (rounds.run c.first).run.run _ = out
  generalize (rounds.run c.second).run.run _ = out'
  intro ends
  cases ends with
  | level after => exact .shown after.output.mapProcedures
  | failed same => exact .failed same
  | excused excused => exact .excused excused

end Comparison

end BlockLowering
