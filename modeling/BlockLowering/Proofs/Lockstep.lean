import BlockLowering.Proofs.CompositionWalk
import BlockLowering.Proofs.Procedures
/-!
Two runs in lockstep. Runs under different settings are compared: they stand at the same point of functions
that look the same, have entered the same symbols, and the functions that they have finished show the same.
The lowering of code keeps this up, step by step, and comes to the same result in both.
-/
namespace BlockLowering
open Lower Option Builder Procedure Table
variable {α : Type} {id : FunctionId} {p q : Procedure} {needs : List Finding}

/-! ### Comparisons -/

/-- A function under construction, without labels if the comparison is blind. -/
def Procedure.seen (blind : Bool) (p : Procedure) : Procedure := if blind then p.unlabelled else p

/-- A view of functions that shows their header, their entry and whether that is closed. -/
structure Procedure.Shown (view : Procedure → Procedure) : Prop where
  header : ∀ p, (view p).header = p.header
  entry : ∀ p, (view p).graph.entry = p.graph.entry
  closed : ∀ p : Procedure, (view p).Closed p.graph.entry ↔ p.Closed p.graph.entry
  relocated : ∀ p location, view { p with location } = { view p with location }

/-- Two runs to be compared: what a finished function shows in either, which errors count as the same, and for
    which the first run may stop alone. -/
structure Comparison where
  first : Environment
  second : Environment
  blind : Bool
  left : Procedure → Procedure
  right : Procedure → Procedure
  same : Error → Error → Prop
  excused : Error → Prop
  alike : first.Alike second
  named : first.settings.moduleName = second.settings.moduleName
  labels : blind = false → first.settings.emitLabels = second.settings.emitLabels
  refl : ∀ e, same e e
  shownLeft : Procedure.Shown left
  shownRight : Procedure.Shown right
  fresh : ∀ p : Procedure, p.graph = .new → left p = right p
  starts : ∀ p q : Procedure, left p = right q → p.graph = .new → p.seen blind = q.seen blind
  finishes : ∀ p q : Procedure, p.seen blind = q.seen blind ∨ left p = right q →
    left (first.settings.finished p) = right (second.settings.finished q)
  judges : ∀ p q : Procedure, p.seen blind = q.seen blind ∨ left p = right q →
    first.settings.verdict p = .ok () ∧ second.settings.verdict q = .ok () ∨
    (∃ e e', first.settings.verdict p = .error e ∧ second.settings.verdict q = .error e' ∧ same e e') ∨
    ∃ e, first.settings.verdict p = .error e ∧ excused e

/-- A change of a module that neither looks at its functions nor changes them. -/
def Module.Aside (f : Module → α × Module) : Prop :=
  ∀ (m : Module) procedures, f { m with procedures } = ((f m).1, { (f m).2 with procedures })

namespace Module.Aside

theorem defineGlobal (name : String) (type : NativeType) (initializer : Option Literal) (isMutable : Bool) (linkage : Linkage) :
    Module.Aside fun m => m.defineGlobal name type initializer isMutable linkage := fun _ _ => rfl

theorem addDatum (name : Nat → String) (type : NativeType) (contents : StaticContents) :
    Module.Aside fun m => m.addDatum (name m.nextDatum) type contents := fun _ _ => rfl

theorem addConstructor (id : ProcId) : Module.Aside fun m => ((), m.addConstructor id) := fun _ _ => rfl

theorem declareExtern (name : String) (header : Header) (canThrow : Bool) : Module.Aside fun m => m.declareExtern name header canThrow := by
  intro m procedures
  have same : ({ m with procedures } : Module).findExtern? name = m.findExtern? name := rfl
  dsimp only [Module.declareExtern]
  rw [same]
  cases m.findExtern? name with
  | none => rfl
  | some id => rfl

theorem intern (pool : StringPool) (value : String) :
    Module.Aside fun m => (((pool.intern m value).1, (pool.intern m value).2.1), (pool.intern m value).2.2) := by
  intro m procedures
  dsimp only [StringPool.intern]
  cases pool.places.get? value with
  | none => rfl
  | some id => rfl

end Module.Aside

namespace Comparison
variable {c : Comparison} {focus : Option ProcId} {α β : Type}

/-- The modules of the two runs: equal but for the functions. All but the one under construction show the same, and
    are blank or closed at the entry. -/
structure Matches (c : Comparison) (focus : Option ProcId) (m m' : Module) : Prop where
  rest : m' = { m with procedures := m'.procedures }
  keys : m.procedures.keys = m'.procedures.keys
  shown : ∀ id, some id ≠ focus → (m.procedures.get? id).map c.left = (m'.procedures.get? id).map c.right
  ready : ∀ {id p}, some id ≠ focus → m.procedures.get? id = some p → p.graph = .new ∨ p.Closed p.graph.entry

theorem Matches.changed {m m' : Module} {id : ProcId} (alike : c.Matches focus m m') (f g : Procedure → Procedure)
    (only : ∀ x, some x = focus → x = id) : c.Matches (some id) (m.modifyProcedure id f) (m'.modifyProcedure id g) where
  rest := congrArg (fun m : Module => m.modifyProcedure id g) alike.rest
  keys := by simpa only [Module.modifyProcedure,keys_modify] using alike.keys
  shown x other := by
    have apart : x ≠ id := fun same => other (congrArg some same)
    simp only [Module.modifyProcedure,get?_modify,if_neg apart]
    exact alike.shown x fun here => apart (only x here)
  ready {x p} other found := by
    have apart : x ≠ id := fun same => other (congrArg some same)
    simp only [Module.modifyProcedure,get?_modify,if_neg apart] at found
    exact alike.ready (fun here => apart (only x here)) found

/-- The two runs have come to the same, but for the function under construction. -/
structure Beside (c : Comparison) (focus : Option ProcId) (s s' : State) : Prop where
  scopes : s.scopes = s'.scopes
  symbols : s.symbols = s'.symbols
  strings : s.strings = s'.strings
  labels : c.blind = false → s.builder.emitLabels = s'.builder.emitLabels
  output : c.Matches focus s.builder.output s'.builder.output

/-- The two runs are at the same point. -/
structure Level (c : Comparison) (focus : Option ProcId) (s s' : State) : Prop extends c.Beside focus s s' where
  current : s.builder.current = focus
  current' : s'.builder.current = focus
  cursor : s.builder.cursor = s'.builder.cursor
  procedure : s.builder.procedure?.map (seen c.blind) = s'.builder.procedure?.map (seen c.blind)

/-- How a step may end in the two runs: with the same result, with errors that count as the same, or with an error
    for which the first run is excused. -/
inductive Ends (c : Comparison) (post : α → State → State → Prop) : Except Error α × State → Except Error α × State → Prop
  | level {a : α} {s s' : State} (after : post a s s') : Ends c post (.ok a, s) (.ok a, s')
  | failed {e e' : Error} {s s' : State} (same : c.same e e') : Ends c post (.error e, s) (.error e', s')
  | excused {e : Error} {s : State} {out : Except Error α × State} (excused : c.excused e) : Ends c post (.error e, s) out

/-- A step takes the two runs from states that are related to states that are. -/
structure Relates (c : Comparison) (pre : State → State → Prop) (step : Lower α) (post : α → State → State → Prop) : Prop where
  lead : ∀ {s s'}, pre s s' → c.Ends post ((step.run c.first).run.run s) ((step.run c.second).run.run s')

/-- The lowering of code keeps the runs at the same point. -/
abbrev Lockstep (c : Comparison) (focus : Option ProcId) (step : Lower α) : Prop :=
  c.Relates (c.Level focus) step fun _ => c.Level focus

namespace Relates
variable {pre : State → State → Prop} {post : α → State → State → Prop} {post' : β → State → State → Prop} {step : Lower α}

theorem pure {a : α} (after : ∀ {s s'}, pre s s' → post a s s') : c.Relates pre (pure a) post :=
  ⟨fun before => .level (after before)⟩

theorem throw {e : Error} : c.Relates pre (throwThe Error e : Lower α) post := ⟨fun _ => .failed (c.refl e)⟩

theorem lift {x : Except Error α} : c.Relates pre (liftM x : Lower α) fun _ => pre := by
  cases x with
  | ok a => exact ⟨fun before => .level before⟩
  | error e => exact ⟨fun _ => .failed (c.refl e)⟩

theorem bindKnown {f : α → Lower β} (first : c.Relates pre step post)
    (second : ∀ a s s', Runs step c.first s a s' → c.Relates (post a) (f a) post') : c.Relates pre (step >>= f) post' := by
  refine ⟨fun {s s'} before => ?_⟩
  rw [run_bind,run_bind]
  have ends := first.lead before
  cases run : (step.run c.first).run.run s with
  | mk result t =>
    cases run' : (step.run c.second).run.run s' with
    | mk result' t' =>
      rw [run,run'] at ends
      cases ends with
      | level after => exact (second _ s t run).lead after
      | failed same => exact .failed same
      | excused excused => exact .excused excused

theorem bind {f : α → Lower β} (first : c.Relates pre step post) (second : ∀ a, c.Relates (post a) (f a) post') :
    c.Relates pre (step >>= f) post' :=
  first.bindKnown fun a _ _ _ => second a

theorem mono {pre' : State → State → Prop} {post' : α → State → State → Prop} (relates : c.Relates pre step post)
    (before : ∀ {s s'}, pre' s s' → pre s s') (after : ∀ {a s s'}, post a s s' → post' a s s') : c.Relates pre' step post' := by
  refine ⟨fun {s s'} related => ?_⟩
  have ends := relates.lead (before related)
  revert ends
  generalize (step.run c.first).run.run s = out
  generalize (step.run c.second).run.run s' = out'
  intro ends
  cases ends with
  | level done => exact .level (after done)
  | failed same => exact .failed same
  | excused excused => exact .excused excused

theorem also {Q : α → State → Prop} (relates : c.Relates pre step post)
    (known : ∀ {s s' a t}, pre s s' → Runs step c.first s a t → Q a t) : c.Relates pre step fun a s s' => post a s s' ∧ Q a s := by
  refine ⟨fun {s s'} before => ?_⟩
  have ends := relates.lead before
  revert ends
  generalize (step.run c.second).run.run s' = out'
  intro ends
  cases run : (step.run c.first).run.run s with
  | mk result t =>
    rw [run] at ends
    cases ends with
    | level after => exact .level ⟨after,known before run⟩
    | failed same => exact .failed same
    | excused excused => exact .excused excused

theorem modify {f : State → State} {post : PUnit → State → State → Prop} (after : ∀ {s s'}, pre s s' → post ⟨⟩ (f s) (f s')) :
    c.Relates pre (modifyGet fun s => (⟨⟩, f s)) post :=
  ⟨fun before => .level (after before)⟩

theorem tryCatch {handler : Error → Lower α} (again : ∀ env e s, ∃ s', ((handler e).run env).run.run s = (.error e, s'))
    (relates : c.Relates pre step post) : c.Relates pre (tryCatch step handler) post := by
  refine ⟨fun {s s'} before => ?_⟩
  rw [run_tryCatch,run_tryCatch]
  have ends := relates.lead before
  revert ends
  generalize (step.run c.first).run.run s = out
  generalize (step.run c.second).run.run s' = out'
  intro ends
  cases ends with
  | level after => exact .level after
  | @failed e e' t t' same =>
    obtain ⟨u,fails⟩ := again c.first e t
    obtain ⟨u',fails'⟩ := again c.second e' t'
    dsimp only
    rw [fails,fails']
    exact .failed same
  | @excused e t _ excused =>
    obtain ⟨u,fails⟩ := again c.first e t
    dsimp only
    rw [fails]
    exact .excused excused

theorem look {f : State → Lower α} (same : ∀ {s s'}, pre s s' → f s = f s') (each : ∀ s, c.Relates pre (f s) post) :
    c.Relates pre (get >>= f) post := by
  refine ⟨fun {s s'} before => ?_⟩
  show c.Ends post (((f s).run c.first).run.run s) (((f s').run c.second).run.run s')
  rw [← same before]
  exact (each s).lead before

theorem ask {f : Environment → Lower α} (same : f c.first = f c.second) (each : c.Relates pre (f c.first) post) :
    c.Relates pre (read >>= f) post := by
  refine ⟨fun {s s'} before => ?_⟩
  show c.Ends post (((f c.first).run c.first).run.run s) (((f c.second).run c.second).run.run s')
  rw [← same]
  exact each.lead before

end Relates

/-! ### Steps -/

namespace Level
variable {s s' : State}

section
variable (level : c.Level focus s s')
include level

theorem alike : s.builder.Alike s'.builder where
  cursor := level.cursor
  procedure := by
    have seen : ∀ b : Builder, b.procedure?.map unlabelled =
        (b.procedure?.map (seen c.blind)).map unlabelled := by
      intro b
      rw [map_map]
      refine map_congr fun p _ => ?_
      cases c.blind with
      | false => rfl
      | true => exact (Action.unlabelled_unlabelled p).symm
    rw [seen,seen,level.procedure]

theorem rescoped (f : Array ScopeState → Array ScopeState) :
    c.Level focus { s with scopes := f s.scopes } { s' with scopes := f s'.scopes } :=
  { level with scopes := congrArg f level.scopes }

theorem moved (cursor : Option BlockId) :
    c.Level focus { s with builder := { s.builder with cursor } } { s' with builder := { s'.builder with cursor } } :=
  { level with
    cursor := rfl
    output := level.output
    procedure := level.procedure }

theorem entered (f : Symbols → Symbols) : c.Level focus { s with symbols := f s.symbols } { s' with symbols := f s'.symbols } :=
  { level with symbols := congrArg f level.symbols }

theorem put {p' q' : Procedure} (here : s.builder.procedure? = some p) (here' : s'.builder.procedure? = some q)
    (same : p'.seen c.blind = q'.seen c.blind) :
    c.Level focus { s with builder := s.builder.put p' } { s' with builder := s'.builder.put q' } := by
  obtain ⟨id,current,-,output⟩ := exists_current here
  obtain ⟨id',current',-,output'⟩ := exists_current here'
  obtain rfl := level.current.symm.trans current
  obtain rfl := mem_unique current' level.current'
  refine ⟨⟨level.scopes,level.symbols,level.strings,fun sighted => ?_,?_⟩,?_,?_,?_,?_⟩
  · simpa only [put_emitLabels] using level.labels sighted
  · rw [output,output']
    exact level.output.changed (fun _ => p') (fun _ => q') fun x here => Option.some.inj here
  · simpa only [put_current] using level.current
  · simpa only [put_current] using level.current'
  · simpa only [put_cursor] using level.cursor
  · rw [procedure?_put here,procedure?_put here',map_some,map_some,same]

theorem extended {f : Module → α × Module} (aside : Module.Aside f) : (f s.builder.output).1 = (f s'.builder.output).1 ∧
    c.Level focus { s with builder := { s.builder with output := (f s.builder.output).2 } }
      { s' with builder := { s'.builder with output := (f s'.builder.output).2 } } := by
  have own : (f s.builder.output).2.procedures = s.builder.output.procedures :=
    congrArg (fun out => out.2.procedures) (aside s.builder.output s.builder.output.procedures)
  have other : f s'.builder.output = ((f s.builder.output).1, { (f s.builder.output).2 with procedures := s'.builder.output.procedures }) :=
    (congrArg f level.output.rest).trans (aside s.builder.output s'.builder.output.procedures)
  refine ⟨by rw [other],?_⟩
  refine ⟨⟨level.scopes,level.symbols,level.strings,level.labels,⟨?_,?_,fun id apart => ?_,fun {id p} apart found => ?_⟩⟩,
    level.current,level.current',level.cursor,?_⟩
  · rw [other]
  · rw [other,own]
    exact level.output.keys
  · rw [other,own]
    exact level.output.shown id apart
  · rw [own] at found
    exact level.output.ready apart found
  · have kept := level.procedure
    unfold procedure? at kept ⊢
    rw [other,own]
    exact kept

end

end Level

namespace Lockstep

theorem andThen {step : Lower α} {f : α → Lower β} (first : c.Lockstep focus step) (second : ∀ a, c.Lockstep focus (f a)) : c.Lockstep focus (step >>= f) :=
  first.bind second

theorem done {a : α} : c.Lockstep focus (pure a) := .pure fun level => level

theorem log {event : Event} : c.Lockstep focus (log event) := .modify fun level => { level with }

theorem modifySymbols {f : Symbols → Symbols} : c.Lockstep focus (modifySymbols f) := .modify fun level => level.entered f

theorem onModule {f : Module → α × Module} (aside : Module.Aside f) : c.Lockstep focus (onModule f) := by
  refine ⟨fun {s s'} level => ?_⟩
  obtain ⟨same,after⟩ := level.extended aside
  show c.Ends _ (.ok (f s.builder.output).1, _) (.ok (f s'.builder.output).1, _)
  rw [← same]
  exact .level after

theorem rescope (f : Array ScopeState → Array ScopeState) : c.Lockstep focus (modify fun s => { s with scopes := f s.scopes }) :=
  .modify fun level => level.rescoped f

theorem setCursor {cursor : Option BlockId} : c.Lockstep focus (setCursor cursor) := .modify fun level => level.moved cursor

theorem withScope {kind : ScopeKind} {chain : Chain} {step : Chain → Lower α}
    (inner : ∀ number, c.Lockstep focus (step (⟨number,kind⟩ :: chain))) : c.Lockstep focus (withScope kind chain step) := by
  refine .look (fun level => by rw [level.scopes]) fun s => .look (fun level => by rw [level.cursor]) fun t => ?_
  refine andThen (rescope fun scopes => scopes.push .empty) fun _ => ?_
  exact andThen ((inner _).tryCatch fun _ _ _ => ⟨_,rfl⟩) fun a => andThen (rescope fun scopes => scopes.take _) fun _ => done

theorem atBlock {block : BlockId} {step : Lower α} (inner : c.Lockstep focus step) : c.Lockstep focus (atBlock block step) := by
  refine .look (fun level => by rw [level.cursor]) fun s => andThen setCursor fun _ => ?_
  exact andThen (inner.tryCatch fun _ _ _ => ⟨_,rfl⟩) fun a => andThen setCursor fun _ => done

end Lockstep

end Comparison

theorem Action.Proper.seen {action : Action α} {gives : α → List Finding} (proper : action.Proper needs gives)
    {blind e e' : Bool} (cursor : Option BlockId) (labels : blind = false → e = e') (same : p.seen blind = q.seen blind) :
    (action.inside cursor e p).1 = (action.inside cursor e' q).1 ∧
      (action.inside cursor e p).2.seen blind = (action.inside cursor e' q).2.seen blind := by
  cases blind with
  | false =>
    obtain rfl : p = q := same
    rw [labels rfl]
    exact ⟨rfl,rfl⟩
  | true =>
    have same : p.unlabelled = q.unlabelled := same
    obtain ⟨result,code⟩ := proper.blind cursor e p
    obtain ⟨result',code'⟩ := proper.blind cursor e' q
    rw [same] at result code
    exact ⟨result.trans result'.symm,code.trans code'.symm⟩

namespace Comparison.Lockstep
variable {c : Comparison} {focus : Option ProcId} {α β : Type} {needs : List Finding}

theorem act {m : Build α} {action : Action α} {gives : α → List Finding} (acts : m.Acts action) (proper : action.Proper needs gives) :
    c.Lockstep focus (build m) := by
  refine ⟨fun {s s'} level => ?_⟩
  show c.Ends _ ((m.run.run s.builder).1, { s with builder := (m.run.run s.builder).2 })
    ((m.run.run s'.builder).1, { s' with builder := (m.run.run s'.builder).2 })
  have seen := level.procedure
  cases here : s.builder.procedure? with
  | none =>
    rw [here,map_none] at seen
    rw [acts.outside here,acts.outside (map_eq_none_iff.mp seen.symm),level.cursor]
    exact .failed (c.refl _)
  | some p =>
    rw [here,map_some] at seen
    obtain ⟨q,here',same⟩ := map_eq_some_iff.mp seen.symm
    obtain ⟨result,code⟩ := proper.seen s'.builder.cursor level.labels same.symm
    rw [acts.inside here,acts.inside here',level.cursor,result]
    cases (action.inside s'.builder.cursor s'.builder.emitLabels q).1 with
    | error e => exact .failed (c.refl e)
    | ok a => exact .level (level.put here here' code)

theorem inspect {f : Builder → Build α} (same : ∀ {b b'}, b.Alike b' → f b = f b') (each : ∀ b, c.Lockstep focus (build (f b))) :
    c.Lockstep focus (build (MonadState.get >>= f)) := by
  refine ⟨fun {s s'} level => ?_⟩
  show c.Ends _ (((build (f s.builder)).run c.first).run.run s) (((build (f s'.builder)).run c.second).run.run s')
  rw [← same level.alike]
  exact (each s.builder).lead level

theorem insertionBlock : c.Lockstep focus (build Build.insertionBlock) := by
  refine inspect (fun alike => by rw [alike.cursor]) fun b => ?_
  cases b.cursor with
  | some id => exact done
  | none => exact .throw

theorem procedureOf : c.Lockstep focus (procedureOf id) := by
  refine .look (fun level => by rw [level.symbols]) fun s => ?_
  split
  · exact done
  · refine .ask (by rw [c.alike.decls]) (.bind .lift fun function => ?_)
    exact andThen (onModule (.declareExtern _ _ _)) fun proc => andThen log fun _ => andThen modifySymbols fun _ => done

theorem directTarget : c.Lockstep focus (directTarget id) :=
  .ask (by rw [c.alike.decls]) (.bind .lift fun _ => andThen procedureOf fun _ => done)

theorem supportTarget {routine : SupportRoutine} : c.Lockstep focus (supportTarget routine) :=
  andThen (onModule (.declareExtern _ _ _)) fun _ => done

theorem globalOf {role : GlobalRole} : c.Lockstep focus (globalOf role) := by
  refine .look (fun level => by rw [level.symbols]) fun s => ?_
  split
  · exact done
  · refine .ask (by simp only [Environment.globalSpec,c.alike.decls,c.alike.layout]) (.bind .lift fun spec => ?_)
    exact andThen (onModule (.defineGlobal _ _ _ _ _)) fun global => andThen modifySymbols fun _ => done

theorem literalOf {constant : Constant} : c.Lockstep focus (literalOf constant) := by
  cases constant with
  | string value =>
    refine ⟨fun {s s'} level => ?_⟩
    obtain ⟨same,after⟩ := level.extended (.intern s'.strings value)
    obtain ⟨place,pool⟩ := Prod.mk.inj same
    show c.Ends _ (.ok (Literal.data (s.strings.intern s.builder.output value).1), { s with
        strings := (s.strings.intern s.builder.output value).2.1
        builder := { s.builder with output := (s.strings.intern s.builder.output value).2.2 } })
      (.ok (Literal.data (s'.strings.intern s'.builder.output value).1), _)
    rw [level.strings,place]
    exact .level { after with strings := pool }
  | _ => exact done

end Comparison.Lockstep

theorem Composed.lockstep {step : Lower α} {gives : α → List Finding} (composed : Composed needs step gives)
    (c : Comparison) (focus : Option ProcId) : c.Lockstep focus step := by
  induction composed with
  | pure _ => exact .done
  | bindKnown _ sure _ first second => exact first.bindKnown fun a s s' run => second a (sure run)
  | mono _ _ _ ih => exact ih
  | throw => exact .throw
  | lift => exact .lift
  | ask same _ each => exact .ask (same c.alike) (each _)
  | look same _ each => exact .look (fun level => same level.scopes level.alike) each
  | inspect same _ each => exact .inspect same each
  | isTerminated => exact .look (fun level => by rw [level.alike.isTerminated]) fun _ => Comparison.Lockstep.done
  | log => exact .log
  | scopeState => exact .look (fun level => by rw [level.scopes]) fun _ => Comparison.Lockstep.done
  | bindVariable => exact .rescope fun scopes => scopes.modify _ _
  | recollect has put absent _ _ _ _ _ _ _ _ making old new =>
    refine Comparison.Lockstep.andThen (.look (fun level => by rw [level.scopes]) fun _ => Comparison.Lockstep.done) fun state => ?_
    cases known : has state with
    | some k => exact old known
    | none =>
      rw [absent known]
      exact .andThen making fun k => .andThen (.rescope fun scopes => scopes.modify _ _) fun _ => new k
  | slot? => exact .look (fun level => by rw [level.scopes]) fun _ => Comparison.Lockstep.done
  | withScope _ inner => exact .withScope inner
  | atBlock _ _ inner => exact .atBlock inner
  | build constructs =>
    obtain ⟨action,acts,proper⟩ := constructs.acts
    exact .act acts proper
  | callAt _ parts => exact parts
  | insertionBlock => exact .insertionBlock
  | switchTo _ => exact .setCursor
  | procedureOf => exact .procedureOf
  | directTarget => exact .directTarget
  | supportTarget => exact .supportTarget
  | globalOf => exact .globalOf
  | literalOf => exact .literalOf
  | placeArray _ => exact .onModule (.addDatum (fun n => s!"array.{n}") _ _)
  | placeAggregate _ => exact .onModule (.addDatum (fun n => s!"aggregate.{n}") _ _)

end BlockLowering
