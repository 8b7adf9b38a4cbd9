import BlockLowering.Expr.Shorthand
import BlockLowering.Proofs.Rounds
/-!
Programs that are lowered under audit. An audited pass checks after every expression that there is a value
exactly if the block at the cursor is open, and stops where it is not so. No program is lowered differently
under audit, and none makes the pass stop for a reason of its own.
-/
namespace BlockLowering
open List Option Build Lower Stance State Safe Agree
variable {chain : Chain} {unit : SourceUnit} {pending : List (FieldId × Expr)} {f : FunctionId} {α : Type}

namespace Lower

/-! ### Expressions -/

/-- Lower an expression, and check that it has a value exactly if the block at the cursor is open. -/
def audited (recurse : Recurse) : Recurse := fun chain e => do
  let value ← recurse chain e
  let ended ← isTerminated
  if value.isUnreachable = ended then return value else breach .incompleteValue

def auditedWithin : Nat → Recurse
  | 0 => fun _ _ => breach .depthExceeded
  | depth + 1 => audited (step (auditedWithin depth))

def auditedExpr (chain : Chain) (e : Expr) : Lower Value := auditedWithin (chain.weight + e.size) chain e

section
variable {env : Environment} {roots : Expr → Prop} {r r' : Recurse} {n : Nat}

theorem Lowers.audited (lowers : Lowers env roots n r r') : Lowers env roots n r (audited r') where
  agree {chain e o available ahead known live s} admits stance := by
    obtain ⟨same,safe⟩ := lowers.agree admits stance
    refine ⟨?_,safe⟩
    unfold Safe at safe
    unfold Lower.audited
    rw [run_bind,← same]
    cases outcome : ((r chain e).run env).run.run s with
    | mk result s' =>
      rw [outcome] at safe
      cases result with
      | error e => rfl
      | ok value =>
        have passes : value.isUnreachable = s'.builder.isTerminated := by
          have ended := Stance.isTerminated safe
          cases completes : value.isUnreachable <;> simp [Value.Completes,completes] at ended <;> simp [ended]
        show _ = ((if value.isUnreachable = s'.builder.isTerminated then pure value
          else breach .incompleteValue : Lower Value).run env).run.run s'
        rw [if_pos passes]
        rfl
  bounded := lowers.bounded

theorem Runs.auditedWithin {depth : Nat} {e : Expr} {s s' : State} {v : Value}
    (run : Runs (auditedWithin depth chain e) env s v s') : v.isUnreachable = s'.builder.isTerminated := by
  cases depth with
  | zero => exact absurd run runs_breach
  | succ depth =>
    unfold Lower.auditedWithin Lower.audited at run
    simp only [runs_bind,runs_isTerminated,and_assoc,exists_and_left,exists_eq_left] at run
    obtain ⟨value,s₁,-,run⟩ := run
    split at run
    · rename_i passes
      obtain ⟨rfl,rfl⟩ := runs_pure.mp run
      exact passes
    · exact absurd run runs_breach

/-- By induction on the bound: a step is audited if the steps for the children are. -/
theorem lowers_auditedExpr : Lowers env roots n lowerExpr auditedExpr := by
  refine Lowers.unbounded fun depth => ?_
  induction depth with
  | zero => exact lowers_zero
  | succ depth ih => exact ih.step.audited

end

/-! ### Programs with another pass over expressions -/

/-- Lower the body of a function with a given pass over expressions. -/
def lowerFunctionWith (lower : Recurse) (body : FunctionBody) : Lower Unit := do
  let function ← (← read).decls.getFunction body.function
  let proc ← procedureOf body.function
  log (.loweringFunction function.name proc)
  build do
    beginProcedure proc
    modifyProcedure fun p => { p with location := body.body.location }
  resetScopes
  let bindings ← parameterRegisters function
  let receiver := function.dispatchReceiver.bind fun parameter =>
    bindings.head?.map fun binding => Value.ofRegister binding.2 parameter.ty
  withScope (.function (some function.id) function.returnsVoid receiver) [] fun chain => do
    bindParameters chain bindings
    let _ ← lower chain body.body
    closeFunction function.returnsVoid
  finishFunction proc

def lowerInitializerFunctionWith (lower : Recurse) (unit : SourceUnit) (pending : List (FieldId × Expr)) : Lower ProcId := do
  let proc ← build (startProcedure s!"{unit.name}$init_globals" initializerHeader)
  resetScopes
  withScope (.function none true none) [] fun chain => lowerInitializersWith lower chain pending
  finishFunction proc
  return proc

def lowerUnitInitializersWith (lower : Recurse) (unit : SourceUnit) : Lower Unit := do
  let pending ← pendingInitializers unit.staticFields
  if pending.isEmpty then return
  log (.loweringInitializers pending.length unit.name)
  let initializer ← lowerInitializerFunctionWith lower unit pending
  let constructor ← lowerInitializerLink unit initializer
  onModule fun m => ((), m.addConstructor constructor)
  log (.registeredConstructor constructor unit.name)

def lowerUnitWith (lower : Recurse) (unit : SourceUnit) : Lower Unit := do
  log (.loweringUnit unit.name)
  unit.functions.forM (lowerFunctionWith lower)
  lowerUnitInitializersWith lower unit

def lowerUnitsWith (lower : Recurse) (units : List SourceUnit) : Lower Module := do
  log (.declaringUnits units.length)
  units.forM declareUnit
  units.forM (lowerUnitWith lower)
  let m := (← get).builder.output
  log (.loweredModule m.name m.procedures.size m.externs.size m.globals.size m.constructors.length)
  return m

theorem lowerInitializerFunctionWith_lowerExpr :
    lowerInitializerFunctionWith lowerExpr unit pending = lowerInitializerFunction unit pending := by
  simp only [lowerInitializerFunctionWith,lowerInitializerFunction,lowerInitializersWith_lowerExpr]

theorem lowerUnitWith_lowerExpr : lowerUnitWith lowerExpr unit = lowerUnit unit := by
  simp only [lowerUnitWith,lowerUnit,lowerUnitInitializersWith,lowerUnitInitializers,lowerInitializerFunctionWith_lowerExpr]
  rfl

theorem lowerUnitsWith_lowerExpr {units : List SourceUnit} : lowerUnitsWith lowerExpr units = lowerUnits units := by
  have each : lowerUnitWith lowerExpr = lowerUnit := funext fun _ => lowerUnitWith_lowerExpr
  simp only [lowerUnitsWith,lowerUnits,each]

end Lower

/-! ### Functions -/

section
variable {env : Environment} {s s' : State} {id : ProcId} {p : Procedure}

theorem Stance.output {roots : Expr → Prop} {o : Outset env roots chain} {available : List Register}
    {ahead : List Ahead} {known : List Joint} {live : Prop} (stance : Stance o available ahead known live s)
    (current : o.state.builder.current = some id) : ∃ p, s.builder.output.procedures.get? id = some p := by
  obtain ⟨supply,p,c,point⟩ := stance.point
  have found := point.standing.stands.procedure
  rw [Builder.procedure?,point.led.current,current,bind_some] at found
  exact ⟨p,found⟩

namespace Lower

theorem safe_finishFunction (found : s.builder.output.procedures.get? id = some p) : Safe env (finishFunction id) s fun _ _ => True := by
  obtain ⟨log,run⟩ := run_finishFunction env found
  unfold Safe
  obtain passed | ⟨procedure,diagnostics,listing,failed⟩ := env.settings.verdict_cases p
  · rw [run,passed]
    trivial
  · rw [run,failed]
    rfl

end Lower

end

/-! ### Whole programs -/

section
variable {env : Environment} {done : List FunctionId} {s s' : State} {id : ProcId} {p : Procedure}

namespace Lower
variable {unit : SourceUnit} {r' : Recurse}

theorem runs_procedureOf_known (symbol : s.symbols.functions.get? f = some id) : Runs (procedureOf f) env s id s := by
  refine runs_bind.mpr ⟨s,s,rfl,?_⟩
  simp only [symbol]
  exact rfl

theorem safe_begin (env : Environment) (location : Location) (found : s.builder.output.procedures.get? id = some p) : Safe env (build do
      Build.beginProcedure id
      Build.modifyProcedure fun p => { p with location }) s fun _ _ => True := by
  unfold Build.beginProcedure Build.modifyProcedure
  simp only [safe_build,Build.safe_bind,Build.safe_get,found,Build.safe_modify]

theorem runs_parameterRegisters {function : FunctionDecl} (here : s.builder.procedure? = some p)
    (enough : function.allParameters.length ≤ p.header.parameters.length) :
    Runs (parameterRegisters function) env s (function.allParameters.zip (p.header.parameters.map Parameter.register)) s := by
  refine runs_bind.mpr ⟨s,s,rfl,?_⟩
  simp only [here,map_some,getD_some,if_neg (Nat.not_lt.mpr enough)]
  exact rfl

theorem agree_lowerFunctionWith {body : FunctionBody} (lowers : ∀ n, Lowers env (fun _ => True) n lowerExpr r') (prepared : s.Prepared env done) (among : body.function ∈ done) :
    Agree env lowerExpr r' (fun r => lowerFunctionWith r body) s fun _ s' => s'.Prepared env done := by
  obtain ⟨proc,function,p,symbol,declared,found,signature⟩ := prepared.place body.function among
  have enough : function.allParameters.length = p.header.parameters.length := by
    simpa [Header.signature,FunctionDecl.nativeHeader] using (congrArg (fun s => s.params.length) signature).symm
  have lowered : Agree env lowerExpr r' (fun r => lowerFunctionWith r body) s fun _ _ => True := by
    refine .after rfl (.after (runs_lift.mpr ⟨getFunction_eq.mpr declared,rfl⟩) ?_)
    refine .after (runs_procedureOf_known symbol) (.after rfl ?_)
    have begins := safe_begin (s := { s with log := .loweringFunction function.name proc :: s.log }) env body.body.location found
    refine begins.runs.agree.bind fun _ s₁ begun => ?_
    obtain ⟨q,found₁,current,cursor,here,touches⟩ := begun.begin
    obtain rfl := mem_unique found₁ found
    refine .after rfl (.after (runs_parameterRegisters here (Nat.le_of_eq enough)) ?_)
    have entered : State.Entered env _ proc { q with location := body.body.location } { s₁ with scopes := #[.empty] } :=
      ⟨current,⟨here,cursor⟩,rfl,touches.trans (.of_same rfl rfl)⟩
    obtain ⟨supply,sound⟩ := prepared.sound found
    obtain ⟨waits,-,agree⟩ := agree_entered lowers entered (prepared.quiet (.logged env s _)).named (sound.relocated _) (.root trivial)
    refine agree.bind fun _ s₂ stance => ?_
    obtain ⟨p',found'⟩ := stance.output entered.current
    exact (safe_finishFunction found').agree
  exact lowered.and_runs.mono fun u s' done => prepared.body done.2

theorem safe_startProcedure {name : String} {header : Header} : Safe env (build (startProcedure name header)) s fun _ _ => True := by
  trivial

theorem agree_lowerInitializerFunctionWith
    (lowers : ∀ n, Lowers env (fun _ => True) n lowerExpr r') (prepared : s.Prepared env done) :
    Agree env lowerExpr r' (fun r => lowerInitializerFunctionWith r unit pending) s fun _ s' => s'.Prepared env done := by
  have lowered : Agree env lowerExpr r' (fun r => lowerInitializerFunctionWith r unit pending) s fun _ _ => True := by
    refine safe_startProcedure.runs.agree.bind fun proc s₁ started => ?_
    have entered := (started.startProcedure prepared.named).2
    have stance := start_new (fun _ => True) entered prepared.named
    refine .after rfl ((agree_lowerInitializersWith lowers stance fun _ _ => .root trivial).bind
      fun _ s₂ stance => ?_)
    obtain ⟨p',found'⟩ := stance.output entered.current
    exact (safe_bind.mpr ((safe_finishFunction found').mono fun _ _ _ => safe_pure.mpr trivial)).agree
  refine lowered.and_runs.mono fun proc s' done => ?_
  have run : Runs (lowerInitializerFunction unit pending) env s proc s' := lowerInitializerFunctionWith_lowerExpr ▸ done.2
  exact prepared.initializers run

theorem safe_linkNode_rescope {node : GlobalId} {scopes : Array ScopeState} {Q : Unit → State → Prop}
    (safe : Safe env (linkNode node) { s with scopes } Q) : Safe env (linkNode node) s fun u s' => Q u { s' with scopes } := by
  unfold linkNode supportTarget callPlain at safe ⊢
  simp only [safe_bind,safe_build,safe_onModule,safe_pure] at safe ⊢
  exact safe

theorem safe_lowerInitializerLink {initializer : ProcId} (prepared : s.Prepared env done) :
    Safe env (lowerInitializerLink unit initializer) s fun _ s' => s'.Prepared env done := by
  have lowered : Safe env (lowerInitializerLink unit initializer) s fun _ _ => True := by
    have defined : Safe env (onModule fun m => m.defineGlobal s!"{unit.name}$init_node" initializerNode
        (some (.aggregate [.proc initializer,.null])) true .internal) s fun _ s' => s.Quiet env s' := (State.Quiet.defined s _ _ _ _ _)
    refine defined.bind fun node s₁ quiet => ?_
    refine safe_startProcedure.runs.bind fun proc s₂ started => ?_
    have named := quiet.named prepared.named
    have entered := (started.startProcedure named).2
    have stance := start_new (fun _ => True) entered named
    have linked : Safe env (linkNode node) s₂ fun _ s' => Safe env (finishFunction proc >>= fun _ => pure proc) s' fun _ _ => True := by
      refine (safe_linkNode_rescope (safe_linkNode stance)).mono fun _ s' stance => ?_
      obtain ⟨p',found⟩ := output stance entered.current
      have found' : s'.builder.output.procedures.get? proc = some p' := found
      exact safe_bind.mpr ((safe_finishFunction found').mono fun _ _ _ => safe_pure.mpr trivial)
    simpa only [linkNode,safe_bind] using linked
  exact lowered.runs.mono fun proc s' run => prepared.link run

theorem safe_pendingInitializers {fields : List FieldId} : Safe env (pendingInitializers fields) s fun _ s' => s' = s := by
  induction fields with
  | nil => rfl
  | cons field rest ih =>
    refine safe_bind.mpr (safe_bind.mpr (safe_lift.mpr ⟨fun decl _ => ?_,failsInProgram_getField field⟩))
    refine ih.bind fun pending s' same => ?_
    split
    · exact same
    · exact same

theorem agree_lowerUnitInitializersWith (lowers : ∀ n, Lowers env (fun _ => True) n lowerExpr r') (prepared : s.Prepared env done) :
    Agree env lowerExpr r' (fun r => lowerUnitInitializersWith r unit) s fun _ s' => s'.Prepared env done := by
  refine safe_pendingInitializers.agree.bind fun pending s₁ same => ?_
  subst same
  cases none : pending.isEmpty with
  | true => exact agree prepared
  | false =>
    have announced : s₁.Quiet env { s₁ with log := .loweringInitializers pending.length unit.name :: s₁.log } := .logged env _ _
    refine .after rfl ?_
    refine (agree_lowerInitializerFunctionWith lowers (prepared.quiet announced)).bind fun initializer s₂ lowered => ?_
    refine (safe_lowerInitializerLink lowered).agree.bind fun constructor s₃ linked => agree ?_
    have registered : s₃.Quiet env { s₃ with builder := { s₃.builder with
        output := s₃.builder.output.addConstructor constructor } } := .placed s₃ rfl rfl rfl rfl rfl
    exact linked.quiet (registered.trans (.logged env _ (.registeredConstructor constructor unit.name :: s₃.log)))

theorem Agree.forM (r r' : Recurse) (f : Recurse → α → Lower PUnit) (xs : List α) (holds : List α → State → Prop)
    (start : holds xs s) (step : ∀ {x rest s}, holds (x :: rest) s → Agree env r r' (fun r => f r x) s fun _ s' => holds rest s') :
    Agree env r r' (fun r => xs.forM (f r)) s fun _ s' => holds [] s' := by
  induction xs generalizing s with
  | nil => exact agree start
  | cons x rest ih => exact (step start).bind fun _ _ held => ih held

theorem safe_forM (f : α → Lower PUnit) (xs : List α) (holds : List α → State → Prop) (start : holds xs s)
    (step : ∀ {x rest s}, holds (x :: rest) s → Safe env (f x) s fun _ s' => holds rest s') :
    Safe env (xs.forM f) s fun _ s' => holds [] s' :=
  (forM lowerExpr lowerExpr (fun _ => f) xs holds start fun held => (step held).agree).2

theorem agree_lowerUnitWith (lowers : ∀ n, Lowers env (fun _ => True) n lowerExpr r') (listed : ∀ body ∈ unit.functions, body.function ∈ done)
    (prepared : s.Prepared env done) : Agree env lowerExpr r' (fun r => lowerUnitWith r unit) s fun _ s' => s'.Prepared env done := by
  refine .after rfl ?_
  have announced : s.Quiet env { s with log := .loweringUnit unit.name :: s.log } := .logged env _ _
  have bodies := forM lowerExpr r' lowerFunctionWith unit.functions
    (fun rest s => rest ⊆ unit.functions ∧ s.Prepared env done) ⟨fun _ h => h,prepared.quiet announced⟩ (by
      rintro body rest s ⟨inside,prepared⟩
      refine (agree_lowerFunctionWith lowers prepared (listed body (inside (.head _)))).mono fun _ _ after => ?_
      exact ⟨fun _ h => inside (.tail _ h),after⟩)
  exact bodies.bind fun _ s₁ lowered => agree_lowerUnitInitializersWith lowers lowered.2

theorem safe_declareFunction : Safe env (declareFunction f) s fun _ _ => True := by
  refine safe_bind.mpr (safe_bind.mpr (safe_lift.mpr ⟨fun function _ => ?_,failsInProgram_getFunction f⟩))
  trivial

theorem safe_declareStaticField {field : FieldId} : Safe env (declareStaticField field) s fun _ _ => True := by
  refine safe_bind.mpr (safe_bind.mpr (safe_lift.mpr ⟨fun decl _ => ?_,failsInProgram_getField field⟩))
  cases decl.constantInitializer with
  | none => trivial
  | some constant => cases constant <;> trivial

theorem safe_declareUnit : Safe env (declareUnit unit) s fun _ _ => True := by
  have functions : Safe env (unit.functions.forM fun body => declareFunction body.function) s fun _ _ => True :=
    safe_forM _ _ (fun _ _ => True) trivial fun _ => safe_declareFunction
  exact functions.bind fun _ _ _ => safe_forM _ _ (fun _ _ => True) trivial fun _ => safe_declareStaticField

/-- Units are lowered alike by every pass that keeps its stance. -/
theorem agree_lowerUnitsWith (env : Environment) (lowers : ∀ n, Lowers env (fun _ => True) n lowerExpr r') (strings : StringPool)
    (units : List SourceUnit) :
    Agree env lowerExpr r' (fun r => lowerUnitsWith r units) (start env.settings strings) fun _ _ => True := by
  refine .after rfl ?_
  have declared : ∀ s, Safe env (units.forM declareUnit) s fun _ _ => True :=
    fun s => safe_forM declareUnit units (fun _ _ => True) trivial fun _ => safe_declareUnit
  refine (declared _).runs.agree.bind fun _ s₁ run => ?_
  obtain ⟨prepared,-⟩ := (Invariant.always env units).declareUnits ((Prepared.start env strings).quiet (.logged env _ _)) trivial run
  have lowered := forM lowerExpr r' lowerUnitWith units (fun rest s => rest ⊆ units ∧
    s.Prepared env (SourceUnit.defined units)) ⟨fun _ h => h,prepared⟩ (by
      rintro unit rest s ⟨inside,prepared⟩
      have own := inside (.head _)
      refine (agree_lowerUnitWith lowers (fun body part => ?_) prepared).mono fun _ _ after => ?_
      · exact mem_map_of_mem (mem_flatMap.mpr ⟨unit,own,part⟩)
      · exact ⟨fun _ h => inside (.tail _ h),after⟩)
  exact lowered.bind fun _ _ _ => agree trivial

end Lower

def auditedProgram (environment : Environment) (strings : StringPool) (units : List SourceUnit) : Outcome :=
  let (result, state) := (lowerUnitsWith auditedExpr units environment).run (start environment.settings strings)
  ⟨result,state.log.reverse⟩

/-- Where lowering fails, the reason lies in the program: the pass never ends a block twice, never looks for a
    block, a function or a phi that is not there, and never uses a value that is not. And whenever an expression has
    been lowered, it has a value exactly if the block at the cursor is open: an audit of all expressions would stop
    where that is not so, and it changes nothing.

    Three more failures of a pass are ruled out by types, and no statement here covers them. A scope without a parent: the scopes
    around are a list. A scope that is asked to finalize and cannot: the finalizer is part of its kind. A spread array without its
    length: a measured item carries it. -/
theorem lowerProgram_coherent (env : Environment) (strings : StringPool) (units : List SourceUnit) :
    (∀ e, (lowerProgram env strings units).result = .error e → e.inProgram = true) ∧
      auditedProgram env strings units = lowerProgram env strings units ∧
      ∀ depth chain e s v s', Lower.Runs (Lower.auditedWithin depth chain e) env s v s' → v.isUnreachable = s'.builder.isTerminated := by
  obtain ⟨same,safe⟩ := Lower.agree_lowerUnitsWith env (fun _ => Lower.lowers_auditedExpr) strings units
  simp only [Lower.lowerUnitsWith_lowerExpr] at same safe
  refine ⟨?_,?_,fun _ _ _ _ _ _ run => run.auditedWithin⟩
  · intro e failed
    have failed : (((Lower.lowerUnits units).run env).run.run (State.start env.settings strings)).1 = .error e := failed
    unfold Lower.Safe at safe
    split at safe
    · rename_i outcome
      rw [outcome] at failed
      cases failed
    · rename_i outcome
      rw [outcome] at failed
      exact Except.error.inj failed ▸ safe
  · have outcomes := congrArg (fun out : Except Error Module × State => Outcome.mk out.1 out.2.log.reverse) same
    exact outcomes.symm

/-- A function that returns through a finalizer, which assigns a variable that does not exist. -/
def strayUnit : SourceUnit :=
  ⟨"m",[⟨⟨0⟩,.guarded (.returnFrom ⟨0⟩ (.readVar ⟨0⟩ .int)) [] (some (.writeVar ⟨9⟩ (.readVar ⟨0⟩ .int))) .never⟩],[]⟩

def strayEnvironment : Environment :=
  let decls : Declarations := .ofLists [] [.topLevel ⟨0⟩ "f" [⟨⟨0⟩,"x",.int⟩] .int] []
  ⟨decls,.development,.ofDeclarations decls⟩

def strayStart : State :=
  (((build (startProcedure "f" ⟨[],.void⟩)).run strayEnvironment).run.run (start .development .empty)).2

theorem strayUnit_coherent : (lowerProgram strayEnvironment .empty [strayUnit]).result = .error (.unboundVariable ⟨9⟩ .unknown) ∧
      Error.inProgram (.unboundVariable ⟨9⟩ .unknown) = true ∧
      auditedProgram strayEnvironment .empty [strayUnit] = lowerProgram strayEnvironment .empty [strayUnit] ∧
      ∃ v s', Lower.Runs (Lower.auditedWithin 2 [⟨0,.function none true none⟩] (.raise .null)) strayEnvironment strayStart v s' ∧
        v.isUnreachable = true ∧ s'.builder.isTerminated = true := by
  obtain ⟨inProgram,audit,coherent⟩ := lowerProgram_coherent strayEnvironment .empty [strayUnit]
  have stops : (match (lowerProgram strayEnvironment .empty [strayUnit]).result with
    | .ok _ => none
    | .error e => some e) = some (.unboundVariable ⟨9⟩ .unknown) := by decide +kernel
  have failed : (lowerProgram strayEnvironment .empty [strayUnit]).result = .error (.unboundVariable ⟨9⟩ .unknown) := by
    split at stops
    · cases stops
    · rename_i result
      rw [result,Option.some.inj stops]
  have raised : ∃ v s', Lower.Runs (Lower.auditedWithin 2 [⟨0,.function none true none⟩] (.raise .null)) strayEnvironment
      strayStart v s' ∧ v.isUnreachable = true := ⟨_,_,rfl,rfl⟩
  obtain ⟨v,s',run,ends⟩ := raised
  exact ⟨failed,inProgram _ failed,audit,v,s',run,ends,(coherent _ _ _ _ _ _ run).symm.trans ends⟩

end

end BlockLowering
