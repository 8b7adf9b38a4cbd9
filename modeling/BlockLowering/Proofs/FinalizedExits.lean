import BlockLowering.Proofs.Audit
import BlockLowering.Proofs.Outputs
import BlockLowering.Proofs.ScopeFrame
/-!
Exits in whole programs. A pass under observation checks after every expression what has come of it, and stops where
that is not as expected. No program is lowered differently if every exit is expected to run the finalizers around it,
innermost first, each in the one cleanup that its scope has for the exit. The value of a return survives a cleanup that
merges values; whether one does is settled by the type of the return that comes first.
-/
namespace BlockLowering
open Lower List State Chain Option Around BlockLowering.Expr
variable {available : List Register} {ahead : List Ahead} {known : List Joint} {live : Prop} {needs : List Finding}

/-! ### Observation -/

/-- What is expected of an expression that has been lowered: of the pass over its parts, the scopes around it, the
    expression, its value, and the states before and behind it. -/
abbrev Expectation := Recurse → Chain → Expr → State → Value → State → Prop

namespace Lower

open Classical in
/-- Lower an expression, and stop if what has come of it is not as expected. -/
noncomputable def observed (expected : Expectation) (parts recurse : Recurse) : Recurse := fun chain e => do
  let before ← get
  let value ← recurse chain e
  let behind ← get
  if expected parts chain e before value behind then return value else breach .incompleteValue

noncomputable def observedWithin (expected : Expectation) : Nat → Recurse
  | 0 => fun _ _ => breach .depthExceeded
  | depth + 1 => observed expected (lowerWithin depth) (step (observedWithin expected depth))

noncomputable def observedExpr (expected : Expectation) (chain : Chain) (e : Expr) : Lower Value :=
  observedWithin expected (chain.weight + e.size) chain e

/-- An expectation that is met wherever an expression is lowered in a program. -/
def Met (env : Environment) (expected : Expectation) : Prop :=
  ∀ {depth chain e} {o : Outset env (fun _ => True) chain} {available ahead known live s v s'},
    chain.weight + e.size ≤ depth + 1 → Stance o available ahead known live s → Runs (lowerWithin (depth + 1) chain e) env s v s' →
    expected (lowerWithin depth) chain e s v s'

section
variable {env : Environment} {expected : Expectation} {n depth : Nat} {chain : Chain} {e : Expr} {s s' : State} {v : Value}

theorem run_observed {parts recurse : Recurse} (met : ∀ {v s'}, Runs (recurse chain e) env s v s' → expected parts chain e s v s') :
    ((observed expected parts recurse chain e).run env).run.run s = ((recurse chain e).run env).run.run s := by
  unfold observed
  rw [run_bind]
  cases outcome : ((recurse chain e).run env).run.run s with
  | mk result s' =>
    cases result with
    | error error =>
      show ((recurse chain e >>= _).run env).run.run s = _
      rw [run_bind,outcome]
    | ok value =>
      refine runs_bind.mpr ⟨value,s',outcome,runs_bind.mpr ⟨s',s',runs_get.mpr ⟨rfl,rfl⟩,?_⟩⟩
      rw [if_pos (met outcome)]
      exact runs_pure.mpr ⟨rfl,rfl⟩

theorem lowers_observedWithin (met : Met env expected) (depth : Nat) :
    Lowers env (fun _ => True) depth (lowerWithin depth) (observedWithin expected depth) := by
  induction depth with
  | zero => exact lowers_zero
  | succ depth ih =>
    refine ⟨fun {chain e o available ahead known live s} admits stance => ?_,fun _ _ => ⟨depth + 1,rfl⟩⟩
    obtain ⟨same,safe⟩ := ih.step.agree admits stance
    exact ⟨same.trans (run_observed fun run => met admits.small stance (same.trans run)).symm,safe⟩

end

end Lower

noncomputable def observedProgram (expected : Expectation) (environment : Environment) (strings : StringPool) (units : List SourceUnit) :
    Outcome :=
  let (result, state) := (lowerUnitsWith (observedExpr expected) units environment).run (start environment.settings strings)
  ⟨result,state.log.reverse⟩

theorem observedProgram_eq {env : Environment} {expected : Expectation} (met : Met env expected) (strings : StringPool)
    (units : List SourceUnit) : observedProgram expected env strings units = lowerProgram env strings units := by
  obtain ⟨same,-⟩ := agree_lowerUnitsWith env (fun _ => .unbounded (lowers_observedWithin met)) strings units
  simp only [lowerUnitsWith_lowerExpr] at same
  exact (congrArg (fun out : Except Error Module × State => Outcome.mk out.1 out.2.log.reverse) same).symm

/-! ### Exits -/

/-- The state in which the parts of an expression are begun. -/
def State.noting (s : State) (e : Expr) : State := { s with log := .loweringExpr e.kindName e.ty e.location :: s.log }

/-- An expression, begun where code can follow, issues an exit with a value in a state. -/
inductive Issues (env : Environment) (r : Recurse) (chain : Chain) (e : Expr) (s : State) : Exit → Value → State → Prop
  | returns {target : FunctionId} {value : Expr} {v : Value} {s₁ : State} (node : e.node = .returnFrom target value)
    (alive : s.builder.isTerminated = false) (run : Runs (eval r chain value) env (s.noting e) (some v) s₁) :
    Issues env r chain e s (.returning target) v s₁
  | breaks {loop : LoopId} (node : e.node = .breakFrom loop) (alive : s.builder.isTerminated = false) :
    Issues env r chain e s (.breaking loop) .unit (s.noting e)
  | continues {loop : LoopId} (node : e.node = .continueWith loop) (alive : s.builder.isTerminated = false) :
    Issues env r chain e s (.continuing loop) .unit (s.noting e)

section
variable {env : Environment} {roots : Expr → Prop} {r r' : Recurse} {n : Nat} {chain : Chain} {e : Expr} {s s₁ s' : State} {exit : Exit}
  {v w : Value}

theorem Lower.Runs.stepNode (run : Runs (step r chain e) env s w s') (alive : s.builder.isTerminated = false) :
    Runs (stepNode r chain e) env (s.noting e) w s' := by
  unfold step at run
  simp only [runs_bind,runs_isTerminated,runs_log,alive,Bool.false_eq_true,if_false,and_assoc,exists_and_left,exists_eq_left,
    exists_const] at run
  exact run

theorem Stance.noting {o : Outset env roots chain} (stance : Stance o available ahead known live s) (alive : s.builder.isTerminated = false)
    (e : Expr) : Stance o available ahead known True (s.noting e) :=
  (stance.logged _).congr (iff_of_true (stance.alive alive) trivial)

theorem Issues.leaves (issues : Issues env r chain e s exit v s₁) (run : Runs (step r chain e) env s w s') :
    Runs (leave r chain exit v) env s₁ () s' := by
  cases issues with
  | returns node alive evaluated =>
    have run := run.stepNode alive
    unfold stepNode lowerReturn at run
    rw [node] at run
    obtain ⟨found,s₂,again,run⟩ := runs_bind.mp run
    obtain ⟨same,rfl⟩ := Prod.mk.inj (again.symm.trans evaluated)
    obtain rfl := Except.ok.inj same
    obtain ⟨_,s₃,left,run⟩ := runs_bind.mp run
    obtain ⟨-,rfl⟩ := runs_pure.mp run
    exact left
  | breaks node alive =>
    have run := run.stepNode alive
    unfold stepNode lowerBreak at run
    rw [node] at run
    obtain ⟨_,s₃,left,run⟩ := runs_bind.mp run
    obtain ⟨-,rfl⟩ := runs_pure.mp run
    exact left
  | continues node alive =>
    have run := run.stepNode alive
    unfold stepNode lowerContinue at run
    rw [node] at run
    obtain ⟨_,s₃,left,run⟩ := runs_bind.mp run
    obtain ⟨-,rfl⟩ := runs_pure.mp run
    exact left

theorem Issues.stance {o : Outset env (fun _ => True) chain}
    (issues : Issues env r chain e s exit v s₁) (lowers : Lowers env (fun _ => True) n r r') (small : chain.weight + e.size ≤ n + 1)
    (stance : Stance o available ahead known live s) : v.Completes ∧ Stance o (v.registers ++ available) ahead known True s₁ := by
  cases issues with
  | @returns target value _ _ node alive evaluated =>
    obtain ⟨node',ty,location⟩ := e
    obtain rfl : node' = _ := node
    have admits : Admits (fun _ => True) n chain value := ⟨by simp only [size,nodeSize] at small; omega,.root trivial⟩
    obtain ⟨completes,done⟩ := (lowers.eval admits (stance.noting alive _)).2.of_runs evaluated
    exact ⟨completes v rfl,done.congr (iff_of_true rfl trivial)⟩
  | breaks node alive => exact ⟨rfl,stance.noting alive _⟩
  | continues node alive => exact ⟨rfl,stance.noting alive _⟩

theorem Issues.left {depth : Nat} {o : Outset env (fun _ => True) chain}
    (issues : Issues env (lowerWithin depth) chain e s exit v s₁) (small : chain.weight + e.size ≤ depth + 1)
    (stance : Stance o available ahead known live s) (run : Runs (lowerWithin (depth + 1) chain e) env s w s') :
    Stance o (v.registers ++ available) ahead known False s' ∧ s₁.Leaves env chain exit v s' := by
  obtain ⟨completes,issued⟩ := issues.stance (lowers_lowerWithin depth) small stance
  have room : chain.weight ≤ depth := by
    obtain ⟨node,ty,location⟩ := e
    simp only [size] at small
    omega
  exact ((lowers_lowerWithin depth).leaves room completes issued (subset_append_left _ _)).2.of_runs (issues.leaves run)

end

/-- No cleanup of the scopes around an expression is lost or replaced. An exit leaves its path behind, through the
    finalizers around it; if the first of their scopes has a cleanup for it, the exit is no more than a jump there. -/
def Finalizes (env : Environment) : Expectation := fun r chain e s _ s' =>
  s.Remembers chain s' ∧ ∀ {exit v s₁}, Issues env r chain e s exit v s₁ → s₁.Leaves env chain exit v s' ∧
    ∀ {id k}, finalizing? exit chain = some id → s₁.cleanups id exit = some k → Runs (jump k v) env s₁ () s'

theorem met_finalizes (env : Environment) : Met env (Finalizes env) := by
  intro depth chain e o available ahead known live s v s' small stance run
  refine ⟨?_,fun {exit v s₁} issues => ⟨(issues.left small stance run).2,fun first known => (issues.leaves run).leave_remembered first known⟩⟩
  obtain ⟨supply,p,c,point⟩ := stance.point
  have fresh : Stance (o.anew supply s) available ahead known live s := ⟨supply,p,c,point.fresh⟩
  have done := ((lowers_lowerWithin (depth + 1)).agree ⟨small,.root trivial⟩ fresh).2.of_runs run
  obtain ⟨supply',p',c',point'⟩ := done.point
  exact point'.tidy.kept

/-- Every exit in a program runs the finalizers around it, innermost first: no program is lowered differently if that
    is checked wherever an exit has been issued. -/
theorem lowerProgram_finalizes (env : Environment) (strings : StringPool) (units : List SourceUnit) :
    observedProgram (Finalizes env) env strings units = lowerProgram env strings units ∧
      ∀ {r chain exit v s s' id k}, Runs (leave r chain exit v) env s () s' → Chain.finalizing? exit chain = some id →
        s.cleanups id exit = some k → Runs (jump k v) env s () s' :=
  ⟨observedProgram_eq (met_finalizes env) strings units,fun run first known => run.leave_remembered first known⟩

/-! ### Values -/

/-- Coming from a block, control finds a value at a continuation: the merge takes one register from there, which holds the
    value, or nothing is merged and the value is the unit object. -/
def State.Receives (s : State) (b : BlockId) (k : Continuation) (v : Value) : Prop :=
  match k.phi with
  | none => v.form = .unit
  | some dest => ∃ p block phi r, s.builder.procedure? = some p ∧ p.graph.block? k.block = some block ∧ phi ∈ block.phis ∧
    phi.dest = dest ∧ s.Bears b v r ∧ ∀ r', (b, r') ∈ phi.incoming ↔ r' = r

section
variable {env : Environment} {r : Recurse} {chain : Chain} {exit : Exit} {s s' : State} {v : Value} {b : BlockId} {k : Continuation}
  {id : Nat}

theorem State.Joins.receives {p : Procedure} (joins : s.Joins b k v) (here : s.builder.procedure? = some p) (wired : p.graph.Wired) :
    s.Receives b k v ↔ (k.phi = none → v.form = .unit) := by
  unfold Receives
  split
  · rename_i bare
    exact ⟨fun isUnit _ => isUnit,fun isUnit => isUnit bare⟩
  · rename_i dest merging
    refine iff_of_true ?_ fun bare => absurd (merging.symm.trans bare) (some_ne_none dest)
    obtain ⟨r,bears,q,block,phi,there,found,inside,same,incoming⟩ := joins.brings merging
    obtain rfl := mem_unique here there
    refine ⟨p,block,phi,r,here,found,inside,same,bears,fun r' => ⟨fun other => ?_,fun same => same ▸ incoming⟩⟩
    let edges : Table BlockId Register := ⟨phi.incoming,wired.merges found inside ▸ wired.distinct found⟩
    have only : edges.get? b = some r := Table.mem_entries_iff.mp incoming
    exact some.inj ((Table.mem_entries_iff.mp (show (b, r') ∈ edges.entries from other)).symm.trans only)

theorem Lower.Runs.framed {α : Type} {step : Lower α} {a : α} {gives : α → List Finding} (run : Runs step env s a s')
    (composed : Composed needs step gives) : Framed needs s.scopes s'.scopes := by
  have framed := (composed.frames env s).lead
  rwa [run] at framed

theorem State.lt_of_cleanups (known : s.cleanups id exit = some k) : id < s.scopes.size := by
  refine Decidable.byContradiction fun beyond => ?_
  rw [cleanups,Array.getElem?_eq_none (Nat.le_of_not_lt beyond)] at known
  cases known

theorem Framed.cleanups (framed : Framed needs s.scopes s'.scopes) (known : s.cleanups id exit = some k) :
    s'.cleanups id exit = some k := by
  have there := Array.getElem?_eq_getElem (lt_of_cleanups known)
  obtain ⟨after,there',step⟩ := framed.each there
  rw [State.cleanups,there] at known
  rw [State.cleanups,there']
  exact step.recalls.cleanups known

theorem Lower.Runs.leave_first (composes : Composes r) (run : Runs (leave r chain exit v) env s () s')
    (first : finalizing? exit chain = some id) (absent : s.cleanups id exit = none) (known : s'.cleanups id exit = some k) :
    k.ty = exitType exit v ∧ (k.phi = none ↔ (exitType exit v).isValueless = true) := by
  obtain ⟨finalizer,outer,same⟩ := leave_finalizing (r := r) (v := v) first
  rw [same] at run
  unfold leave at run
  simp only [runs_bind,runs_scopeState,and_assoc,exists_and_left,exists_eq_left] at run
  rw [show ((s.scopes[id]?).getD .empty).cleanups.get? exit = none from absent] at run
  obtain ⟨cleanup,s₁,made,run⟩ := runs_bind.mp run
  obtain ⟨_,s₂,entered,run⟩ := runs_bind.mp run
  obtain ⟨-,rfl⟩ := runs_modifyScope.mp entered
  -- Behind the place where the cleanup is entered the scope keeps it.
  have beyond : Chain.Around ([.target cleanup.block] ++ exits outer) outer := add (Subset.refl _)
  have framed : Framed ([.target cleanup.block] ++ exits outer) (s₁.remember id exit cleanup).scopes s'.scopes :=
    run.framed (.andThen .log fun _ => .andThen (.jump (by simp)) fun _ => .atBlock (.inr (by simp))
      (.evalThen composes beyond .done fun _ => .leave composes beyond))
  have present : id < s₁.scopes.size := by
    have present := lt_of_cleanups known
    rwa [framed.size,remember,Array.size_modify] at present
  have kept := framed.cleanups (cleanups_remember present).1
  cases (kept.symm.trans known)
  exact made.newContinuation_merges

end

/-- A return leaves its path behind; a continuation to which a block brings a value receives it exactly if it merges values
    or the value is the unit object. -/
def HandsOn (env : Environment) : Expectation := fun r chain e s _ s' =>
  ∀ {target v s₁}, Issues env r chain e s (.returning target) v s₁ → s₁.Leaves env chain (.returning target) v s' ∧
    ∀ {b k w}, s'.Joins b k w → (s'.Receives b k w ↔ (k.phi = none → w.form = .unit))

theorem met_handsOn (env : Environment) : Met env (HandsOn env) := by
  intro depth chain e o available ahead known live s v s' small stance run target v s₁ issues
  obtain ⟨done,leaves⟩ := issues.left small stance run
  obtain ⟨supply,p,c,point⟩ := done.point
  exact ⟨leaves,fun joins => joins.receives point.standing.stands.procedure point.standing.sound.wired⟩

/-- Where a return passes a finalizer, its value survives if the cleanup merges values. It does if the type of the return that
    was the first to come there has values; otherwise every later return that shares the cleanup hands the unit object on. -/
theorem lowerProgram_hands_values_on (env : Environment) (strings : StringPool) (units : List SourceUnit) :
    observedProgram (HandsOn env) env strings units = lowerProgram env strings units ∧
      ∀ {r chain target v s s' id k}, Bounded r → Runs (leave r chain (.returning target) v) env s () s' →
        Chain.finalizing? (.returning target) chain = some id → s'.cleanups id (.returning target) = some k →
        s.cleanups id (.returning target) = some k ∨
          s.cleanups id (.returning target) = none ∧ k.ty = v.ty ∧ (k.phi = none ↔ v.ty.isValueless = true) := by
  refine ⟨observedProgram_eq (met_handsOn env) strings units,fun {r chain target v s s' id k} bounded run first known => ?_⟩
  have composes : Composes r := fun {needs chain e} around => by
    obtain ⟨depth,same⟩ := bounded chain e
    rw [same]
    exact composes_lowerWithin depth around
  cases before : s.cleanups id (.returning target) with
  | none => exact .inr ⟨rfl,run.leave_first composes first before known⟩
  | some k₁ =>
    have framed : Framed chain.exits s.scopes s'.scopes := run.framed (.leave composes (Subset.refl _))
    exact .inl ((framed.cleanups before).symm.trans known)

/-- A function that returns the unit object or its parameter, both through a finalizer. -/
def mixedDecls : Declarations := .ofLists [] [.topLevel ⟨0⟩ "f" [⟨⟨0⟩,"c",.boolean⟩,⟨⟨1⟩,"x",.object⟩] .object] []

def mixedUnit : SourceUnit :=
  ⟨"m",[⟨⟨0⟩,.guarded (.sequence [.expression (.ifThen (.readVar ⟨0⟩ .boolean) (.returnFrom ⟨0⟩ .unit)),
    .expression (.returnFrom ⟨0⟩ (.readVar ⟨1⟩ .object))] .never) [] (some .unit) .never⟩],[]⟩

/-- The parameter is dropped: whichever return control comes from, the unit object is returned. -/
theorem mixedUnit_drops_value : ∃ m p k, (lowerModule .development mixedDecls [mixedUnit]).result = .ok m ∧
    m.procedures.get? ⟨0⟩ = some p ∧ p.graph.block? ⟨5⟩ = some k ∧ k.predecessors = [⟨3⟩,⟨2⟩] ∧ k.phis = [] ∧
    k.code = [.const ⟨2⟩ (.global ⟨0⟩)] ∧ k.terminator = some (.ret (some ⟨2⟩)) := by
  obtain ⟨m,p,lowered,found,passed⟩ := exists_output .development mixedDecls [mixedUnit] ⟨0⟩
    (fun p => (p.graph.block? ⟨5⟩).any fun k : Block => decide (k.predecessors = [⟨3⟩,⟨2⟩] ∧ k.phis = [] ∧
      k.code = [.const ⟨2⟩ (.global ⟨0⟩)] ∧ k.terminator = some (.ret (some ⟨2⟩)))) (by decide +kernel)
  simp only [Option.any_eq_true,decide_eq_true_eq] at passed
  obtain ⟨k,there,facts⟩ := passed
  exact ⟨m,p,k,lowered,found,there,facts⟩

end BlockLowering
