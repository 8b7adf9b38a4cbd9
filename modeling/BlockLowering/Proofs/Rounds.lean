import BlockLowering.Proofs.Programs
import BlockLowering.Proofs.Regimes
/-!
Rounds over the units of a program. What is kept by the declaration of functions, by the lowering of their
bodies and by the initializers of units holds at the end of a run. A body is lowered in one function of the
output, from a point where no scope is open but the outermost.
-/
namespace BlockLowering
open Lower List SourceUnit FunctionBody State
variable {unit : SourceUnit} {strings : StringPool} {m : Module}

namespace Regime
variable {Fact : Type} {r : Regime Fact} {o : Origin} {s s' : State} {p : Procedure} {c : BlockId}

theorem Kept.start (entered : State.Entered o.env o.start o.id p s) (named : o.start.Named o.env)
    (good : r.good s.builder.output p) (opened : r.opened 1) (sits : r.sits p.graph.entry) : r.Kept o s p p.graph.entry where
  current := entered.current
  stands := entered.stands
  good := good
  scopes {i scope} there := by
    rw [entered.scopes] at there
    have inside : scope ∈ #[ScopeState.empty] := Array.mem_of_getElem? there
    rw [Array.mem_singleton.mp inside]
    exact r.fits_empty _ _ _
  opened := by rw [entered.scopes]; exact opened
  sits := sits
  named := entered.touches.named named
  touches := entered.touches

theorem Kept.finish {u : Unit} {scopes : Array ScopeState} (kept : r.Kept o s p c)
    (run : Runs (finishFunction o.id) o.env { s with scopes } u s') :
    State.Touches o.env o.id o.start s' ∧ s.builder.output.Keeps s'.builder.output ∧
      ∃ p', s'.builder.output.procedures.get? o.id = some p' ∧ (p' = p ∨ p' = p.pruned) := by
  obtain ⟨touches,q,p',found,found',outcome⟩ := run.finishFunction
  have same : s.builder.procedure? = some q := by
    rw [Builder.procedure?,kept.current,Option.bind_some,found]
  obtain rfl := kept.unique same
  have closed : State.Touches o.env o.id s { s with scopes } := .of_same rfl rfl
  exact ⟨(kept.touches.trans closed).trans touches,touches.keeps (closed.named kept.named),p',found',outcome⟩

end Regime

section
variable {env : Environment} {done : List FunctionId} {s s' : State} {id : ProcId} {u : Unit}

theorem State.Prepared.body {body : FunctionBody} (prepared : s.Prepared env done)
    (run : Runs (lowerFunction body) env s u s') : s'.Prepared env done := by
  have within : Expr.Within (fun _ => True) body.body := .root trivial
  obtain ⟨proc,p,p',-,found,found',touches,sound,header,-⟩ := run.lowerFunction prepared.toSettled within
  exact prepared.touched touches found' sound fun q there => Option.mem_unique found there ▸ header

theorem State.Prepared.initializers {pending : List (FieldId × Expr)} (prepared : s.Prepared env done)
    (run : Runs (lowerInitializerFunction unit pending) env s id s') : s'.Prepared env done := by
  have within : ∀ entry ∈ pending, Expr.Within (fun _ => True) entry.2 := fun _ _ => .root trivial
  exact prepared.completed (run.lowerInitializerFunction prepared.named within)

theorem State.Prepared.link {initializer : ProcId} (prepared : s.Prepared env done)
    (run : Runs (lowerInitializerLink unit initializer) env s id s') : s'.Prepared env done :=
  prepared.completed (run.lowerInitializerLink prepared.named : Completes env (fun _ => True) s id s')

end

/-- The functions and static fields of all units are declared before any of them is lowered. -/
theorem Lower.Runs.lowerUnits_parts {env : Environment} {units : List SourceUnit} {s s' : State} (run : Runs (Lower.lowerUnits units) env s m s') :
    ∃ s₁ s₂ log, Runs (units.forM declareUnit) env { s with log := .declaringUnits units.length :: s.log } () s₁ ∧
      Runs (units.forM lowerUnit) env s₁ () s₂ ∧ m = s₂.builder.output ∧ s' = { s₂ with log } := by
  unfold Lower.lowerUnits at run
  simp only [runs_bind,runs_log,runs_get,and_assoc,exists_and_left,exists_eq_left,exists_const] at run
  obtain ⟨_,s₁,declared,_,s₂,filled,last⟩ := run
  obtain ⟨rfl,rfl⟩ := runs_pure.mp last
  exact ⟨s₁,s₂,_,declared,filled,rfl,rfl⟩

/-- What holds between the functions of a program: of those declared so far, of those whose bodies are still to come,
    and of the state. -/
structure Invariant (env : Environment) (units : List SourceUnit) (holds : List FunctionId → List FunctionId → State → Prop) :
    Prop where
  quiet : ∀ {done left s s'}, s.Prepared env done → holds done left s → s.Quiet env s' → holds done left s'
  declared : ∀ {done f s u s'}, s.Prepared env done →
    holds done done s → Runs (declareFunction f) env s u s' → holds (done ++ [f]) (done ++ [f]) s'
  body : ∀ {done left body s u s'}, body ∈ bodies units → body.function ∈ done → s.Prepared env done →
    holds done (body.function :: left) s → Runs (lowerFunction body) env s u s' → holds done left s'
  initializers : ∀ {done left unit pending s id s'}, unit ∈ units →
    (∀ entry ∈ pending, entry.1 ∈ unit.staticFields ∧ ∃ field, env.decls.getField entry.1 = .ok field ∧
      field.initializer = some entry.2) → s.Prepared env done → holds done left s →
    Runs (lowerInitializerFunction unit pending) env s id s' → holds done left s'
  link : ∀ {done left unit initializer s id s'}, s.Prepared env done → holds done left s →
    Runs (lowerInitializerLink unit initializer) env s id s' → holds done left s'

namespace Invariant
variable {env : Environment} {units : List SourceUnit} {holds : List FunctionId → List FunctionId → State → Prop}
  {done left : List FunctionId} {s s' : State} {u : Unit}

theorem always (env : Environment) (units : List SourceUnit) : Invariant env units fun _ _ _ => True where
  quiet _ _ _ := trivial
  declared _ _ _ := trivial
  body _ _ _ _ _ := trivial
  initializers _ _ _ _ _ := trivial
  link _ _ _ := trivial

section
variable (invariant : Invariant env units holds)
include invariant

theorem declareUnit
    (prepared : s.Prepared env done) (start : holds done done s) (run : Runs (declareUnit unit) env s u s') :
    s'.Prepared env (done ++ unit.functions.map function) ∧
      holds (done ++ unit.functions.map function) (done ++ unit.functions.map function) s' := by
  obtain ⟨_,s₁,functions,fields⟩ := runs_bind.mp run
  obtain ⟨prepared₁,held₁⟩ := functions.forM (fun before _ s => s.Prepared env (done ++ before.map function) ∧
    holds (done ++ before.map function) (done ++ before.map function) s) ⟨by simpa using prepared,by simpa using start⟩ (by
      rintro before body rest s u s' - ⟨prepared,held⟩ declared
      simpa using And.intro (prepared.declared declared) (invariant.declared prepared held declared))
  exact fields.forM (fun _ _ s => s.Prepared env _ ∧ holds _ _ s) ⟨prepared₁,held₁⟩
    fun _ held declared => ⟨held.1.quiet declared.declareStaticField,invariant.quiet held.1 held.2 declared.declareStaticField⟩

theorem lowerUnitInitializers (member : unit ∈ units)
    (prepared : s.Prepared env done) (start : holds done left s) (run : Runs (lowerUnitInitializers unit) env s u s') :
    s'.Prepared env done ∧ holds done left s' := by
  obtain ⟨pending,s₁,gathered,rest⟩ := runs_bind.mp run
  obtain ⟨rfl,inside⟩ := gathered.pendingInitializers
  split at rest
  · obtain ⟨-,rfl⟩ := runs_pure.mp rest
    exact ⟨prepared,start⟩
  · simp only [runs_bind,runs_log,runs_onModule,and_assoc,exists_and_left,exists_eq_left,exists_const] at rest
    obtain ⟨initializer,s₂,lowered,constructor,s₃,linked,-,rfl⟩ := rest
    have announced := State.Quiet.logged env s₁ (.loweringInitializers pending.length unit.name :: s₁.log)
    have registered : s₃.Quiet env { s₃ with builder := { s₃.builder with
        output := s₃.builder.output.addConstructor constructor } } := .placed s₃ rfl rfl rfl rfl rfl
    have prepared₁ := prepared.quiet announced
    have held₁ := invariant.quiet prepared start announced
    have prepared₂ := prepared₁.initializers lowered
    have held₂ := invariant.initializers member inside prepared₁ held₁ lowered
    have prepared₃ := prepared₂.link linked
    have held₃ := invariant.link prepared₂ held₂ linked
    exact ⟨prepared₃.quiet (registered.trans (.logged ..)),invariant.quiet prepared₃ held₃ (registered.trans (.logged ..))⟩

theorem lowerBodies {bodies : List FunctionBody} (members : bodies ⊆ SourceUnit.bodies units)
    (prepared : s.Prepared env (defined units)) (start : holds (defined units) (bodies.map function ++ left) s)
    (run : Runs (bodies.forM lowerFunction) env s u s') : s'.Prepared env (defined units) ∧ holds (defined units) left s' := by
  refine run.forM (fun _ rest s => s.Prepared env (SourceUnit.defined units) ∧ holds (defined units) (rest.map function ++ left) s)
    ⟨prepared,start⟩ ?_
  rintro before body rest s u s' split ⟨prepared,held⟩ lowered
  have own := members (split ▸ by simp : body ∈ bodies)
  exact ⟨prepared.body lowered,invariant.body own (mem_map_of_mem own) prepared held lowered⟩

theorem lowerUnits {rest : List SourceUnit} (members : rest ⊆ units)
    (prepared : s.Prepared env (defined units)) (start : holds (defined units) (defined rest ++ left) s)
    (run : Runs (rest.forM lowerUnit) env s u s') : s'.Prepared env (defined units) ∧ holds (defined units) left s' := by
  refine run.forM (fun _ later s => s.Prepared env (defined units) ∧ holds (defined units) (defined later ++ left) s) ⟨prepared,start⟩ ?_
  rintro before unit later s u s' split ⟨prepared,held⟩ lowered
  have own := members (split ▸ by simp : unit ∈ rest)
  unfold lowerUnit at lowered
  simp only [runs_bind,runs_log,exists_eq_left,exists_const] at lowered
  obtain ⟨_,s₁,bodies,initializers⟩ := lowered
  have announced : s.Quiet env { s with log := .loweringUnit unit.name :: s.log } := .logged env _ _
  obtain ⟨prepared₁,held₁⟩ := invariant.lowerBodies (fun _ part => mem_flatMap.mpr ⟨unit,own,part⟩)
    (prepared.quiet announced) (invariant.quiet prepared (by simpa [SourceUnit.defined,SourceUnit.bodies] using held) announced) bodies
  exact invariant.lowerUnitInitializers own prepared₁ held₁ initializers

theorem declareUnits (prepared : s.Prepared env []) (start : holds [] [] s)
    (run : Runs (units.forM Lower.declareUnit) env s u s') : s'.Prepared env (defined units) ∧
      holds (defined units) (defined units) s' := by
  refine run.forM (fun before _ s => s.Prepared env (defined before) ∧ holds (defined before) (defined before) s) ⟨prepared,start⟩ ?_
  rintro before unit rest s u s' - ⟨prepared,held⟩ entered
  simpa [defined,bodies] using invariant.declareUnit prepared held entered

theorem lowerProgram
    (start : holds [] [] (start env.settings strings)) (lowered : (lowerProgram env strings units).result = .ok m) :
    ∃ s, s.builder.output = m ∧ s.Prepared env (defined units) ∧ holds (defined units) [] s := by
  have run : Runs (Lower.lowerUnits units) env (State.start env.settings strings) m _ := Prod.ext lowered rfl
  obtain ⟨s₁,s₂,-,declared,filled,rfl,-⟩ := run.lowerUnits_parts
  have prepared := Prepared.start env strings
  have announced : (State.start env.settings strings).Quiet env
    { State.start env.settings strings with log := [.declaringUnits units.length] } := .logged env _ _
  obtain ⟨prepared₁,held₁⟩ := invariant.declareUnits (prepared.quiet announced) (invariant.quiet prepared start announced) declared
  obtain ⟨prepared₂,held₂⟩ : s₂.Prepared env (defined units) ∧ holds (defined units) [] s₂ :=
    invariant.lowerUnits (fun _ h => h) prepared₁ (by rwa [append_nil]) filled
  exact ⟨s₂,rfl,prepared₂,held₂⟩

end

end Invariant

/-- If no function has two bodies, those that remain fill functions that are still empty. -/
theorem filling_invariant (env : Environment) (units : List SourceUnit) : Invariant env units fun done left s =>
    done.Nodup → s.Filling (Procedure.Ended env (SourceUnit.Starts env.decls units)) done left where
  quiet prepared filling quiet single := (filling single).quiet prepared quiet
  declared prepared filling run single := (filling (nodup_append.mp single).1).declared prepared single run
  body {done left body s u s'} member among prepared filling run single := by
    have within : Expr.Within (SourceUnit.Starts env.decls units) body.body := .root (.inl ⟨body,member,rfl⟩)
    obtain ⟨proc,p,p',symbol',found,found',touches,-,-,ended⟩ := run.lowerFunction prepared.toSettled within
    have symbol := (prepared.symbol touches.functions among).symm.trans symbol'
    have full := ended ((filling single).blank (.head _) symbol found)
    exact (filling single).filled prepared single touches found' full (.inl ⟨_,symbol,rfl⟩)
  initializers {done left unit pending s id s'} member inside prepared filling run single := by
    have within : ∀ entry ∈ pending, Expr.Within (SourceUnit.Starts env.decls units) entry.2 :=
      fun entry part => .root (.inr ⟨unit,member,entry.1,inside entry part⟩)
    obtain ⟨new,touches,p,found,-,ended⟩ := run.lowerInitializerFunction prepared.named within
    exact (filling single).filled prepared single touches found ended (.inr ⟨Module.get?_of_symbol? new,rfl⟩)
  link prepared filling run single := by
    obtain ⟨new,touches,p,found,-,ended⟩ := run.lowerInitializerLink prepared.named
    exact (filling single).filled prepared single touches found ended (.inr ⟨Module.get?_of_symbol? new,rfl⟩)

/-- Every function of the output is sound, and each is complete if no function has two bodies. -/
theorem lowerProgram_spec {env : Environment} {units : List SourceUnit} {id : ProcId}
    {p : Procedure} (lowered : (lowerProgram env strings units).result = .ok m) (found : m.procedures.get? id = some p) :
    (∃ supply, p.Sound supply) ∧
      (((bodies units).map function).Nodup → p.Ended env (SourceUnit.Starts env.decls units)) := by
  have start : (start env.settings strings).Filling (Procedure.Ended env (SourceUnit.Starts env.decls units)) [] [] :=
    ⟨suffix_refl _,fun found => nomatch found⟩
  obtain ⟨s,rfl,prepared,filling⟩ := (filling_invariant env units).lowerProgram (fun _ => start) lowered
  refine ⟨prepared.sound found,fun single => ?_⟩
  rcases (filling single).pending found with ⟨-,f,none,-⟩ | ⟨ended,-⟩
  · cases none
  · exact ended

end BlockLowering
