import BlockLowering.Pass.Program
import BlockLowering.Proofs.Effects
import BlockLowering.Proofs.Reachability
/-!
Functions of the output as they are declared, entered and left. A function that is left is pruned and checked as
the settings say, and what becomes of it depends on nothing else.
-/
namespace BlockLowering
open Build Procedure Settings

/-- A function once it is left. -/
def Settings.finished (settings : Settings) (p : Procedure) : Procedure := if settings.prune then p.pruned else p

theorem Settings.finished_cases (settings : Settings) (p : Procedure) : settings.finished p = p ∨ settings.finished p = p.pruned := by
  unfold finished
  split
  · exact .inr rfl
  · exact .inl rfl

theorem Settings.name_finished (settings : Settings) (p : Procedure) : (settings.finished p).name = p.name := by
  unfold finished
  split <;> rfl

/-- The outcome of the check that a function goes through when it is left. -/
def Settings.verdict (settings : Settings) (p : Procedure) : Except Error Unit :=
  if settings.verify then (settings.finished p).verify else .ok ()

theorem Settings.verdict_cases (settings : Settings) (p : Procedure) : settings.verdict p = .ok () ∨
    ∃ procedure diagnostics listing, settings.verdict p = .error (.verification procedure diagnostics listing) := by
  unfold verdict Procedure.verify
  split
  · split
    · exact .inl rfl
    · exact .inr ⟨_,_,_,rfl⟩
  · exact .inl rfl

namespace Lower
variable {env : Environment} {s s' : State} {id : ProcId} {p : Procedure} {α β : Type}

theorem Runs.run_bind {m : Lower α} {a : α} (run : Runs m env s a s') (f : α → Lower β) :
    ((m >>= f).run env).run.run s = ((f a).run env).run.run s' := by
  rw [Lower.run_bind,run]

theorem runs_declareProcedure {name : String} {header : Header} :
    Runs (build (declareProcedure name header)) env s id s' ↔ id = ⟨s.builder.output.nextProcedure⟩ ∧
      s' = { s with builder := { s.builder with output := s.builder.output.takeProcedureId.2.addProcedure (.new id name header) } } := by
  rw [runs_build]
  constructor
  · rintro ⟨builder,built,rfl⟩
    obtain ⟨rfl,rfl⟩ := Build.runs_pure.mp built
    exact ⟨rfl,rfl⟩
  · rintro ⟨rfl,rfl⟩
    exact ⟨_,Build.runs_pure.mpr ⟨rfl,rfl⟩,rfl⟩

theorem runs_begin (env : Environment) (location : Location) (found : s.builder.output.procedures.get? id = some p) : Runs (build do
      beginProcedure id
      modifyProcedure fun p => { p with location }) env s () { s with
        builder := ({ s.builder with current := some id, cursor := some p.graph.entry } : Builder).modifyProcedure fun p =>
          { p with location } } := by
  have begun : Build.Runs (beginProcedure id) s.builder () { s.builder with current := some id, cursor := some p.graph.entry } := by
    refine Build.runs_bind.mpr ⟨_,_,Build.runs_get.mpr ⟨rfl,rfl⟩,?_⟩
    rw [found]
    exact Build.runs_modify.mpr rfl
  exact runs_build.mpr ⟨_,Build.runs_bind.mpr ⟨(),_,begun,Build.runs_modify.mpr rfl⟩,rfl⟩

theorem Runs.begun {location : Location} {u : Unit} (run : Runs (build do
      beginProcedure id
      modifyProcedure fun p => { p with location }) env s u s') :
    ∃ p, s.builder.output.procedures.get? id = some p ∧ s' = { s with
      builder := ({ s.builder with current := some id, cursor := some p.graph.entry } : Builder).modifyProcedure fun p =>
          { p with location } } := by
  cases found : s.builder.output.procedures.get? id with
  | none =>
    obtain ⟨builder,built,-⟩ := runs_build.mp run
    obtain ⟨_,b₁,begun,-⟩ := Build.runs_bind.mp built
    simp only [Build.beginProcedure,Build.runs_bind,Build.runs_get,and_assoc,exists_and_left,exists_eq_left,found] at begun
    exact absurd begun Build.runs_breach
  | some p => exact ⟨p,rfl,(Prod.mk.inj (run.symm.trans (runs_begin env location found))).2⟩

theorem runs_outputProcedure : Runs (outputProcedure id) env s p s' ↔ s.builder.output.procedures.get? id = some p ∧ s' = s := by
  unfold outputProcedure
  simp only [runs_bind,runs_get,and_assoc,exists_and_left,exists_eq_left]
  cases s.builder.output.procedures.get? id with
  | none => simp
  | some q => simp [eq_comm]

theorem run_verify (env : Environment) (s : State) (p : Procedure) : ∃ log, ((verify p).run env).run.run s = (p.verify, { s with log }) := by
  have lifted : ∀ s : State, ((liftM p.verify : Lower Unit).run env).run.run s = (p.verify, s) := by
    intro s
    cases p.verify <;> rfl
  have logged : ∀ (s : State) event, Runs (log event) env s () { s with log := event :: s.log } := fun _ _ => runs_log.mpr rfl
  unfold verify
  split
  · rw [(logged s _).run_bind,Runs.run_bind (runs_read.mpr ⟨rfl,rfl⟩)]
    split
    · rw [(logged _ _).run_bind,Runs.run_bind (runs_get.mpr ⟨rfl,rfl⟩),(logged _ _).run_bind]
      exact ⟨_,lifted _⟩
    · exact ⟨_,lifted _⟩
  · exact ⟨_,lifted _⟩

theorem runs_pruneProcedure (env : Environment) (found : s.builder.output.procedures.get? id = some p) : ∃ log, Runs (pruneProcedure id) env s ()
    { s with builder := { s.builder with output := s.builder.output.modifyProcedure id pruned }, log } := by
  unfold pruneProcedure
  simp only [runs_bind,runs_outputProcedure,runs_modify,and_assoc,exists_and_left,exists_eq_left,found,Option.some.injEq,
    exists_eq_left']
  by_cases drops : 0 < p.graph.prunedCount
  · rw [if_pos drops]
    exact ⟨_,(),runs_log.mpr rfl⟩
  · rw [if_neg drops]
    exact ⟨_,(),runs_pure.mpr ⟨rfl,rfl⟩⟩

theorem run_finishFunction (env : Environment) (found : s.builder.output.procedures.get? id = some p) : ∃ log,
    ((finishFunction id).run env).run.run s = (env.settings.verdict p, { s with
      builder := { s.builder with
        output := s.builder.output.modifyProcedure id env.settings.finished
        current := none
        cursor := none }
      log }) := by
  have checked : ∀ t : State, t.builder.output.procedures.get? id = some (env.settings.finished p) → ∃ log,
      ((do if (← read).settings.verify then verify (← outputProcedure id) : Lower Unit).run env).run.run t =
        (env.settings.verdict p, { t with log }) := by
    intro t there
    unfold verdict
    rw [Runs.run_bind (runs_read.mpr ⟨rfl,rfl⟩)]
    split
    · rw [Runs.run_bind (runs_outputProcedure.mpr ⟨there,rfl⟩)]
      exact run_verify env t _
    · exact ⟨_,rfl⟩
  obtain ⟨t,left,same⟩ : ∃ t, Runs (build finishProcedure) env s () t ∧
      t = { s with builder := { s.builder with current := none, cursor := none } } :=
    ⟨_,runs_build.mpr ⟨_,Build.runs_modify.mpr rfl,rfl⟩,rfl⟩
  have there : t.builder.output.procedures.get? id = some p := by rw [same]; exact found
  unfold finishFunction
  rw [left.run_bind,Runs.run_bind (runs_outputProcedure.mpr ⟨there,rfl⟩),Runs.run_bind (runs_read.mpr ⟨rfl,rfl⟩)]
  by_cases prune : env.settings.prune = true
  · have finished : env.settings.finished = pruned := by
      funext q
      rw [finished,if_pos prune]
    obtain ⟨log,pruned⟩ := runs_pruneProcedure env there
    rw [if_pos prune,pruned.run_bind,finished]
    subst same
    refine checked _ ?_
    show (s.builder.output.procedures.modify id Procedure.pruned).get? id = _
    rw [finished,Table.get?_modify,if_pos rfl,found,Option.map_some]
  · have finished : ∀ q, env.settings.finished q = q := by
      intro q
      rw [finished,if_neg prune]
    have output : s.builder.output.modifyProcedure id env.settings.finished = s.builder.output :=
      congrArg (fun procedures => { s.builder.output with procedures }) (Table.modify_self _ id finished)
    rw [if_neg prune,output]
    subst same
    exact checked _ (there.trans (congrArg some (finished p).symm))

theorem Runs.finished {u : Unit} (run : Runs (finishFunction id) env s u s') :
    ∃ p log, s.builder.output.procedures.get? id = some p ∧ env.settings.verdict p = .ok () ∧ s' = { s with
      builder := { s.builder with
        output := s.builder.output.modifyProcedure id env.settings.finished
        current := none
        cursor := none }
      log } := by
  obtain ⟨p,found⟩ : ∃ p, s.builder.output.procedures.get? id = some p := by
    unfold finishFunction at run
    simp only [runs_bind,runs_outputProcedure,and_assoc,exists_and_left,exists_eq_left] at run
    obtain ⟨_,s₁,left,p,found,-⟩ := run
    obtain ⟨builder,built,rfl⟩ := runs_build.mp left
    obtain rfl := Build.runs_modify.mp built
    exact ⟨p,found⟩
  obtain ⟨log,outcome⟩ := run_finishFunction env found
  obtain ⟨passed,ended⟩ := Prod.mk.inj (outcome.symm.trans run)
  exact ⟨p,log,found,passed,ended.symm⟩

end Lower

end BlockLowering
