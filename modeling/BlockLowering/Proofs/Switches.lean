import BlockLowering.Proofs.ComparedPrograms
import BlockLowering.Proofs.Pruning
/-!
The switches of a run and the code that it gives. Checking the functions changes nothing unless a check fails,
pruning as the functions are left gives what pruning all of them at the end would, and without labels the same
blocks are built.
-/
namespace BlockLowering
open Settings BlockLowering.Graph Except Table

/-- An error without the listing that it carries. -/
def Error.unlisted : Error → Error
  | .verification procedure diagnostics _ => .verification procedure diagnostics ""
  | e => e

theorem Procedure.verify_alike (p q : Procedure) (name : p.name = q.name) (validate : p.validate = q.validate) :
    p.verify = .ok () ∧ q.verify = .ok () ∨ ∃ e e', p.verify = .error e ∧ q.verify = .error e' ∧ e.unlisted = e'.unlisted := by
  unfold verify
  rw [validate,name]
  split
  · exact .inl ⟨rfl,rfl⟩
  · exact .inr ⟨_,_,rfl,rfl,rfl⟩

theorem Procedure.pruned_blank {p : Procedure} (blank : p.graph = .new) : p.pruned = p := by
  show ({ p with graph := p.graph.prune } : Procedure) = p
  rw [blank,prune_new,← blank]

namespace Procedure.Shown

theorem whole : Shown fun p => p where
  header _ := rfl
  entry _ := rfl
  closed _ := Iff.rfl
  relocated _ _ := rfl

theorem pruned : Shown Procedure.pruned where
  header _ := rfl
  entry _ := rfl
  closed p := by
    have entry : p.pruned.graph.block? p.graph.entry = (p.graph.block? p.graph.entry).map p.graph.trimmed :=
      block?_prune.trans (if_pos .entry)
    unfold Closed
    rw [entry]
    cases p.graph.block? p.graph.entry <;> simp [trimmed,Block.keepPredecessors,Block.isTerminated]
  relocated _ _ := rfl

theorem unlabelled : Shown Procedure.unlabelled where
  header _ := rfl
  entry _ := rfl
  closed p := by
    unfold Closed
    rw [Procedure.block?_unlabelled]
    cases p.graph.block? p.graph.entry <;> simp [Block.unlabelled,Block.isTerminated]
  relocated _ _ := rfl

end Procedure.Shown

namespace Settings
variable (settings : Settings)

theorem unlabelled_finished (p : Procedure) : (settings.finished p).unlabelled = settings.finished p.unlabelled := by
  unfold finished
  split
  · show ({ p with graph := p.graph.prune.unlabelled } : Procedure) = { p with graph := p.graph.unlabelled.prune }
    rw [unlabelled_prune]
  · rfl

theorem validate_finished (p : Procedure) : (settings.finished p).validate = p.validate := by
  unfold finished
  split
  · exact p.validate_pruned
  · rfl

theorem verdict_alike (settings settings' : Settings) {p q : Procedure} (verify : settings.verify = settings'.verify)
    (name : p.name = q.name) (validate : p.validate = q.validate) : settings.verdict p = .ok () ∧ settings'.verdict q = .ok () ∨
      settings.verify = true ∧ ∃ e e', settings.verdict p = .error e ∧ settings'.verdict q = .error e' ∧ e.unlisted = e'.unlisted := by
  unfold verdict
  rw [← verify]
  by_cases on : settings.verify = true
  · rw [if_pos on,if_pos on]
    have alike := Procedure.verify_alike (settings.finished p) (settings'.finished q)
      (by rw [name_finished,name_finished,name]) (by rw [validate_finished,validate_finished,validate])
    exact alike.imp_right fun failed => ⟨on,failed⟩
  · rw [if_neg on,if_neg on]
    exact .inl ⟨rfl,rfl⟩

end Settings

namespace Comparison
variable (env : Environment)

/-- A run that checks functions against one that does not. -/
def checking : Comparison where
  first := { env with settings := { env.settings with verify := true } }
  second := { env with settings := { env.settings with verify := false } }
  blind := false
  left p := p
  right p := p
  same e e' := e = e'
  excused e := ∃ procedure diagnostics listing, e = .verification procedure diagnostics listing
  alike := ⟨rfl,rfl,rfl⟩
  named := rfl
  labels _ := rfl
  refl _ := rfl
  shownLeft := .whole
  shownRight := .whole
  fresh _ _ := rfl
  starts _ _ same _ := same
  finishes p q same := by
    obtain rfl : p = q := same.elim id id
    rfl
  judges p q same := by
    rcases verdict_cases { env.settings with verify := true } p with passed | failed
    · exact .inl ⟨passed,rfl⟩
    · obtain ⟨procedure,diagnostics,listing,failed⟩ := failed
      exact .inr (.inr ⟨_,failed,procedure,diagnostics,listing,rfl⟩)

/-- A run that keeps the dead blocks against one that drops them. -/
def pruning : Comparison where
  first := { env with settings := { env.settings with prune := false } }
  second := { env with settings := { env.settings with prune := true } }
  blind := false
  left := Procedure.pruned
  right p := p
  same e e' := (env.settings.verify = false → e = e') ∧ e.unlisted = e'.unlisted
  excused _ := False
  alike := ⟨rfl,rfl,rfl⟩
  named := rfl
  labels _ := rfl
  refl _ := ⟨fun _ => rfl,rfl⟩
  shownLeft := .pruned
  shownRight := .whole
  fresh _ blank := Procedure.pruned_blank blank
  starts _ _ same blank := (Procedure.pruned_blank blank).symm.trans same
  finishes p q same := by
    rcases same with same | same
    · obtain rfl : p = q := same
      rfl
    · obtain rfl : p.pruned = q := same
      exact congrArg (fun graph => { p with graph }) p.graph.prune_prune.symm
  judges p q same := by
    have alike : p.name = q.name ∧ p.validate = q.validate := by
      rcases same with same | same
      · obtain rfl : p = q := same
        exact ⟨rfl,rfl⟩
      · obtain rfl : p.pruned = q := same
        exact ⟨rfl,p.validate_pruned.symm⟩
    rcases verdict_alike { env.settings with prune := false } { env.settings with prune := true } rfl alike.1 alike.2 with passed | ⟨on,e,e',failed,failed',unlisted⟩
    · exact .inl passed
    · exact .inr (.inl ⟨e,e',failed,failed',fun off => absurd (off.symm.trans on) Bool.false_ne_true,unlisted⟩)

/-- A run that keeps labels against one that does not. -/
def labelling : Comparison where
  first := { env with settings := { env.settings with emitLabels := true } }
  second := { env with settings := { env.settings with emitLabels := false } }
  blind := true
  left := Procedure.unlabelled
  right := Procedure.unlabelled
  same e e' := e.unlisted = e'.unlisted
  excused _ := False
  alike := ⟨rfl,rfl,rfl⟩
  named := rfl
  labels sighted := by cases sighted
  refl _ := rfl
  shownLeft := .unlabelled
  shownRight := .unlabelled
  fresh _ _ := rfl
  starts _ _ same _ := same
  finishes p q same := by
    have same : p.unlabelled = q.unlabelled := same.elim id id
    rw [unlabelled_finished,unlabelled_finished,same]
    rfl
  judges p q same := by
    have same : p.unlabelled = q.unlabelled := same.elim id id
    have name : p.name = q.name := show p.unlabelled.name = q.unlabelled.name from congrArg Procedure.name same
    have validate : p.validate = q.validate := by rw [← p.validate_unlabelled,same,q.validate_unlabelled]
    rcases verdict_alike { env.settings with emitLabels := true } { env.settings with emitLabels := false } rfl name
      validate with passed | ⟨-,e,e',failed⟩
    · exact .inl passed
    · exact .inr (.inl ⟨e,e',failed⟩)

theorem Agrees.results {c : Comparison} {result result' : Except Error Module} (agrees : c.Agrees result result') (f : Error → Error)
    (same : ∀ {e e'}, c.same e e' → f e = f e') (never : ∀ {e}, ¬c.excused e) :
    (result.map fun m => m.mapProcedures c.left).mapError f = (result'.map fun m => m.mapProcedures c.right).mapError f := by
  cases agrees with
  | shown shown => exact congrArg ok shown
  | failed alike => exact congrArg error (same alike)
  | excused excused => exact absurd excused never

end Comparison

theorem Module.mapProcedures_self (m : Module) : (m.mapProcedures fun p => p) = m := by
  have same : (m.procedures.mapValues fun p => p) = m.procedures :=
    ext_keys (keys_mapValues _ _) fun id => by rw [get?_mapValues,Option.map_id']
  exact congrArg (fun procedures => { m with procedures }) same

theorem Module.map_mapProcedures_self (result : Except Error Module) : (result.map fun m => m.mapProcedures fun p => p) = result := by
  cases result with
  | error e => rfl
  | ok m => exact congrArg ok m.mapProcedures_self

/-- A check that fails is all that checking can change, dead blocks may as well be dropped at the end, and labels are
    the only trace of the labels. -/
theorem lowerModule_switches (settings : Settings) (decls : Declarations) (units : List SourceUnit) : ((∃ procedure diagnostics listing,
        (lowerModule { settings with verify := true } decls units).result = .error (.verification procedure diagnostics listing)) ∨
      (lowerModule { settings with verify := true } decls units).result = (lowerModule { settings with verify := false } decls units).result) ∧
    (lowerModule { settings with verify := false, prune := true } decls units).result =
      (lowerModule { settings with verify := false, prune := false } decls units).result.map (fun m => m.mapProcedures Procedure.pruned) ∧
    (lowerModule { settings with verify := true, prune := true } decls units).result.mapError Error.unlisted =
      ((lowerModule { settings with verify := true, prune := false } decls units).result.map fun m =>
        m.mapProcedures Procedure.pruned).mapError Error.unlisted ∧
    ((lowerModule { settings with emitLabels := true } decls units).result.map fun m =>
        m.mapProcedures Procedure.unlabelled).mapError Error.unlisted =
      ((lowerModule { settings with emitLabels := false } decls units).result.map fun m =>
        m.mapProcedures Procedure.unlabelled).mapError Error.unlisted := by
  refine ⟨?_,?_,?_,?_⟩
  · have agrees : (Comparison.checking ⟨decls,settings,.ofDeclarations decls⟩).Agrees
        (lowerModule { settings with verify := true } decls units).result
        (lowerModule { settings with verify := false } decls units).result := Comparison.agrees _ .empty units
    revert agrees
    generalize (lowerModule { settings with verify := true } decls units).result = result
    generalize (lowerModule { settings with verify := false } decls units).result = result'
    intro agrees
    cases agrees with
    | @shown m m' same => exact .inr (congrArg Except.ok (m.mapProcedures_self.symm.trans (same.trans m'.mapProcedures_self)))
    | failed same => exact .inr (congrArg Except.error same)
    | excused report =>
      obtain ⟨procedure,diagnostics,listing,rfl⟩ := report
      exact .inl ⟨procedure,diagnostics,listing,rfl⟩
  · have agrees := (Comparison.pruning ⟨decls,{ settings with verify := false },.ofDeclarations decls⟩).agrees .empty units
    have results := agrees.results id (fun same => same.1 rfl) fun never => never
    have plain : ∀ result : Except Error Module, result.mapError id = result := fun result => by cases result <;> rfl
    rw [plain,plain] at results
    exact (Module.map_mapProcedures_self _).symm.trans results.symm
  · have agrees := (Comparison.pruning ⟨decls,{ settings with verify := true },.ofDeclarations decls⟩).agrees .empty units
    have results := agrees.results Error.unlisted (fun same => same.2) fun never => never
    exact (congrArg _ (Module.map_mapProcedures_self _).symm).trans results.symm
  · have agrees := (Comparison.labelling ⟨decls,settings,.ofDeclarations decls⟩).agrees .empty units
    exact agrees.results Error.unlisted (fun same => same) fun never => never

end BlockLowering
