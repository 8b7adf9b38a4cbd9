import BlockLowering.Proofs.LinkedPrograms
import BlockLowering.Proofs.Switches
/-!
Checked output. Where functions are checked as they are left, what has been checked stays as it is, but for the
location of a function that is entered again. The module that a run returns is valid as a whole exactly if no
function has two bodies: for the second one another function of the output is declared, and one of the two stays
empty, where no check looks at it.
-/
namespace BlockLowering
open Lower List State Table
variable {env : Environment}

/-! ### Functions that have passed -/

theorem Validator.shapeFaults_ne_nil {v : Validator} {earlier : List Register} {entries : List (BlockId × Block)} {e : BlockId × Block}
    (inside : e ∈ entries) (isOpen : e.2.isTerminated = false) : v.shapeFaults earlier entries ≠ [] := by
  induction entries generalizing earlier with
  | nil => cases inside
  | cons first rest ih =>
    intro none
    simp only [shapeFaults,append_eq_nil_iff] at none
    rcases mem_cons.mp inside with rfl | later
    · simp [isOpen] at none
    · exact ih later none.2

theorem Procedure.closed_of_valid {p : Procedure} {k : Block} (found : p.graph.block? p.graph.entry = some k)
    (valid : p.validate = []) : p.Closed p.graph.entry := by
  refine ⟨k,found,?_⟩
  cases isOpen : k.isTerminated with
  | true => rfl
  | false =>
    have faults := (append_eq_nil_iff.mp (append_eq_nil_iff.mp valid).1).2
    refine absurd faults (Validator.shapeFaults_ne_nil (e := (p.graph.entry, k)) ?_ isOpen)
    rw [Validator.blocks_new]
    exact mem_filter.mpr ⟨mem_entries_iff.mpr found,decide_eq_true .entry⟩

theorem Procedure.Closed.filled {p : Procedure} (closed : p.Closed p.graph.entry) : p.graph ≠ .new := by
  intro blank
  obtain ⟨k,found,stopped⟩ := closed
  rw [blank] at found
  cases found
  cases stopped

namespace Settings
variable (settings : Settings) (p : Procedure)

theorem finished_finished : settings.finished (settings.finished p) = settings.finished p := by
  unfold finished
  split
  · exact congrArg (fun graph => { p with graph }) p.graph.prune_prune
  · rfl

theorem finished_relocated (location : Location) : settings.finished { p with location } = { settings.finished p with location } := by
  unfold finished
  split <;> rfl

/-- A function has been left and has passed its check. -/
structure Accepts : Prop where
  closed : p.Closed p.graph.entry
  finished : settings.finished p = p
  valid : p.validate = []

variable {settings p}

theorem Accepts.filled (accepts : settings.Accepts p) : p.graph ≠ .new := accepts.closed.filled

end Settings

section
variable {env : Environment} {s s' : State} {id : ProcId} {p : Procedure} {u : Unit}

theorem Lower.Runs.accepted (run : Runs (Lower.finishFunction id) env s u s') (verifies : env.settings.verify = true)
    (settled : s'.Settled env) : ∃ p, s'.builder.output.procedures.get? id = some p ∧ env.settings.Accepts p := by
  obtain ⟨p,log,found,passed,rfl⟩ := run.finished
  have there : (s.builder.output.procedures.modify id env.settings.finished).get? id = some (env.settings.finished p) := by
    rw [get?_modify,if_pos rfl,found,Option.map_some]
  have valid : (env.settings.finished p).validate = [] := by
    rw [Settings.verdict,if_pos verifies,Procedure.verify] at passed
    split at passed
    · assumption
    · cases passed
  obtain ⟨supply,sound⟩ := settled.sound there
  obtain ⟨k,entry⟩ := sound.entry
  exact ⟨_,there,Procedure.closed_of_valid entry valid,env.settings.finished_finished p,valid⟩

theorem Lower.Runs.lowerFunction_again {body : FunctionBody} (run : Runs (Lower.lowerFunction body) env s u s')
    (symbol : s.symbols.functions.get? body.function = some id) (found : s.builder.output.procedures.get? id = some p)
    (accepts : env.settings.Accepts p) : s'.builder.output.procedures.get? id = some { p with location := body.body.location } := by
  obtain ⟨function,proc,q,s₁,s₂,-,symbol₁,found₁,entered,lowered,finished⟩ := run.lowerFunction_parts
  obtain rfl := Option.mem_unique symbol₁ (entered.touches.functions symbol)
  obtain rfl := Option.mem_unique found₁ found
  have here := entered.stands.procedure
  have closed : Procedure.Closed { q with location := body.body.location } q.graph.entry := accepts.closed
  obtain ⟨s₃,idle,idles,-⟩ := runs_body_ended env (closed.isTerminated here entered.stands.cursor) (some function.id) function.returnsVoid _ _ body.body
  obtain rfl := (Prod.mk.inj (lowered.symm.trans idle)).2
  obtain ⟨r,log,there,-,rfl⟩ := finished.finished
  rw [Builder.procedure?,entered.current,Option.bind_some,← idles.builder,there] at here
  show (s₂.builder.output.procedures.modify proc _).get? proc = _
  rw [get?_modify,if_pos rfl,there,here,Option.map_some,Settings.finished_relocated,accepts.finished]

end

/-! ### What has been checked and what nobody looks at -/

/-- Functions with code are in a later state as they are, but for a location. -/
def State.Carries (exact : Prop) (s s' : State) : Prop :=
  ∀ id p, s.builder.output.procedures.get? id = some p → p.graph ≠ .new →
    ∃ location, s'.builder.output.procedures.get? id = some { p with location } ∧ (exact → location = p.location)

namespace State.Carries
variable {exact exact' : Prop} {s₀ s s' : State} {id : ProcId}

theorem refl (s : State) : s.Carries exact s := fun _ p found _ => ⟨p.location,found,fun _ => rfl⟩

theorem step (first : s₀.Carries exact s) (less : exact' → exact)
    (others : ∀ {x}, x ≠ id → s'.builder.output.procedures.get? x = s.builder.output.procedures.get? x)
    (own : ∀ p, s.builder.output.procedures.get? id = some p → p.graph ≠ .new →
      ¬ exact' ∧ ∃ location, s'.builder.output.procedures.get? id = some { p with location }) : s₀.Carries exact' s' := by
  intro x p found filled
  obtain ⟨location,there,same⟩ := first x p found filled
  by_cases here : x = id
  · subst here
    obtain ⟨inexact,location',there'⟩ := own _ there filled
    exact ⟨location',there',fun given => absurd given inexact⟩
  · exact ⟨location,(others here).trans there,fun given => same (less given)⟩

end State.Carries

/-- What holds between the functions, seen from a state that the run has passed. Every function of the output is empty
    or accepted. If all are declared once, the empty ones are those whose bodies are still to come; otherwise there is
    an empty one that no declared function stands for any more. -/
structure State.Checked (env : Environment) (s₀ : State) (done left : List FunctionId) (s : State) : Prop where
  good : ∀ {id p}, s.builder.output.procedures.get? id = some p → p.graph = .new ∨ env.settings.Accepts p
  filling : done.Nodup → s.Filling env.settings.Accepts done left
  orphan : ¬ done.Nodup → ∃ id p, s.builder.output.procedures.get? id = some p ∧ p.graph = .new ∧
    ∀ f ∈ done, s.symbols.functions.get? f ≠ some id
  carries : s₀.Carries done.Nodup s

namespace State.Checked
variable {env : Environment} {done left left' : List FunctionId} {s₀ s s' : State} {id : ProcId} {p : Procedure} {u : Unit}

theorem start (env : Environment) (strings : StringPool) :
    (start env.settings strings).Checked env [] [] (start env.settings strings) := by
  refine ⟨fun found => ?_,fun _ => ⟨suffix_refl _,fun found => ?_⟩,fun double => absurd .nil double,.refl _⟩
  · cases found
  · cases found

theorem quiet (checked : s₀.Checked env done left s) (prepared : s.Prepared env done) (quiet : s.Quiet env s') :
    s₀.Checked env done left s' where
  good found := checked.good (quiet.procedures ▸ found)
  filling single := (checked.filling single).quiet prepared quiet
  orphan double := by
    obtain ⟨x,q,there,blank,unknown⟩ := checked.orphan double
    exact ⟨x,q,quiet.procedures ▸ there,blank,fun f among => prepared.symbol quiet.functions among ▸ unknown f among⟩
  carries id p found filled := quiet.procedures ▸ checked.carries id p found filled

theorem filled (checked : s₀.Checked env done left s) (prepared : s.Prepared env done) (touches : State.Touches env id s s')
    (found : s'.builder.output.procedures.get? id = some p) (accepts : env.settings.Accepts p)
    (own : (∃ f ∈ done, s.symbols.functions.get? f = some id ∧ left = f :: left') ∨
      s.builder.output.procedures.get? id = none ∧ left = left')
    (again : ∀ q, s.builder.output.procedures.get? id = some q → q.graph ≠ .new →
      ¬ done.Nodup ∧ ∃ location, s'.builder.output.procedures.get? id = some { q with location }) : s₀.Checked env done left' s' where
  good there := of_others there touches.others found (.inr accepts) checked.good
  filling single := by
    refine (checked.filling single).filled prepared single touches found accepts (own.imp_left ?_)
    rintro ⟨f,-,own⟩
    exact ⟨f,own⟩
  orphan double := by
    obtain ⟨x,q,there,blank,unknown⟩ := checked.orphan double
    have other : x ≠ id := by
      rintro rfl
      rcases own with ⟨f,among,own,-⟩ | ⟨absent,-⟩
      · exact unknown f among own
      · simp [absent] at there
    exact ⟨x,q,(touches.others other).trans there,blank,
      fun f among => prepared.symbol touches.functions among ▸ unknown f among⟩
  carries := checked.carries.step (fun single => single) touches.others again

theorem declared {f : FunctionId} (checked : s₀.Checked env done done s) (prepared : s.Prepared env done)
    (run : Runs (declareFunction f) env s u s') : s₀.Checked env (done ++ [f]) (done ++ [f]) s' := by
  obtain ⟨proc,function,-,new,entered,others,functions,-⟩ := run.declareFunction prepared.named
  have absent := Module.get?_of_symbol? new
  have before : (done ++ [f]).Nodup → done.Nodup := fun single => (nodup_append.mp single).1
  refine ⟨fun there => of_others there others entered (.inl rfl) checked.good,
    fun single => (checked.filling (before single)).declared prepared single run,fun double => ?_,
    checked.carries.step before others fun p there => by simp [absent] at there⟩
  obtain ⟨x,q,there,blank,unknown⟩ : ∃ x q, s.builder.output.procedures.get? x = some q ∧ q.graph = .new ∧
      ∀ g ∈ done, g ≠ f → s.symbols.functions.get? g ≠ some x := by
    by_cases single : done.Nodup
    · -- The function was declared before, and what it stood for is left behind.
      have again : f ∈ done := by
        refine Classical.byContradiction fun first => double (nodup_append.mpr ⟨single,by simp,?_⟩)
        rintro g among g' last rfl
        exact first (mem_singleton.mp last ▸ among)
      obtain ⟨x,-,q,own,-,there,-⟩ := prepared.place f again
      refine ⟨x,q,there,(checked.filling single).blank again own there,fun g among other own' => ?_⟩
      exact other (prepared.apart among again own' own)
    · obtain ⟨x,q,there,blank,unknown⟩ := checked.orphan single
      exact ⟨x,q,there,blank,fun g among _ => unknown g among⟩
  have other : x ≠ proc := by
    rintro rfl
    simp [absent] at there
  refine ⟨x,q,(others other).trans there,blank,fun g among own => ?_⟩
  rw [functions,get?_insert] at own
  split at own
  · exact other (Option.some.inj own).symm
  · rename_i distinct
    exact unknown g ((mem_append.mp among).resolve_right fun last => distinct (mem_singleton.mp last)) distinct own

theorem completed {roots : Expr → Prop} {t : State} (checked : s₀.Checked env done left s) (verifies : env.settings.verify = true)
    (prepared : s.Prepared env done) (completes : Completes env roots s id s')
    (finished : Runs (Lower.finishFunction id) env t u s') : s₀.Checked env done left s' := by
  obtain ⟨p,found,accepts⟩ := finished.accepted verifies (prepared.completed completes).toSettled
  obtain ⟨new,touches,-⟩ := completes
  have absent := Module.get?_of_symbol? new
  exact checked.filled prepared touches found accepts (.inr ⟨absent,rfl⟩) fun q there => by simp [absent] at there

theorem body {body : FunctionBody} (checked : s₀.Checked env done (body.function :: left) s) (verifies : env.settings.verify = true)
    (prepared : s.Prepared env done) (among : body.function ∈ done) (run : Runs (lowerFunction body) env s u s') :
    s₀.Checked env done left s' := by
  have within : Expr.Within (fun _ => True) body.body := .root trivial
  obtain ⟨id,-,-,symbol',-,-,touches,-⟩ := run.lowerFunction prepared.toSettled within
  have symbol := (prepared.symbol touches.functions among).symm.trans symbol'
  obtain ⟨function,proc,q,s₁,s₂,-,symbol₁,-,entered,-,finished⟩ := run.lowerFunction_parts
  obtain rfl := Option.mem_unique symbol₁ (entered.touches.functions symbol)
  obtain ⟨p,found,accepts⟩ := finished.accepted verifies (prepared.body run).toSettled
  refine checked.filled prepared touches found accepts (.inl ⟨_,among,symbol,rfl⟩) fun q there filled => ⟨fun single => ?_,?_⟩
  · exact filled ((checked.filling single).blank (.head _) symbol there)
  · exact ⟨_,run.lowerFunction_again symbol there ((checked.good there).resolve_left filled)⟩

end State.Checked

/-! ### Whole programs -/

theorem checked_invariant (units : List SourceUnit) (verifies : env.settings.verify = true) (s₀ : State) :
    Invariant env units fun done left s => s₀.Checked env done left s where
  quiet prepared checked quiet := checked.quiet prepared quiet
  declared prepared checked run := checked.declared prepared run
  body _ among prepared checked run := checked.body verifies prepared among run
  initializers {done left unit pending s id s'} _ _ prepared checked run := by
    obtain ⟨s₁,s₂,-,-,-,finished⟩ := run.lowerInitializerFunction_parts prepared.named
    have within : ∀ entry ∈ pending, Expr.Within (fun _ => True) entry.2 := fun _ _ => .root trivial
    exact checked.completed verifies prepared (run.lowerInitializerFunction prepared.named within) finished
  link {done left unit initializer s id s'} prepared checked run := by
    obtain ⟨node,s₁,s₂,scopes,-,-,-,finished⟩ := run.lowerInitializerLink_parts prepared.named
    have completes : Completes env (fun _ => True) s id s' := run.lowerInitializerLink prepared.named
    exact checked.completed verifies prepared completes finished

/-- Lowering of units up to some of the functions of one of them. -/
def Lower.lowerUpTo (units before : List SourceUnit) (unit : SourceUnit) (bodies : List FunctionBody) : Lower Unit := do
  log (.declaringUnits units.length)
  units.forM declareUnit
  before.forM lowerUnit
  log (.loweringUnit unit.name)
  bodies.forM lowerFunction

theorem Lower.runs_forM_append {α : Type} {f : α → Lower PUnit} {xs ys : List α} {s s' : State} {u : PUnit} :
    Runs ((xs ++ ys).forM f) env s u s' ↔ ∃ s₁, Runs (xs.forM f) env s ⟨⟩ s₁ ∧ Runs (ys.forM f) env s₁ u s' := by
  rw [forM_eq_forM,forM_append,runs_bind]
  exact ⟨fun run => run.elim fun _ run => run,fun run => ⟨⟨⟩,run⟩⟩

/-- At every point between functions, those with code are accepted, and the module has them as they are, but for the
    location of one that is entered again. -/
theorem Lower.Runs.lowerUnits_upTo {units before after : List SourceUnit} {unit : SourceUnit}
    {first rest : List FunctionBody} {m : Module} {s : State}
    (run : Runs (lowerUnits units) env (start env.settings .empty) m s) (verifies : env.settings.verify = true)
    (split : units = before ++ unit :: after) (own : unit.functions = first ++ rest) :
    ∃ s₁, Runs (lowerUpTo units before unit first) env (start env.settings .empty) () s₁ ∧
      (∀ {id p}, s₁.builder.output.procedures.get? id = some p → p.graph = .new ∨ env.settings.Accepts p) ∧
      s₁.Carries (SourceUnit.defined units).Nodup s ∧ s.builder.output = m := by
  obtain ⟨s₁,s₆,_,declared,filled,rfl,rfl⟩ := run.lowerUnits_parts
  rw [split,runs_forM_append] at filled
  obtain ⟨s₂,filled₂,filled⟩ := filled
  obtain ⟨_,s₅,lowered,filled₆⟩ := runs_bind.mp filled
  unfold lowerUnit at lowered
  simp only [runs_bind,runs_log,exists_eq_left,exists_const,own,runs_forM_append] at lowered
  obtain ⟨_,s₄,⟨s₃,filled₃,filled₄⟩,initialized⟩ := lowered
  have here : unit ∈ units := by simp [split]
  have members : ∀ {bodies}, bodies ⊆ unit.functions → bodies ⊆ SourceUnit.bodies units :=
    fun part body inside => mem_flatMap.mpr ⟨unit,here,part inside⟩
  have all : SourceUnit.defined units = SourceUnit.defined before ++ (first.map FunctionBody.function ++
      (rest.map FunctionBody.function ++ (SourceUnit.defined after ++ []))) := by
    simp [SourceUnit.defined,SourceUnit.bodies,split,own]
  have up := checked_invariant units verifies (start env.settings .empty)
  have prepared := Prepared.start env .empty
  have announced : (start env.settings .empty).Quiet env
    { start env.settings .empty with log := [.declaringUnits units.length] } := .logged env _ _
  obtain ⟨prepared₁,checked₁⟩ := up.declareUnits (prepared.quiet announced) (up.quiet prepared (.start env .empty) announced) declared
  have checked₁ : (start env.settings .empty).Checked env (SourceUnit.defined units) (SourceUnit.defined before ++ _) s₁ :=
    Eq.mp (congrArg (fun left => State.Checked env _ (SourceUnit.defined units) left s₁) all) checked₁
  obtain ⟨prepared₂,checked₂⟩ := up.lowerUnits (by simp [split]) prepared₁ checked₁ filled₂
  have entered : s₂.Quiet env { s₂ with log := .loweringUnit unit.name :: s₂.log } := .logged env _ _
  obtain ⟨prepared₃,checked₃⟩ := up.lowerBodies (members (by simp [own])) (prepared₂.quiet entered) (up.quiet prepared₂ checked₂ entered) filled₃
  -- From the point on, seen from there.
  have on := checked_invariant units verifies s₃
  obtain ⟨prepared₄,checked₄⟩ := on.lowerBodies (members (by simp [own])) prepared₃ { checked₃ with carries := .refl s₃ } filled₄
  obtain ⟨prepared₅,checked₅⟩ := on.lowerUnitInitializers here prepared₄ checked₄ initialized
  obtain ⟨-,checked₆⟩ := on.lowerUnits (fun unit inside => by simp [split,inside]) prepared₅ checked₅ filled₆
  refine ⟨s₃,?_,checked₃.good,checked₆.carries,rfl⟩
  simp only [lowerUpTo,runs_bind,runs_log,exists_eq_left,exists_const]
  exact ⟨_,s₁,declared,_,s₂,filled₂,filled₃⟩

/-- Where functions are checked, those of a module that is returned are valid or without code, and all are valid
    exactly if no function has two bodies. At every point between functions, those with code are valid, and the
    module has them as they are; but one that gets a second body takes the location of that. -/
theorem lowerModule_verified {settings : Settings} {decls : Declarations} {units : List SourceUnit} {m : Module}
    (verifies : settings.verify = true) (lowered : (lowerModule settings decls units).result = .ok m) :
    (m.validate = [] ↔ (SourceUnit.defined units).Nodup) ∧ (∀ id p, m.procedures.get? id = some p → p.validate = [] ∨ p.graph = .new) ∧
    ∀ before unit after first rest, units = before ++ unit :: after → unit.functions = first ++ rest →
      ∃ s, Runs (Lower.lowerUpTo units before unit first) ⟨decls,settings,.ofDeclarations decls⟩ (State.start settings .empty) () s ∧
        ∀ id p, s.builder.output.procedures.get? id = some p → p.graph ≠ .new → p.validate = [] ∧
          ∃ location, m.procedures.get? id = some { p with location } ∧ ((SourceUnit.defined units).Nodup → location = p.location) := by
  have invariant : Invariant ⟨decls,settings,.ofDeclarations decls⟩ units _ := checked_invariant units verifies (State.start settings .empty)
  obtain ⟨s,rfl,-,checked⟩ := invariant.lowerProgram (.start _ .empty) lowered
  refine ⟨⟨fun valid => ?_,fun single => flatMap_eq_nil_iff.mpr fun p inside => ?_⟩,fun id p found => ?_,?_⟩
  · refine Classical.byContradiction fun double => ?_
    obtain ⟨id,p,found,blank,-⟩ := checked.orphan double
    have passes := flatMap_eq_nil_iff.mp valid p (Table.mem_values_iff.mpr ⟨id,found⟩)
    exact (Procedure.closed_of_valid (by rw [blank]; rfl) passes).filled blank
  · obtain ⟨id,found⟩ := Table.mem_values_iff.mp inside
    rcases (checked.filling single).pending found with ⟨-,f,none,-⟩ | ⟨accepts,-⟩
    · cases none
    · exact accepts.valid
  · exact (checked.good found).symm.imp_left Settings.Accepts.valid
  · intro before unit after first rest split own
    obtain ⟨t,run⟩ := lowerModule_eq_ok.mp lowered
    obtain ⟨s₁,reached,good,carries,same⟩ := run.lowerUnits_upTo verifies split own
    refine ⟨s₁,reached,fun id p found filled => ⟨((good found).resolve_left filled).valid,?_⟩⟩
    exact same ▸ carries id p found filled

theorem guardedUnit_verified : ∃ m, (lowerModule .development guardedDecls [guardedUnit]).result = .ok m ∧
    (SourceUnit.defined [guardedUnit]).Nodup ∧ m.validate = [] ∧
    ∃ s, Runs (Lower.lowerUpTo [guardedUnit] [] guardedUnit guardedUnit.functions)
        ⟨guardedDecls,.development,.ofDeclarations guardedDecls⟩ (State.start .development .empty) () s ∧
      ∀ id p, s.builder.output.procedures.get? id = some p → p.graph ≠ .new → m.procedures.get? id = some p := by
  obtain ⟨m,lowered,-⟩ := exists_module .development guardedDecls [guardedUnit] (fun _ => true) (by decide +kernel)
  obtain ⟨valid,-,kept⟩ := lowerModule_verified rfl lowered
  have single : (SourceUnit.defined [guardedUnit]).Nodup := by decide
  obtain ⟨s,reached,carried⟩ := kept [] guardedUnit [] guardedUnit.functions [] rfl (append_nil _).symm
  refine ⟨m,lowered,single,valid.mpr single,s,reached,fun id p found filled => ?_⟩
  obtain ⟨-,location,there,same⟩ := carried id p found filled
  obtain rfl := same single
  exact there

def doubledUnit : SourceUnit := ⟨"m",[⟨⟨0⟩,.unit⟩,⟨⟨0⟩,.unit⟩],[]⟩

def doubledDecls : Declarations := .ofLists [] [.topLevel ⟨0⟩ "f" [] .unit] []

/-- The function that was declared first is left without code, and the module is not valid although all functions
    have been checked. -/
theorem doubledUnit_not_valid : Settings.development.verify = true ∧
    ∃ m, (lowerModule .development doubledDecls [doubledUnit]).result = .ok m ∧ m.validate = [⟨.missingTerminator,⟨0⟩,some .first⟩] := by
  obtain ⟨m,lowered,passed⟩ := exists_module .development doubledDecls [doubledUnit]
    (fun m => decide (m.validate = [⟨.missingTerminator,⟨0⟩,some .first⟩])) (by decide +kernel)
  exact ⟨rfl,m,lowered,of_decide_eq_true passed⟩

end BlockLowering
