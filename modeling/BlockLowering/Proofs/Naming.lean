import BlockLowering.Proofs.Effects
/-!
The names that numbers stand for. Functions, defined or external, and globals are entered under numbers
that were never used before, so that a number keeps its name for good, and the symbols of a run name
what they were entered for.
-/
namespace BlockLowering
open Table Nat BlockLowering.Module Option
variable {m : Module} {target : CallTarget} {role : GlobalRole}

namespace Module

def symbol? (m : Module) (id : ProcId) : Option String :=
  ((m.procedures.get? id).map Procedure.name).or ((m.externs.get? id).map ExternProcedure.name)

def globalName? (m : Module) (id : GlobalId) : Option String := (m.globals.get? id).map Global.name

/-- The supplies of numbers are ahead of every number in use. -/
structure Numbered (m : Module) : Prop where
  procedures : ∀ {id p}, m.procedures.get? id = some p → id.index < m.nextProcedure
  externs : ∀ {id e}, m.externs.get? id = some e →
    id.index < m.nextProcedure ∧ e.id = id ∧ m.procedures.get? id = none
  globals : ∀ {id g}, m.globals.get? id = some g → id.index < m.nextGlobal

/-- Numbers keep their names, and globals stay as they are. -/
structure Keeps (m m' : Module) : Prop where
  symbols : ∀ {id name}, m.symbol? id = some name → m'.symbol? id = some name
  globals : ∀ {id g}, m.globals.get? id = some g → m'.globals.get? id = some g

theorem Keeps.refl (m : Module) : Keeps m m := ⟨fun h => h,fun h => h⟩

theorem Keeps.trans {m₁ m₂ m₃ : Module} (first : Keeps m₁ m₂) (second : Keeps m₂ m₃) : Keeps m₁ m₃ :=
  ⟨fun h => second.symbols (first.symbols h),fun h => second.globals (first.globals h)⟩

theorem Keeps.globalName {id : GlobalId} {name : String} (keeps : Keeps m m') (named : m.globalName? id = some name) :
    m'.globalName? id = some name := by
  obtain ⟨g,found,rfl⟩ := map_eq_some_iff.mp named
  rw [globalName?,keeps.globals found,map_some]

theorem Keeps.unused {id : ProcId} (keeps : Keeps m m') (unused : m'.symbol? id = none) : m.symbol? id = none := by
  cases named : m.symbol? id with
  | none => rfl
  | some name => simp [keeps.symbols named] at unused

variable {m : Module}
variable {m' : Module}

theorem Numbered.of_same (numbered : Numbered m) (procedures : m'.procedures = m.procedures)
    (externs : m'.externs = m.externs) (globals : m'.globals = m.globals)
    (nextProcedure : m'.nextProcedure = m.nextProcedure) (nextGlobal : m'.nextGlobal = m.nextGlobal) : Numbered m' where
  procedures found := by
    rw [procedures] at found
    rw [nextProcedure]
    exact numbered.procedures found
  externs found := by
    rw [externs] at found
    rw [nextProcedure,procedures]
    exact numbered.externs found
  globals found := by
    rw [globals] at found
    rw [nextGlobal]
    exact numbered.globals found

theorem Keeps.of_same (procedures : m'.procedures = m.procedures)
    (externs : m'.externs = m.externs) (globals : m'.globals = m.globals) : Keeps m m' := by
  refine ⟨fun h => ?_,fun h => ?_⟩
  · rwa [symbol?,procedures,externs]
  · rwa [globals]

theorem declareExtern_spec (numbered : Numbered m) (name : String) (header : Header) (canThrow : Bool) :
    (m.declareExtern name header canThrow).2.Numbered ∧ m.Keeps (m.declareExtern name header canThrow).2 ∧
      (m.declareExtern name header canThrow).2.symbol? (m.declareExtern name header canThrow).1 = some name ∧
      (m.declareExtern name header canThrow).2.procedures = m.procedures := by
  unfold declareExtern
  cases found : m.findExtern? name with
  | some id =>
    refine ⟨numbered,.refl m,?_,rfl⟩
    obtain ⟨e,picked,rfl⟩ := map_eq_some_iff.mp found
    obtain ⟨key,entered⟩ := mem_values_iff.mp (List.mem_of_find?_eq_some picked)
    obtain ⟨-,rfl,undefined⟩ := numbered.externs entered
    have named : e.name = name := by simpa using List.find?_some picked
    simp [symbol?,undefined,entered,named]
  | none =>
    have newProcedure : m.procedures.get? ⟨m.nextProcedure⟩ = none := by
      cases there : m.procedures.get? ⟨m.nextProcedure⟩ with
      | none => rfl
      | some p => exact absurd (numbered.procedures there) (Nat.lt_irrefl _)
    have newExtern : ∀ {id e}, m.externs.get? id = some e → id ≠ ⟨m.nextProcedure⟩ := by
      rintro id e there rfl
      exact Nat.lt_irrefl _ (numbered.externs there).1
    refine ⟨⟨fun there => lt_succ_of_lt (numbered.procedures there),?_,numbered.globals⟩,⟨?_,fun h => h⟩,?_,rfl⟩
    · refine fun there => of_insert there ⟨lt_succ_self _,rfl,newProcedure⟩ fun old => ?_
      obtain ⟨bound,same,undefined⟩ := numbered.externs old
      exact ⟨lt_succ_of_lt bound,same,undefined⟩
    · intro id named there
      simp only [symbol?,takeProcedureId,get?_insert]
      simp only [symbol?] at there
      cases external : m.externs.get? id with
      | none =>
        rw [external] at there
        cases procedure : m.procedures.get? id with
        | none => simp [procedure] at there
        | some p => simpa [procedure] using there
      | some e => simpa [newExtern external,external] using there
    · simp [symbol?,takeProcedureId,newProcedure]

theorem defineGlobal_spec (numbered : Numbered m) (name : String) (type : NativeType)
    (initializer : Option Literal) (isMutable : Bool) (linkage : Linkage) :
    (m.defineGlobal name type initializer isMutable linkage).2.Numbered ∧
      m.Keeps (m.defineGlobal name type initializer isMutable linkage).2 ∧
      (m.defineGlobal name type initializer isMutable linkage).2.globalName?
        (m.defineGlobal name type initializer isMutable linkage).1 = some name ∧
      (m.defineGlobal name type initializer isMutable linkage).2.procedures = m.procedures := by
  have new : ∀ {id g}, m.globals.get? id = some g → id ≠ ⟨m.nextGlobal⟩ := by
    rintro id g there rfl
    exact Nat.lt_irrefl _ (numbered.globals there)
  refine ⟨⟨numbered.procedures,numbered.externs,?_⟩,⟨fun h => h,?_⟩,?_,rfl⟩
  · have ahead : m.nextGlobal < (m.defineGlobal name type initializer isMutable linkage).2.nextGlobal :=
      Nat.lt_of_lt_of_le (Nat.lt_succ_self _) (Nat.le_max_left _ _)
    exact fun {_ _} there => of_insert there ahead fun old => Nat.lt_trans (numbered.globals old) ahead
  · intro id g there
    simp only [defineGlobal,takeGlobalId,addGlobal,get?_insert]
    rw [if_neg (new there),there]
  · simp [globalName?,defineGlobal,takeGlobalId,addGlobal]

theorem addProcedure_spec (numbered : m.Numbered) (name : String) (header : Header) :
    let id : ProcId := ⟨m.nextProcedure⟩
    let m' := m.takeProcedureId.2.addProcedure (.new id name header)
    m'.Numbered ∧ m.Keeps m' ∧ m.symbol? id = none ∧ m'.symbol? id = some name ∧
      ∀ x, m'.procedures.get? x = if x = id then some (.new id name header) else m.procedures.get? x := by
  intro id m'
  have new : m.symbol? id = none := by
    cases procedure : m.procedures.get? id with
    | some p => exact absurd (numbered.procedures procedure) (Nat.lt_irrefl _)
    | none =>
      cases external : m.externs.get? id with
      | some e => exact absurd (numbered.externs external).1 (Nat.lt_irrefl _)
      | none => simp [symbol?,procedure,external]
  have ahead : m.nextProcedure < m'.nextProcedure := Nat.lt_of_lt_of_le (Nat.lt_succ_self _) (Nat.le_max_left _ _)
  have others : ∀ {x}, x ≠ id → m'.procedures.get? x = m.procedures.get? x := get?_insert_of_ne
  refine ⟨⟨fun found => ?_,fun {x e} found => ?_,numbered.globals⟩,⟨fun {x other} found => ?_,fun h => h⟩,new,?_,fun x => get?_insert⟩
  · exact of_insert found ahead fun old => Nat.lt_trans (numbered.procedures old) ahead
  · obtain ⟨bound,same,undefined⟩ := numbered.externs found
    refine ⟨Nat.lt_trans bound ahead,same,(others ?_).trans undefined⟩
    rintro rfl
    exact Nat.lt_irrefl _ bound
  · have old : x ≠ id := by
      rintro rfl
      simp [new] at found
    rw [symbol?,others old]
    exact found
  · rw [symbol?,show m'.procedures.get? id = some (.new id name header) from get?_insert_self]
    rfl

theorem modifyProcedure_spec (numbered : Numbered m) (id : ProcId) (f : Procedure → Procedure)
    (sameName : ∀ p, m.procedures.get? id = some p → (f p).name = p.name) :
    (m.modifyProcedure id f).Numbered ∧ m.Keeps (m.modifyProcedure id f) := by
  have lookup : ∀ x, ((m.modifyProcedure id f).procedures.get? x).map Procedure.name =
      (m.procedures.get? x).map Procedure.name := by
    intro x
    simp only [modifyProcedure,get?_modify]
    split
    · rename_i here
      subst here
      cases found : m.procedures.get? x with
      | none => rfl
      | some p => simp [sameName p found]
    · rfl
  have known : ∀ x, (m.modifyProcedure id f).procedures.get? x = none ↔ m.procedures.get? x = none := by
    intro x
    rw [← map_eq_none_iff (f := Procedure.name),lookup,map_eq_none_iff]
  refine ⟨⟨?_,?_,numbered.globals⟩,⟨?_,fun h => h⟩⟩
  · intro x p found
    cases there : m.procedures.get? x with
    | none => simp [(known x).mpr there] at found
    | some q => exact numbered.procedures there
  · intro x e found
    obtain ⟨bound,same,undefined⟩ := numbered.externs found
    exact ⟨bound,same,(known x).mpr undefined⟩
  · intro x named found
    rwa [symbol?,lookup]

end Module

/-- The symbols of a run name what they were entered for. -/
structure State.Named (env : Environment) (s : State) : Prop where
  numbered : s.builder.output.Numbered
  functions : ∀ {id proc}, s.symbols.functions.get? id = some proc →
    ∃ function, env.decls.functions.get? id = some function ∧
      s.builder.output.symbol? proc = some (env.decls.functionSymbol function)
  globals : ∀ {role global}, s.symbols.globals.get? role = some global →
    ∃ spec, env.globalSpec role = .ok spec ∧ s.builder.output.globalName? global = some spec.name

theorem State.Named.keep {env : Environment} {s s' : State} (named : s.Named env)
    (numbered : s'.builder.output.Numbered) (keeps : s.builder.output.Keeps s'.builder.output)
    (symbols : s'.symbols = s.symbols) : s'.Named env where
  numbered := numbered
  functions found := by
    rw [symbols] at found
    obtain ⟨function,declared,entered⟩ := named.functions found
    exact ⟨function,declared,keeps.symbols entered⟩
  globals found := by
    rw [symbols] at found
    obtain ⟨spec,specified,entered⟩ := named.globals found
    exact ⟨spec,specified,keeps.globalName entered⟩

/-- A step that enters symbols at most: functions, scopes and the cursor are as they were. -/
structure State.Quiet (env : Environment) (s s' : State) : Prop where
  current : s'.builder.current = s.builder.current
  cursor : s'.builder.cursor = s.builder.cursor
  procedures : s'.builder.output.procedures = s.builder.output.procedures
  scopes : s'.scopes = s.scopes
  named : s.Named env → s'.Named env
  keeps : s.Named env → s.builder.output.Keeps s'.builder.output
  functions : ∀ {id proc}, s.symbols.functions.get? id = some proc → s'.symbols.functions.get? id = some proc

namespace State.Quiet
variable {env : Environment} {s s' s'' : State}

theorem refl (env : Environment) (s : State) : Quiet env s s := ⟨rfl,rfl,rfl,rfl,fun h => h,fun _ => .refl _,fun h => h⟩

theorem trans (first : Quiet env s s') (second : Quiet env s' s'') : Quiet env s s'' where
  current := second.current.trans first.current
  cursor := second.cursor.trans first.cursor
  procedures := second.procedures.trans first.procedures
  scopes := second.scopes.trans first.scopes
  named h := second.named (first.named h)
  keeps h := (first.keeps h).trans (second.keeps (first.named h))
  functions h := second.functions (first.functions h)

theorem procedure (quiet : Quiet env s s') : s'.builder.procedure? = s.builder.procedure? := by
  rw [Builder.procedure?,Builder.procedure?,quiet.current,quiet.procedures]

theorem logged (env : Environment) (s : State) (events : List Event) : Quiet env s { s with log := events } :=
  ⟨rfl,rfl,rfl,rfl,fun h => h.keep h.numbered (.refl _) rfl,fun _ => .refl _,fun h => h⟩

theorem placed (s : State) {strings : StringPool} (procedures : m.procedures = s.builder.output.procedures)
    (externs : m.externs = s.builder.output.externs) (globals : m.globals = s.builder.output.globals)
    (nextProcedure : m.nextProcedure = s.builder.output.nextProcedure) (nextGlobal : m.nextGlobal = s.builder.output.nextGlobal) :
    Quiet env s { s with strings, builder := { s.builder with output := m } } :=
  have keeps : s.builder.output.Keeps m := .of_same procedures externs globals
  ⟨rfl,rfl,procedures,rfl,fun h => h.keep (h.numbered.of_same procedures externs globals nextProcedure nextGlobal) keeps rfl,
    fun _ => keeps,fun h => h⟩

theorem declared (s : State) (name : String) (header : Header) (canThrow : Bool) : Quiet env s { s with builder := { s.builder with
      output := (s.builder.output.declareExtern name header canThrow).2 } } := by
  have procedures : (s.builder.output.declareExtern name header canThrow).2.procedures = s.builder.output.procedures := by
    unfold declareExtern
    split <;> rfl
  refine ⟨rfl,rfl,procedures,rfl,fun h => ?_,fun h => (declareExtern_spec h.numbered name header canThrow).2.1,fun h => h⟩
  obtain ⟨numbered,keeps,-⟩ := declareExtern_spec h.numbered name header canThrow
  exact h.keep numbered keeps rfl

theorem defined (s : State) (name : String) (type : NativeType) (initializer : Option Literal) (isMutable : Bool)
    (linkage : Linkage) : Quiet env s { s with builder := { s.builder with
      output := (s.builder.output.defineGlobal name type initializer isMutable linkage).2 } } := by
  refine ⟨rfl,rfl,rfl,rfl,fun h => ?_,fun h => (defineGlobal_spec h.numbered name type initializer isMutable linkage).2.1,fun h => h⟩
  obtain ⟨numbered,keeps,-⟩ := defineGlobal_spec h.numbered name type initializer isMutable linkage
  exact h.keep numbered keeps rfl

theorem entered (quiet : Quiet env s s') (symbols : Symbols) (named : s.Named env → s'.Named env → State.Named env { s' with symbols })
    (functions : ∀ {id proc}, s'.symbols.functions.get? id = some proc → symbols.functions.get? id = some proc) :
    Quiet env s { s' with symbols } :=
  ⟨quiet.current,quiet.cursor,quiet.procedures,quiet.scopes,fun h => named h (quiet.named h),quiet.keeps,fun h => functions (quiet.functions h)⟩

end State.Quiet

/-- A part of a run that changes one function of the output at most. -/
structure State.Touches (env : Environment) (id : ProcId) (s s' : State) : Prop where
  others : ∀ {x}, x ≠ id → s'.builder.output.procedures.get? x = s.builder.output.procedures.get? x
  functions : ∀ {f proc}, s.symbols.functions.get? f = some proc → s'.symbols.functions.get? f = some proc
  named : s.Named env → s'.Named env
  keeps : s.Named env → s.builder.output.Keeps s'.builder.output

namespace State.Touches
variable {env : Environment} {id : ProcId} {s s' s'' : State}

theorem trans (first : Touches env id s s') (second : Touches env id s' s'') : Touches env id s s'' where
  others other := (second.others other).trans (first.others other)
  functions h := second.functions (first.functions h)
  named h := second.named (first.named h)
  keeps h := (first.keeps h).trans (second.keeps (first.named h))

theorem of_quiet (quiet : s.Quiet env s') : Touches env id s s' where
  others _ := by rw [quiet.procedures]
  functions := quiet.functions
  named := quiet.named
  keeps := quiet.keeps

theorem of_same (output : s'.builder.output = s.builder.output) (symbols : s'.symbols = s.symbols) : Touches env id s s' where
  others _ := by rw [output]
  functions h := by rwa [symbols]
  named h := h.keep (output ▸ h.numbered) (output ▸ .refl _) symbols
  keeps _ := output ▸ .refl _

theorem of_modify {f : Procedure → Procedure} (output : s'.builder.output = s.builder.output.modifyProcedure id f)
    (symbols : s'.symbols = s.symbols) (sameName : ∀ p, (f p).name = p.name) : Touches env id s s' where
  others {x} other := by
    rw [output]
    show (s.builder.output.procedures.modify id f).get? x = _
    rw [get?_modify,if_neg other]
  functions h := by rwa [symbols]
  named h := by
    obtain ⟨numbered,keeps⟩ := modifyProcedure_spec h.numbered id f fun p _ => sameName p
    exact h.keep (output ▸ numbered) (output ▸ keeps) symbols
  keeps h := by
    rw [output]
    exact (modifyProcedure_spec h.numbered id f fun p _ => sameName p).2

end State.Touches

namespace Lower
variable {env : Environment} {s s' : State}
variable {id : FunctionId} {global : GlobalId}

theorem getFunction_eq {decls : Declarations} {f : FunctionDecl} : decls.getFunction id = .ok f ↔ decls.functions.get? id = some f := by
  unfold Declarations.getFunction
  cases decls.functions.get? id <;> simp

theorem Runs.procedureOf {proc : ProcId} (run : Runs (procedureOf id) env s proc s') :
    s.Quiet env s' ∧ s'.symbols.functions.get? id = some proc := by
  unfold Lower.procedureOf at run
  simp only [runs_bind,runs_get,and_assoc,exists_and_left,exists_eq_left] at run
  cases known : s.symbols.functions.get? id with
  | some found =>
    simp only [known,runs_pure] at run
    obtain ⟨rfl,rfl⟩ := run
    exact ⟨.refl env _,known⟩
  | none =>
    simp only [known,runs_bind,runs_read,runs_lift,runs_onModule,runs_log,runs_modifySymbols,runs_pure,
      getFunction_eq,and_assoc,exists_and_left,exists_eq_left] at run
    obtain ⟨function,declared,rfl,-,-,rfl⟩ := run
    have quiet := (State.Quiet.declared s (env.decls.functionSymbol function) function.nativeHeader true).trans
      (.logged env _ (.declaredExtern (env.decls.functionSymbol function)
        (s.builder.output.declareExtern (env.decls.functionSymbol function) function.nativeHeader true).1 :: s.log))
    refine ⟨quiet.entered _ (fun before named => ?_) fun {other proc} found => ?_,by simp⟩
    · refine ⟨named.numbered,fun {other proc} found => ?_,named.globals⟩
      exact of_insert found ⟨function,declared,(declareExtern_spec before.numbered _ _ _).2.2.1⟩ named.functions
    · rw [get?_insert]
      split
      · rename_i here
        subst here
        simp [known] at found
      · exact found

theorem Runs.directTarget (run : Runs (directTarget id) env s target s') :
    s.Quiet env s' ∧ ∃ function proc, env.decls.functions.get? id = some function ∧ s'.symbols.functions.get? id = some proc ∧
      target = ⟨.direct proc,function.nativeHeader.signature,true⟩ := by
  unfold Lower.directTarget at run
  simp only [runs_bind,runs_read,runs_lift,runs_pure,getFunction_eq,and_assoc,exists_and_left,
    exists_eq_left] at run
  obtain ⟨function,declared,proc,s₁,entered,rfl,rfl⟩ := run
  obtain ⟨quiet,known⟩ := entered.procedureOf
  exact ⟨quiet,function,proc,declared,known,rfl⟩

theorem Runs.supportTarget {routine : SupportRoutine} (run : Runs (supportTarget routine) env s target s') :
    s.Quiet env s' ∧ ∃ proc, target = ⟨.direct proc,routine.header.signature,routine.canThrow⟩ ∧
      (s.Named env → s'.builder.output.symbol? proc = some routine.symbol) := by
  obtain ⟨rfl,rfl⟩ := run
  exact ⟨.declared _ _ _ _,_,rfl,fun named => (declareExtern_spec named.numbered _ _ _).2.2.1⟩

theorem Runs.globalOf_entered (run : Runs (globalOf role) env s global s') :
    s.Quiet env s' ∧ s'.symbols.globals.get? role = some global := by
  unfold Lower.globalOf at run
  simp only [runs_bind,runs_get,and_assoc,exists_and_left,exists_eq_left] at run
  cases known : s.symbols.globals.get? role with
  | some found =>
    simp only [known,runs_pure] at run
    obtain ⟨rfl,rfl⟩ := run
    exact ⟨.refl env _,known⟩
  | none =>
    simp only [known,runs_bind,runs_read,runs_lift,runs_onModule,runs_modifySymbols,runs_pure,and_assoc,
      exists_and_left,exists_eq_left] at run
    obtain ⟨spec,given,rfl,-,rfl⟩ := run
    refine ⟨(State.Quiet.defined s _ _ _ _ _).entered _ (fun before named => ?_) fun h => h,by simp⟩
    exact ⟨named.numbered,named.functions,fun found =>
      of_insert found ⟨spec,given,(defineGlobal_spec before.numbered _ _ _ _ _).2.2.1⟩ named.globals⟩

theorem Runs.globalOf (run : Runs (globalOf role) env s global s') : s.Quiet env s' :=
  run.globalOf_entered.1

theorem Runs.place {place : Module → DataId × Module} {datum : DataId} (adds : ∀ m, ∃ name type contents, place m = m.addDatum name type contents)
    (run : Runs (onModule place) env s datum s') : s.Quiet env s' := by
  obtain ⟨-,rfl⟩ := runs_onModule.mp run
  obtain ⟨name,type,contents,same⟩ := adds s.builder.output
  rw [same]
  exact .placed s rfl rfl rfl rfl rfl

theorem Runs.literalOf {constant : Constant} {literal : Literal} (run : Runs (literalOf constant) env s literal s') : s.Quiet env s' := by
  cases constant with
  | string value =>
    simp only [Lower.literalOf,runs_bind,runs_get,runs_set,runs_pure,and_assoc,exists_and_left,
      exists_eq_left] at run
    obtain ⟨-,-,rfl⟩ := run
    unfold StringPool.intern
    split <;> exact .placed s rfl rfl rfl rfl rfl
  | _ =>
    obtain ⟨-,rfl⟩ := runs_pure.mp run
    exact .refl env _

end Lower

end BlockLowering
