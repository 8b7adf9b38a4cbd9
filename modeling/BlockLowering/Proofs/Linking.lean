import BlockLowering.Proofs.CompositionWalk
/-!
Linking. Everything that the code and the data of a module refer to is in the module, and functions are
called with signatures that their names are known for. Both are kept by every step of a run: a symbol is
entered before anything refers to it, and nothing that was entered goes away.
-/
namespace BlockLowering
open Lower List Option Table Literal
variable {id : ProcId} {p p' : Procedure} {needs : List Finding} {target : CallTarget} {role : GlobalRole}

/-! ### What a module has -/

namespace Module

def has (m : Module) : Reference → Bool
  | .proc id => m.procedures.contains id || m.externs.contains id
  | .global id => m.globals.contains id
  | .data id => m.data.contains id

/-- The signature under which a module declares a function, defined or external. -/
def signature? (m : Module) (id : ProcId) : Option Signature :=
  ((m.procedures.get? id).map fun p => p.header.signature).or ((m.externs.get? id).map fun e => e.header.signature)

end Module

/-- The names of functions that a program does not define, with their signatures: declared functions outside of it and the
    routines of the support library. -/
inductive Imports (decls : Declarations) (outside : FunctionId → Prop) : String → Signature → Prop
  | function {f : FunctionId} {function : FunctionDecl} (declared : decls.functions.get? f = some function) (absent : outside f) :
    Imports decls outside (decls.functionSymbol function) function.nativeHeader.signature
  | routine (routine : SupportRoutine) : Imports decls outside routine.symbol routine.header.signature

theorem Imports.mono {decls : Declarations} {outside outside' : FunctionId → Prop} {name : String} {signature : Signature}
    (imports : Imports decls outside name signature) (wider : ∀ f, outside f → outside' f) : Imports decls outside' name signature := by
  cases imports with
  | function declared absent => exact .function declared (wider _ absent)
  | routine routine => exact .routine routine

namespace Module
variable {decls : Declarations} {outside outside' : FunctionId → Prop} {m m' m'' : Module}

/-- What is found is so. A call to an external function has a signature of its name, if not that of its
    declaration. -/
def Knows (decls : Declarations) (outside : FunctionId → Prop) (m : Module) : Finding → Prop
  | .has reference => m.has reference = true
  | .callee id signature => (∃ p, m.procedures.get? id = some p ∧ p.header.signature = signature) ∨
      ∃ e, m.externs.get? id = some e ∧ Imports decls outside e.name signature
  | .target _ | .reserved _ | .returning | .unguarded | .opened _ | .guarding _ => True

/-- Nothing that a module has goes away, and functions keep their signatures. -/
structure Extends (m m' : Module) : Prop where
  procedures : ∀ {id p}, m.procedures.get? id = some p →
    ∃ p', m'.procedures.get? id = some p' ∧ p'.header.signature = p.header.signature
  externs : ∀ {id e}, m.externs.get? id = some e → m'.externs.get? id = some e
  globals : ∀ {id}, m.globals.contains id = true → m'.globals.contains id = true
  data : ∀ {id}, m.data.contains id = true → m'.data.contains id = true

theorem Extends.refl (m : Module) : m.Extends m := ⟨fun h => ⟨_,h,rfl⟩,fun h => h,fun h => h,fun h => h⟩

theorem Extends.trans (first : m.Extends m') (second : m'.Extends m'') : m.Extends m'' where
  procedures h := by
    obtain ⟨p',found',same'⟩ := first.procedures h
    obtain ⟨p'',found'',same''⟩ := second.procedures found'
    exact ⟨p'',found'',same''.trans same'⟩
  externs h := second.externs (first.externs h)
  globals h := second.globals (first.globals h)
  data h := second.data (first.data h)

theorem Extends.has (more : m.Extends m') {r : Reference} (there : m.has r = true) : m'.has r = true := by
  cases r with
  | proc id =>
    rcases Bool.or_eq_true_iff.mp there with defined | external
    · obtain ⟨p,found⟩ := contains_iff.mp defined
      obtain ⟨p',found',-⟩ := more.procedures found
      exact Bool.or_eq_true_iff.mpr (.inl (contains_iff.mpr ⟨p',found'⟩))
    · obtain ⟨e,found⟩ := contains_iff.mp external
      exact Bool.or_eq_true_iff.mpr (.inr (contains_iff.mpr ⟨e,more.externs found⟩))
  | global id => exact more.globals there
  | data id => exact more.data there

theorem Extends.knows (more : m.Extends m') (wider : ∀ f, outside f → outside' f) {f : Finding} (known : m.Knows decls outside f) :
    m'.Knows decls outside' f := by
  cases f with
  | has r => exact more.has known
  | callee id signature =>
    rcases known with ⟨p,found,same⟩ | ⟨e,found,named⟩
    · obtain ⟨p',found',same'⟩ := more.procedures found
      exact .inl ⟨p',found',same'.trans same⟩
    · exact .inr ⟨e,more.externs found,named.mono wider⟩
  | target | reserved | returning | unguarded | opened | guarding => trivial

theorem Knows.callee_has {signature : Signature} (known : m.Knows decls outside (.callee id signature)) :
    m.has (.proc id) = true := by
  rcases known with ⟨p,found,-⟩ | ⟨e,found,-⟩
  · exact Bool.or_eq_true_iff.mpr (.inl (contains_iff.mpr ⟨p,found⟩))
  · exact Bool.or_eq_true_iff.mpr (.inr (contains_iff.mpr ⟨e,found⟩))

/-- Everything stands under its own number, code and data rely on what the module has, and external functions
    are imported under their names, one for each name. -/
structure Linked (decls : Declarations) (outside : FunctionId → Prop) (m : Module) : Prop where
  numbered : m.Numbered
  procedures : ∀ {id p}, m.procedures.get? id = some p → p.id = id
  globals : ∀ {id g}, m.globals.get? id = some g → g.id = id ∧ ∀ r ∈ g.references, m.has r = true
  data : ∀ {id d}, m.data.get? id = some d → d.id = id ∧ id.index < m.nextDatum ∧ ∀ r ∈ d.contents.references, m.has r = true
  constructors : ∀ id ∈ m.constructors, m.has (.proc id) = true
  externs : ∀ {id e}, m.externs.get? id = some e → Imports decls outside e.name e.header.signature
  distinct : ∀ {id id' e e'}, m.externs.get? id = some e → m.externs.get? id' = some e' → e.name = e'.name → id = id'
  code : ∀ {id p f}, m.procedures.get? id = some p → p.Relies f → m.Knows decls outside f

theorem Linked.new (name : String) : (new name).Linked decls outside where
  numbered := ⟨(fun h => by cases h),(fun h => by cases h),(fun h => by cases h)⟩
  procedures h := by cases h
  globals h := by cases h
  data h := by cases h
  constructors _ h := absurd h not_mem_nil
  externs h := by cases h
  distinct h _ _ := by cases h
  code h _ := by cases h

namespace Linked

section
variable (linked : m.Linked decls outside)
include linked

theorem mono (wider : ∀ f, outside f → outside' f) : m.Linked decls outside' :=
  { linked with
    externs := fun found => (linked.externs found).mono wider
    code := fun found relied => (Extends.refl m).knows wider (linked.code found relied) }

theorem grown (more : m.Extends m') (numbered : m'.Numbered) (procedures : ∀ {id p}, m'.procedures.get? id = some p →
      m.procedures.get? id = some p ∨ p.id = id ∧ ∀ {f}, p.Relies f → m'.Knows decls outside f)
    (externs : ∀ {id e}, m'.externs.get? id = some e → m.externs.get? id = some e ∨ Imports decls outside e.name e.header.signature)
    (distinct : ∀ {id id' e e'}, m'.externs.get? id = some e → m'.externs.get? id' = some e' → e.name = e'.name → id = id')
    (globals : ∀ {id g}, m'.globals.get? id = some g →
      m.globals.get? id = some g ∨ g.id = id ∧ ∀ r ∈ g.references, m.has r = true) (data : ∀ {id d}, m'.data.get? id = some d →
      m.data.get? id = some d ∨ d.id = id ∧ id.index < m'.nextDatum ∧ ∀ r ∈ d.contents.references, m.has r = true)
    (nextDatum : m.nextDatum ≤ m'.nextDatum)
    (constructors : ∀ {id}, id ∈ m'.constructors → id ∈ m.constructors ∨ m.has (.proc id) = true) : m'.Linked decls outside where
  numbered := numbered
  procedures found := by
    rcases procedures found with old | ⟨own,-⟩
    · exact linked.procedures old
    · exact own
  globals found := by
    have ⟨own,refers⟩ := (globals found).elim linked.globals id
    exact ⟨own,fun r inside => more.has (refers r inside)⟩
  data {id d} found := by
    rcases data found with old | ⟨own,bound,refers⟩
    · obtain ⟨own,bound,refers⟩ := linked.data old
      exact ⟨own,Nat.lt_of_lt_of_le bound nextDatum,fun r inside => more.has (refers r inside)⟩
    · exact ⟨own,bound,fun r inside => more.has (refers r inside)⟩
  constructors id inside := more.has ((constructors inside).elim (linked.constructors id) fun there => there)
  externs found := (externs found).elim linked.externs id
  distinct := distinct
  code found relied := by
    rcases procedures found with old | ⟨-,known⟩
    · exact more.knows (fun _ h => h) (linked.code old relied)
    · exact known relied

theorem modifyProcedure
    (found : m.procedures.get? id = some p) (sameId : p'.id = p.id) (sameName : p'.name = p.name) (sameHeader : p'.header = p.header)
    (relies : ∀ {f}, p'.Relies f → p.Relies f ∨ f ∈ needs) (known : ∀ f ∈ needs, m.Knows decls outside f) :
    (m.modifyProcedure id fun _ => p').Linked decls outside ∧ m.Extends (m.modifyProcedure id fun _ => p') := by
  have lookup : ∀ x, (m.modifyProcedure id fun _ => p').procedures.get? x = if x = id then some p' else m.procedures.get? x := by
    intro x
    rw [Module.modifyProcedure,get?_modify]
    by_cases here : x = id
    · subst here
      simp [found]
    · simp [here]
  have more : m.Extends (m.modifyProcedure id fun _ => p') := by
    refine ⟨fun {x q} there => ?_,fun h => h,fun h => h,fun h => h⟩
    rw [lookup]
    by_cases here : x = id
    · subst here
      obtain rfl := mem_unique found there
      exact ⟨p',if_pos rfl,by rw [sameHeader]⟩
    · exact ⟨q,by rw [if_neg here,there],rfl⟩
  have numbered : (m.modifyProcedure id fun _ => p').Numbered := by
    refine (modifyProcedure_spec linked.numbered id _ fun q there => ?_).1
    obtain rfl := mem_unique found there
    exact sameName
  refine ⟨linked.grown more numbered (fun {x q} there => ?_) .inl linked.distinct .inl .inl (Nat.le_refl _) .inl,more⟩
  rw [lookup] at there
  split at there
  · rename_i here
    cases there
    refine .inr ⟨by rw [sameId,linked.procedures found,here],fun relied => more.knows (fun _ h => h) ?_⟩
    exact (relies relied).elim (linked.code found) (known _)
  · exact .inl there

theorem declareExtern {name : String} {header : Header} (canThrow : Bool) (imported : Imports decls outside name header.signature) :
    (m.declareExtern name header canThrow).2.Linked decls outside ∧ m.Extends (m.declareExtern name header canThrow).2 ∧
      ∃ e, (m.declareExtern name header canThrow).2.externs.get? (m.declareExtern name header canThrow).1 = some e ∧ e.name = name := by
  have numbered := (declareExtern_spec linked.numbered name header canThrow).1
  unfold Module.declareExtern at numbered ⊢
  cases known : m.findExtern? name with
  | some id =>
    obtain ⟨e,picked,rfl⟩ := map_eq_some_iff.mp known
    obtain ⟨key,entered⟩ := mem_values_iff.mp (mem_of_find?_eq_some picked)
    obtain ⟨-,rfl,-⟩ := linked.numbered.externs entered
    exact ⟨linked,.refl m,e,entered,by simpa using find?_some picked⟩
  | none =>
    rw [known] at numbered
    have fresh : ∀ {id e}, m.externs.get? id = some e → id ≠ ⟨m.nextProcedure⟩ := by
      rintro id e there rfl
      exact Nat.lt_irrefl _ (linked.numbered.externs there).1
    have more : m.Extends { m.takeProcedureId.2 with
        externs := m.externs.insert ⟨m.nextProcedure⟩ ⟨⟨m.nextProcedure⟩,name,header,canThrow⟩ } := by
      exact ⟨fun h => ⟨_,h,rfl⟩,fun there => (get?_insert_of_ne (fresh there)).trans there,fun h => h,fun h => h⟩
    have others : ∀ {id e}, m.externs.get? id = some e → e.name ≠ name := by
      intro id e there
      have picked := find?_eq_none.mp (map_eq_none_iff.mp known) e (mem_values_iff.mpr ⟨id,there⟩)
      simpa using picked
    refine ⟨linked.grown more numbered .inl (fun {x e} there => ?_) (fun {x x' e e'} there there' same => ?_) .inl .inl
      (Nat.le_refl _) .inl,more,⟨⟨m.nextProcedure⟩,name,header,canThrow⟩,get?_insert_self,rfl⟩
    · exact of_insert there (.inr imported) .inl
    · rcases insert_cases there with ⟨rfl,rfl⟩ | old <;> rcases insert_cases there' with ⟨rfl,rfl⟩ | old'
      · rfl
      · exact absurd same.symm (others old')
      · exact absurd same (others old)
      · exact linked.distinct old old' same

theorem defineGlobal (name : String) (type : NativeType) {initializer : Option Literal}
    (isMutable : Bool) (linkage : Linkage) (refers : ∀ r ∈ (initializer.map Literal.references).getD [], m.has r = true) :
    (m.defineGlobal name type initializer isMutable linkage).2.Linked decls outside ∧
      m.Extends (m.defineGlobal name type initializer isMutable linkage).2 ∧ (m.defineGlobal name type initializer isMutable linkage).2.has
        (.global (m.defineGlobal name type initializer isMutable linkage).1) = true := by
  have numbered := (defineGlobal_spec linked.numbered name type initializer isMutable linkage).1
  have more : m.Extends (m.defineGlobal name type initializer isMutable linkage).2 :=
    ⟨fun h => ⟨_,h,rfl⟩,fun h => h,contains_insert,fun h => h⟩
  exact ⟨linked.grown more numbered .inl .inl linked.distinct (fun there => of_insert there (.inr ⟨rfl,refers⟩) .inl) .inl
    (Nat.le_refl _) .inl,more,contains_insert_self⟩

theorem addDatum (name : String) (type : NativeType) {contents : StaticContents} (refers : ∀ r ∈ contents.references, m.has r = true) :
    (m.addDatum name type contents).2.Linked decls outside ∧ m.Extends (m.addDatum name type contents).2 ∧
      (m.addDatum name type contents).2.has (.data (m.addDatum name type contents).1) = true := by
  have more : m.Extends (m.addDatum name type contents).2 := ⟨fun h => ⟨_,h,rfl⟩,fun h => h,fun h => h,contains_insert⟩
  exact ⟨linked.grown more (linked.numbered.of_same rfl rfl rfl rfl rfl) .inl .inl linked.distinct .inl
    (fun there => of_insert there (.inr ⟨rfl,Nat.lt_succ_self _,refers⟩) .inl) (Nat.le_succ _) .inl,more,contains_insert_self⟩

theorem declareProcedure (name : String) (header : Header) :
    (m.takeProcedureId.2.addProcedure (.new ⟨m.nextProcedure⟩ name header)).Linked decls outside ∧
      m.Extends (m.takeProcedureId.2.addProcedure (.new ⟨m.nextProcedure⟩ name header)) := by
  have more : m.Extends (m.takeProcedureId.2.addProcedure (.new ⟨m.nextProcedure⟩ name header)) := by
    refine ⟨fun {id p} there => ⟨p,(get?_insert_of_ne ?_).trans there,rfl⟩,fun h => h,fun h => h,fun h => h⟩
    rintro rfl
    exact Nat.lt_irrefl _ (linked.numbered.procedures there)
  refine ⟨linked.grown more (addProcedure_spec linked.numbered name header).1 (fun {id p} there => ?_) .inl linked.distinct .inl .inl
    (Nat.le_refl _) .inl,more⟩
  refine of_insert there (.inr ⟨rfl,fun {f} relied => ?_⟩) .inl
  obtain ⟨b,k,found,inside⟩ := relied
  obtain ⟨-,rfl⟩ := Procedure.block?_new found
  exact absurd inside not_mem_nil

theorem addConstructor (there : m.has (.proc id) = true) :
    (m.addConstructor id).Linked decls outside ∧ m.Extends (m.addConstructor id) := by
  have more : m.Extends (m.addConstructor id) := ⟨fun h => ⟨_,h,rfl⟩,fun h => h,fun h => h,fun h => h⟩
  refine ⟨linked.grown more (linked.numbered.of_same rfl rfl rfl rfl rfl) .inl .inl linked.distinct .inl .inl (Nat.le_refl _)
    fun inside => ?_,more⟩
  rcases mem_append.mp inside with old | new
  · exact .inl old
  · exact .inr (mem_singleton.mp new ▸ there)

end

end Linked

end Module

/-! ### What a state has entered -/

namespace State
variable {env : Environment} {bodies : List FunctionId} {s s' s'' : State} {found found' : List Finding}

/-- The declared functions without a body that a run has entered. -/
def Outside (bodies : List FunctionId) (s : State) (f : FunctionId) : Prop := f ∉ bodies ∧ s.symbols.functions.contains f = true

def Knows (env : Environment) (bodies : List FunctionId) (s : State) : Finding → Prop := s.builder.output.Knows env.decls (s.Outside bodies)

/-- A declared function stands for one that is defined with its signature, or for an external one of its name. -/
def StandsFor (env : Environment) (bodies : List FunctionId) (m : Module) (f : FunctionId) (id : ProcId) : Prop :=
  ∃ function, env.decls.functions.get? f = some function ∧
    (f ∈ bodies ∧ (∃ p, m.procedures.get? id = some p ∧ p.header.signature = function.nativeHeader.signature) ∨
      f ∉ bodies ∧ ∃ e, m.externs.get? id = some e ∧ e.name = env.decls.functionSymbol function)

/-- The module is linked, and the symbols and strings of a run stand for what it has. No two declared functions stand for one that
    is defined. -/
structure Linked (env : Environment) (bodies : List FunctionId) (s : State) : Prop where
  output : s.builder.output.Linked env.decls (s.Outside bodies)
  functions : ∀ {f id}, s.symbols.functions.get? f = some id → StandsFor env bodies s.builder.output f id
  apart : ∀ {f g id p}, s.symbols.functions.get? f = some id → s.symbols.functions.get? g = some id →
    s.builder.output.procedures.get? id = some p → f = g
  globals : ∀ {role global}, s.symbols.globals.get? role = some global → s.builder.output.has (.global global) = true
  strings : ∀ {value data}, s.strings.places.get? value = some data → s.builder.output.has (.data data) = true

/-- A part of a run keeps the state linked and finds something. -/
structure Links (env : Environment) (bodies : List FunctionId) (s s' : State) (found : List Finding) : Prop where
  linked : s'.Linked env bodies
  more : s.builder.output.Extends s'.builder.output
  found : ∀ f ∈ found, s'.Knows env bodies f
  functions : ∀ {f id}, s.symbols.functions.get? f = some id → ∃ id', s'.symbols.functions.get? f = some id'

theorem Links.refl (linked : s.Linked env bodies) : s.Links env bodies s [] :=
  ⟨linked,.refl _,fun _ h => absurd h not_mem_nil,fun h => ⟨_,h⟩⟩

theorem Links.already (linked : s.Linked env bodies) {f : Finding} (known : s.Knows env bodies f) :
    s.Links env bodies s [f] :=
  ⟨linked,.refl _,fun _ h => mem_singleton.mp h ▸ known,fun h => ⟨_,h⟩⟩

theorem Links.knows (links : s.Links env bodies s' found) {f : Finding} (known : s.Knows env bodies f) : s'.Knows env bodies f :=
  links.more.knows (fun _ entered => ⟨entered.1,contains_iff.mpr ((contains_iff.mp entered.2).elim fun _ => links.functions)⟩) known

theorem Links.trans (first : s.Links env bodies s' found) (second : s'.Links env bodies s'' found') :
    s.Links env bodies s'' (found' ++ found) where
  linked := second.linked
  more := first.more.trans second.more
  found f inside := (mem_append.mp inside).elim (second.found f) fun old => second.knows (first.found f old)
  functions h := by
    obtain ⟨id',h'⟩ := first.functions h
    exact second.functions h'

section
variable (linked : s.Linked env bodies)
include linked

theorem Linked.functions_grown {m : Module} (more : s.builder.output.Extends m) {f : FunctionId} (there : s.symbols.functions.get? f = some id) :
    StandsFor env bodies m f id := by
  obtain ⟨function,declared,⟨present,p,known,same⟩ | ⟨absent,e,known,named⟩⟩ := linked.functions there
  · obtain ⟨p',known',same'⟩ := more.procedures known
    exact ⟨function,declared,.inl ⟨present,p',known',same'.trans same⟩⟩
  · exact ⟨function,declared,.inr ⟨absent,e,more.externs known,named⟩⟩

theorem Linked.apart_grown {m : Module} (more : s.builder.output.Extends m) (numbered : m.Numbered) {f g : FunctionId}
    (there : s.symbols.functions.get? f = some id) (there' : s.symbols.functions.get? g = some id) (found : m.procedures.get? id = some p) :
    f = g := by
  obtain ⟨-,-,⟨-,q,known,-⟩ | ⟨-,e,known,-⟩⟩ := linked.functions there
  · exact linked.apart there there' known
  · -- An external function does not come to be defined.
    simp [(numbered.externs (more.externs known)).2.2] at found

variable (output : s'.builder.output.Linked env.decls (s.Outside bodies))
  (more : s.builder.output.Extends s'.builder.output) (symbols : s'.symbols = s.symbols) (strings : s'.strings = s.strings)
include output more symbols strings

theorem Linked.output_grown : s'.Linked env bodies where
  output := output.mono fun _ entered => ⟨entered.1,symbols ▸ entered.2⟩
  functions there := linked.functions_grown more (symbols ▸ there)
  apart there there' := linked.apart_grown more output.numbered (symbols ▸ there) (symbols ▸ there')
  globals there := more.has (linked.globals (symbols ▸ there))
  strings there := more.has (linked.strings (strings ▸ there))

theorem Linked.grows : s.Links env bodies s' [] :=
  ⟨linked.output_grown output more symbols strings,more,fun _ h => absurd h not_mem_nil,fun h => ⟨_,symbols ▸ h⟩⟩

end

theorem Linked.same (linked : s.Linked env bodies) (output : s'.builder.output = s.builder.output) (symbols : s'.symbols = s.symbols)
    (strings : s'.strings = s.strings) : s.Links env bodies s' [] :=
  linked.grows (output ▸ linked.output) (output ▸ .refl _) symbols strings

theorem Linked.becomes (linked : s.Linked env bodies)
    (there : s.builder.output.procedures.get? id = some p) (sameId : p'.id = p.id) (sameName : p'.name = p.name)
    (sameHeader : p'.header = p.header) (relies : ∀ {f}, p'.Relies f → p.Relies f ∨ f ∈ needs)
    (known : ∀ f ∈ needs, s.Knows env bodies f)
    (output : s'.builder.output = s.builder.output.modifyProcedure id fun _ => p') (symbols : s'.symbols = s.symbols)
    (strings : s'.strings = s.strings) : s.Links env bodies s' [] := by
  obtain ⟨linked',more⟩ := linked.output.modifyProcedure there sameId sameName sameHeader relies known
  exact linked.grows (output ▸ linked') (output ▸ more) symbols strings

end State

/-! ### Symbols -/

def State.Ready (bodies : List FunctionId) (s : State) : Prop := ∀ f ∈ bodies, ∃ id, s.symbols.functions.get? f = some id

namespace State.Linked
variable {env : Environment} {bodies : List FunctionId} {s s' : State}
variable {f : FunctionId} {global : GlobalId}

section
variable (linked : s.Linked env bodies)
include linked

theorem known (entered : s.symbols.functions.get? f = some id) :
    s.builder.output.has (.proc id) = true ∧ ∃ function, env.decls.functions.get? f = some function ∧
      s.Knows env bodies (.callee id function.nativeHeader.signature) := by
  obtain ⟨function,declared,stands⟩ := linked.functions entered
  have known : s.Knows env bodies (.callee id function.nativeHeader.signature) := by
    rcases stands with ⟨-,defined⟩ | ⟨absent,e,found,named⟩
    · exact .inl defined
    · exact .inr ⟨e,found,named ▸ .function declared ⟨absent,contains_iff.mpr ⟨_,entered⟩⟩⟩
  exact ⟨known.callee_has,function,declared,known⟩

theorem procedureOf (ready : s.Ready bodies)
    (run : Runs (procedureOf f) env s id s') : s.Links env bodies s' [] ∧ s'.symbols.functions.get? f = some id := by
  refine ⟨?_,run.procedureOf.2⟩
  unfold Lower.procedureOf at run
  simp only [runs_bind,runs_get,and_assoc,exists_and_left,exists_eq_left] at run
  cases entered : s.symbols.functions.get? f with
  | some old =>
    simp only [entered,runs_pure] at run
    obtain ⟨rfl,rfl⟩ := run
    exact .refl linked
  | none =>
    simp only [entered,runs_bind,runs_read,runs_lift,runs_onModule,runs_log,
      runs_modifySymbols,runs_pure,getFunction_eq,and_assoc,exists_and_left,exists_eq_left] at run
    obtain ⟨function,declared,rfl,-,-,rfl⟩ := run
    have absent : f ∉ bodies := by
      intro inside
      obtain ⟨id,known⟩ := ready f inside
      simp [entered] at known
    let entered := s.symbols.functions.insert f (s.builder.output.declareExtern (env.decls.functionSymbol function) function.nativeHeader true).1
    have wider : ∀ x, s.Outside bodies x → x ∉ bodies ∧ entered.contains x = true := fun _ known => ⟨known.1,contains_insert known.2⟩
    obtain ⟨output,more,e,found,named⟩ := (linked.output.mono wider).declareExtern true (.function declared ⟨absent,contains_insert_self⟩)
    refine ⟨⟨output,fun {x id} there => ?_,fun {x y id p} there there' defined => ?_,fun there => more.has (linked.globals there),
      fun there => more.has (linked.strings there)⟩,more,by simp,
      fun there => contains_iff.mp (contains_insert (contains_iff.mpr ⟨_,there⟩))⟩
    · exact of_insert there ⟨function,declared,.inr ⟨absent,e,found,named⟩⟩ (linked.functions_grown more)
    · have external : id ≠ (s.builder.output.declareExtern (env.decls.functionSymbol function) function.nativeHeader true).1 := by
        rintro rfl
        simp [(output.numbered.externs found).2.2] at defined
      exact linked.apart_grown more output.numbered ((insert_cases there).resolve_left fun new => external new.2)
        ((insert_cases there').resolve_left fun new => external new.2) defined

theorem directTarget (ready : s.Ready bodies)
    (run : Runs (directTarget f) env s target s') : s.Links env bodies s' target.relies := by
  unfold Lower.directTarget at run
  simp only [runs_bind,runs_read,runs_lift,runs_pure,getFunction_eq,and_assoc,
    exists_and_left,exists_eq_left] at run
  obtain ⟨function,declared,proc,s₁,entered,rfl,rfl⟩ := run
  obtain ⟨links,there⟩ := linked.procedureOf ready entered
  obtain ⟨-,function',declared',known⟩ := links.linked.known there
  obtain rfl := mem_unique declared declared'
  refine ⟨links.linked,links.more,fun f inside => ?_,links.functions⟩
  rw [mem_singleton.mp inside]
  exact known

theorem supportTarget {routine : SupportRoutine}
    (run : Runs (supportTarget routine) env s target s') : s.Links env bodies s' target.relies := by
  obtain ⟨rfl,rfl⟩ := run
  obtain ⟨output,more,e,found,named⟩ := linked.output.declareExtern routine.canThrow (.routine routine)
  refine ⟨linked.output_grown output more rfl rfl,more,fun f inside => ?_,fun h => ⟨_,h⟩⟩
  rw [mem_singleton.mp inside]
  refine .inr ⟨e,found,?_⟩
  rw [named]
  exact .routine routine

theorem defined (name : String) (type : NativeType) (initializer : Option Literal) (isMutable : Bool) (linkage : Linkage)
    (refers : ∀ r ∈ (initializer.map references).getD [], s.builder.output.has r = true) :
    s.Links env bodies { s with builder := { s.builder with
      output := (s.builder.output.defineGlobal name type initializer isMutable linkage).2 } }
      [.has (.global (s.builder.output.defineGlobal name type initializer isMutable linkage).1)] := by
  obtain ⟨output,more,there⟩ := linked.output.defineGlobal name type isMutable linkage refers
  refine ⟨linked.output_grown output more rfl rfl,more,fun f inside => ?_,fun h => ⟨_,h⟩⟩
  rw [mem_singleton.mp inside]
  exact there

end

theorem globalSpec_references {spec : GlobalSpec} (specified : env.globalSpec role = .ok spec) :
    (spec.initializer.map references).getD [] = [] := by
  cases role with
  | unit => cases specified; rfl
  | staticField id | descriptor cls | singleton cls =>
    simp only [Environment.globalSpec,bind,Except.bind,pure,Except.pure] at specified
    repeat' split at specified
    all_goals cases specified
    all_goals rfl

theorem globalOf (linked : s.Linked env bodies)
    (run : Runs (globalOf role) env s global s') : s.Links env bodies s' [.has (.global global)] := by
  unfold Lower.globalOf at run
  simp only [runs_bind,runs_get,and_assoc,exists_and_left,exists_eq_left] at run
  cases entered : s.symbols.globals.get? role with
  | some old =>
    simp only [entered,runs_pure] at run
    obtain ⟨rfl,rfl⟩ := run
    exact .already linked (linked.globals entered)
  | none =>
    simp only [entered,runs_bind,runs_read,runs_lift,runs_onModule,runs_modifySymbols,
      runs_pure,and_assoc,exists_and_left,exists_eq_left] at run
    obtain ⟨spec,specified,rfl,-,rfl⟩ := run
    have links := linked.defined spec.name spec.type spec.initializer spec.isMutable spec.linkage
      (by simp [globalSpec_references specified])
    refine ⟨{ links.linked with globals := fun {x global} there => ?_ },links.more,links.found,links.functions⟩
    exact of_insert there (links.found _ (.head _)) links.linked.globals

theorem placed (linked : s.Linked env bodies) (name : String) (type : NativeType) (contents : StaticContents)
    (refers : ∀ r ∈ contents.references, s.builder.output.has r = true) :
    s.Links env bodies { s with builder := { s.builder with output := (s.builder.output.addDatum name type contents).2 } }
      [.has (.data (s.builder.output.addDatum name type contents).1)] := by
  obtain ⟨output,more,there⟩ := linked.output.addDatum name type refers
  exact ⟨linked.output_grown output more rfl rfl,more,fun _ h => mem_singleton.mp h ▸ there,fun h => ⟨_,h⟩⟩

theorem literalOf {constant : Constant} {literal : Literal} (linked : s.Linked env bodies)
    (run : Runs (literalOf constant) env s literal s') : s.Links env bodies s' literal.relies := by
  cases constant with
  | string value =>
    simp only [Lower.literalOf,runs_bind,runs_get,runs_set,runs_pure,and_assoc,exists_and_left,
      exists_eq_left] at run
    obtain ⟨rfl,-,rfl⟩ := run
    unfold StringPool.intern
    cases entered : s.strings.places.get? value with
    | some data => exact .already linked (linked.strings entered)
    | none =>
      have links := linked.placed s!"str.{s.strings.places.size}" .ptr (.string value) (by simp [StaticContents.references])
      refine ⟨{ links.linked with strings := fun {x data} there => ?_ },links.more,links.found,links.functions⟩
      exact of_insert there (links.found _ (.head _)) links.linked.strings
  | _ =>
    obtain ⟨rfl,rfl⟩ := runs_pure.mp run
    exact .refl linked

end State.Linked

/-! ### Code -/

/-- What is found stays so as long as the run is linked. -/
def linkage (env : Environment) (bodies : List FunctionId) : Discipline Finding where
  holds s := s.Linked env bodies ∧ s.Ready bodies
  knows s := s.Knows env bodies

section
variable {α : Type} {env : Environment} {bodies : List FunctionId} {needs : List Finding} {step : Lower α} {gives : α → List Finding}

theorem State.Ready.after {s s' : State} {found : List Finding} {done : List FunctionId} (ready : s.Ready done)
    (links : s.Links env bodies s' found) : s'.Ready done := by
  intro f inside
  obtain ⟨id,entered⟩ := ready f inside
  exact links.functions entered

theorem keeps_links (links : ∀ {s a s'}, s.Linked env bodies → s.Ready bodies →
    (∀ f ∈ needs, s.Knows env bodies f) → Runs step env s a s' → s.Links env bodies s' (gives a)) :
    (linkage env bodies).Keeps env needs step gives where
  lead holds known run := by
    have result := links holds.1 holds.2 known run
    exact ⟨⟨result.linked,holds.2.after result⟩,fun f there => result.knows there,result.found⟩

theorem keeps_unlinked (same : ∀ {s a s'}, Runs step env s a s' →
      s'.builder.output = s.builder.output ∧ s'.symbols = s.symbols ∧ s'.strings = s.strings) :
    (linkage env bodies).Keeps env needs step noFacts := by
  refine keeps_links fun linked _ _ run => ?_
  obtain ⟨output,symbols,strings⟩ := same run
  exact linked.same output symbols strings

theorem keeps_act {m : Build α} {action : Action α} (acts : m.Acts action) (proper : action.Proper needs gives) :
    (linkage env bodies).Keeps env needs (build m) gives := by
  refine keeps_links fun {s a s'} linked ready known run => ?_
  obtain ⟨b,built,rfl⟩ := runs_build.mp run
  obtain ⟨p,here,result,rfl⟩ := acts.runs built
  obtain ⟨id,-,there,output⟩ := Builder.exists_current here
  have develops := proper.develops s.builder.cursor s.builder.emitLabels p
  have links : s.Links env bodies { s with builder := s.builder.put (action.inside s.builder.cursor s.builder.emitLabels p).2 } [] :=
    linked.becomes there develops.id develops.name develops.header develops.relies known (output _) rfl rfl
  refine ⟨links.linked,links.more,fun f inside => ?_,links.functions⟩
  obtain ⟨b,rfl | rfl⟩ := proper.finds inside
  · trivial
  · trivial

theorem links_scopeState {id : Nat} : (linkage env bodies).Keeps env needs (scopeState id) ScopeState.remembered := by
  refine keeps_links fun linked _ _ run => ?_
  rw [(runs_scopeState.mp run).2]
  refine { State.Links.refl linked with found := fun f inside => ?_ }
  rcases ScopeState.mem_remembered.mp inside with ⟨pad,rfl,-⟩ | ⟨k,rfl,-⟩
  · trivial
  · trivial

theorem links_modifyScope {id : Nat} {f : ScopeState → ScopeState} :
    (linkage env bodies).Keeps env needs (modifyScope id f) noFacts := by
  refine keeps_unlinked fun run => ?_
  rw [runs_modifyScope.mp run]
  exact ⟨rfl,rfl,rfl⟩

theorem keeps_surrounded {inner : Nat → Lower α} (keeps : ∀ n, (linkage env bodies).Keeps env needs (inner n) gives)
    (parts : ∀ {s a s'}, Runs step env s a s' → ∃ n s₁ s₂, Runs (inner n) env s₁ a s₂ ∧
      (s₁.builder.output = s.builder.output ∧ s₁.symbols = s.symbols ∧ s₁.strings = s.strings) ∧
      s'.builder.output = s₂.builder.output ∧ s'.symbols = s₂.symbols ∧ s'.strings = s₂.strings) :
    (linkage env bodies).Keeps env needs step gives where
  lead {s a s'} holds known run := by
    obtain ⟨n,s₁,s₂,run₁,⟨output₁,symbols₁,strings₁⟩,output₂,symbols₂,strings₂⟩ := parts run
    have first := holds.1.same output₁ symbols₁ strings₁
    obtain ⟨⟨linked₂,ready₂⟩,kept,given⟩ := (keeps n).lead ⟨first.linked,holds.2.after first⟩
      (fun f inside => first.knows (known f inside)) run₁
    have last := linked₂.same output₂ symbols₂ strings₂
    exact ⟨⟨last.linked,ready₂.after last⟩,fun f there => last.knows (kept f (first.knows there)),
      fun f inside => last.knows (given f inside)⟩

theorem Composed.links (composed : Composed needs step gives) : (linkage env bodies).Keeps env needs step gives := by
  induction composed with
  | pure old => exact .pure old
  | bindKnown _ sure _ first second => exact first.bindKnown (fun _ _ run => sure run) second
  | mono _ more fewer ih => exact ih.mono more fewer
  | throw => exact .throw
  | lift => exact .lift
  | ask _ _ each => exact .readThen (each env)
  | look _ _ each => exact .get each
  | inspect _ _ each => exact .buildGet each
  | isTerminated => exact .isTerminated
  | log =>
    refine keeps_unlinked fun run => ?_
    rw [runs_log.mp run]
    exact ⟨rfl,rfl,rfl⟩
  | scopeState => exact links_scopeState
  | bindVariable => exact links_modifyScope
  | recollect has put absent _ _ _ _ _ _ _ _ making old new =>
    refine .bind links_scopeState fun state => ?_
    cases known : has state with
    | some k => exact old known
    | none =>
      rw [absent known]
      exact .bind (making.widen (nil_subset _)) fun k => .andThen links_modifyScope fun _ =>
        (new k).widen ((sublist_append_right _ _).append_left _).subset
  | slot? => exact .get fun _ => .done
  | withScope _ inner =>
    refine keeps_surrounded (fun number => .infer (f := .guarding number) (fun _ _ => trivial)
      (.infer (f := .opened number) (fun _ _ => trivial) (inner number))) fun run => ?_
    obtain ⟨s₁,inside,rfl⟩ := runs_withScope.mp run
    exact ⟨_,_,s₁,inside,⟨rfl,rfl,rfl⟩,rfl,rfl,rfl⟩
  | atBlock _ _ inner =>
    refine keeps_surrounded (fun _ => inner) fun run => ?_
    obtain ⟨s₁,inside,rfl⟩ := runs_atBlock.mp run
    exact ⟨0,_,s₁,inside,⟨rfl,rfl,rfl⟩,rfl,rfl,rfl⟩
  | build constructs =>
    obtain ⟨action,acts,proper⟩ := constructs.acts
    exact keeps_act acts proper
  | callAt _ parts => exact .infer (f := .unguarded) (fun _ _ => trivial) parts
  | insertionBlock =>
    refine keeps_unlinked fun run => ?_
    obtain ⟨b,built,rfl⟩ := runs_build.mp run
    rw [(Build.runs_insertionBlock.mp built).2]
    exact ⟨rfl,rfl,rfl⟩
  | switchTo =>
    refine keeps_unlinked fun run => ?_
    obtain ⟨b,built,rfl⟩ := runs_build.mp run
    rw [Build.runs_switchTo.mp built]
    exact ⟨rfl,rfl,rfl⟩
  | procedureOf =>
    refine keeps_links fun linked ready _ run => ?_
    obtain ⟨links,there⟩ := linked.procedureOf ready run
    exact ⟨links.linked,links.more,fun _ h => mem_singleton.mp h ▸ (links.linked.known there).1,links.functions⟩
  | directTarget => exact keeps_links fun linked ready _ run => linked.directTarget ready run
  | supportTarget => exact keeps_links fun linked _ _ run => linked.supportTarget run
  | globalOf => exact keeps_links fun linked _ _ run => linked.globalOf run
  | literalOf => exact keeps_links fun linked _ _ run => linked.literalOf run
  | placeArray known =>
    refine keeps_links fun linked _ held run => ?_
    obtain ⟨rfl,rfl⟩ := runs_onModule.mp run
    exact linked.placed _ _ _ fun r inside => held _ (known r inside)
  | placeAggregate known =>
    refine keeps_links fun linked _ held run => ?_
    obtain ⟨rfl,rfl⟩ := runs_onModule.mp run
    exact linked.placed _ _ _ fun r inside => held _ (known r inside)

end

end BlockLowering
