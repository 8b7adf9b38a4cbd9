import BlockLowering.Proofs.Linking
import BlockLowering.Proofs.TypePreservation
/-!
Linked programs. The rounds over the units of a program keep a run linked, so that no reference of the module
that it returns dangles. A function is called with its own signature, unless a name is imported more than once.
-/
namespace BlockLowering
open Lower List Option Table SourceUnit Composed FunctionDecl State Literal
variable {env : Environment} {bodies : List FunctionId} {s s' : State} {m : Module} {name : String} {header : Header} {function : FunctionDecl}
  {units : List SourceUnit} {decls : Declarations} {signature : Signature} {r : Reference} {k : Block} {id : ProcId}

/-! ### Declarations -/

namespace State.Linked
variable {env : Environment} {bodies : List FunctionId} {s s' : State} {id : ProcId} {u : Unit}

theorem declareProcedure (linked : s.Linked env bodies)
    (run : Runs (build (Build.declareProcedure name header)) env s id s') :
    s.Links env bodies s' [.has (.proc id)] ∧ s.builder.output.has (.proc id) = false ∧ s'.symbols = s.symbols ∧
      s'.builder.output.procedures.get? id = some (.new id name header) := by
  obtain ⟨rfl,rfl⟩ := runs_declareProcedure.mp run
  obtain ⟨output,more⟩ := linked.output.declareProcedure name header
  have there : (s.builder.output.takeProcedureId.2.addProcedure (.new ⟨s.builder.output.nextProcedure⟩ name header)).procedures.get?
      ⟨s.builder.output.nextProcedure⟩ = some (.new ⟨s.builder.output.nextProcedure⟩ name header) :=
    get?_insert.trans (if_pos rfl)
  refine ⟨⟨linked.output_grown output more rfl rfl,more,fun f inside => ?_,fun h => ⟨_,h⟩⟩,?_,rfl,there⟩
  · rw [mem_singleton.mp inside]
    exact Bool.or_eq_true_iff.mpr (.inl (contains_iff.mpr ⟨_,there⟩))
  · rw [Bool.eq_false_iff]
    intro old
    rcases Bool.or_eq_true_iff.mp old with defined | external
    · obtain ⟨p,found⟩ := contains_iff.mp defined
      exact Nat.lt_irrefl _ (linked.output.numbered.procedures found)
    · obtain ⟨e,found⟩ := contains_iff.mp external
      exact Nat.lt_irrefl _ (linked.output.numbered.externs found).1

theorem declareFunction (linked : s.Linked env bodies) {f : FunctionId} (present : f ∈ bodies)
    (run : Runs (declareFunction f) env s u s') : s.Links env bodies s' [] ∧ ∃ id, s'.symbols.functions.get? f = some id := by
  unfold Lower.declareFunction at run
  simp only [runs_bind,runs_read,runs_lift,runs_modifySymbols,getFunction_eq,and_assoc,
    exists_and_left,exists_eq_left] at run
  obtain ⟨function,declared,proc,s₁,entered,rfl⟩ := run
  obtain ⟨links,fresh,symbols,there⟩ := linked.declareProcedure entered
  have stale : ∀ {g id}, s₁.symbols.functions.get? g = some id → id ≠ proc := by
    rintro g id old rfl
    rw [(linked.known (symbols ▸ old)).1] at fresh
    cases fresh
  have entry : ∀ x, (s₁.symbols.functions.insert f proc).get? x = if x = f then some proc else s₁.symbols.functions.get? x :=
    fun _ => get?_insert
  refine ⟨⟨{ links.linked with
    output := links.linked.output.mono fun x known => ⟨known.1,contains_insert known.2⟩
    functions := fun {x id} known => ?_
    apart := fun {x y id p} known known' defined => ?_ },links.more,by simp,
      fun known => contains_iff.mp (contains_insert (contains_iff.mpr ⟨_,symbols ▸ known⟩))⟩,proc,(entry f).trans (if_pos rfl)⟩
  · rw [entry] at known
    split at known
    · rename_i here
      subst here
      cases known
      exact ⟨function,declared,.inl ⟨present,_,there,Procedure.signature_new _ _ _⟩⟩
    · exact links.linked.functions known
  · rw [entry] at known known'
    split at known <;> split at known'
    · rename_i here here'
      exact here.trans here'.symm
    · exact absurd (some.inj known).symm (stale known')
    · exact absurd (some.inj known').symm (stale known)
    · exact links.linked.apart known known' defined

theorem declareStaticField (linked : s.Linked env bodies) {f : FieldId}
    (run : Runs (declareStaticField f) env s u s') : s.Links env bodies s' [] := by
  unfold Lower.declareStaticField at run
  simp only [runs_bind,runs_read,runs_lift,and_assoc,exists_and_left,exists_eq_left] at run
  obtain ⟨field,-,run⟩ := run
  have last : ∀ {s₁ : State} {initial : Literal}, s.Links env bodies s₁ initial.relies → Runs (do
      let global ← onModule fun m => m.defineGlobal (env.decls.fieldSymbol field) field.ty.storage (some initial) true
        (if field.isExternal then Linkage.imported else .exported)
      modifySymbols fun symbols => { symbols with globals := symbols.globals.insert (.staticField f) global }) env s₁ u s' →
      s.Links env bodies s' [] := by
    intro s₁ initial first run
    simp only [runs_bind,runs_onModule,runs_modifySymbols,and_assoc,exists_and_left,
      exists_eq_left] at run
    subst run
    have second := first.linked.defined (env.decls.fieldSymbol field) field.ty.storage (some initial) true
      (if field.isExternal then Linkage.imported else .exported)
      fun r inside => first.found _ (mem_map_of_mem inside)
    refine ⟨{ second.linked with globals := fun {x global} there => ?_ },first.more.trans second.more,by simp,first.functions⟩
    exact of_insert there (second.found _ (.head _)) second.linked.globals
  split at run
  · obtain ⟨initial,s₁,given,run⟩ := runs_bind.mp run
    exact last (linked.literalOf given) run
  · refine last ?_ run
    rw [relies,field.ty.references_zero]
    exact .refl linked

end State.Linked

theorem State.Linked.declareUnit {u : Unit} (linked : s.Linked env bodies)
    {unit : SourceUnit} (present : ∀ body ∈ unit.functions, body.function ∈ bodies)
    (run : Runs (declareUnit unit) env s u s') : s.Links env bodies s' [] ∧ s'.Ready (unit.functions.map FunctionBody.function) := by
  obtain ⟨_,s₁,functions,fields⟩ := runs_bind.mp run
  obtain ⟨links₁,ready₁⟩ := functions.forM (fun before _ s₁ => s.Links env bodies s₁ [] ∧ s₁.Ready (before.map FunctionBody.function))
    ⟨.refl linked,by simp [State.Ready]⟩ (by
      rintro before body rest s₁ u s₂ split ⟨links,ready⟩ declared
      obtain ⟨next,entered⟩ := links.linked.declareFunction (present body (split ▸ by simp)) declared
      refine ⟨links.trans next,fun f inside => ?_⟩
      rw [map_append,mem_append] at inside
      rcases inside with old | new
      · exact ready.after next f old
      · rw [mem_singleton.mp new]
        exact entered)
  exact fields.forM (fun _ _ s₂ => s.Links env bodies s₂ [] ∧ s₂.Ready _) ⟨links₁,ready₁⟩ (by
    rintro before field rest s₁ u s₂ - ⟨links,ready⟩ declared
    have next := links.linked.declareStaticField declared
    exact ⟨links.trans next,ready.after next⟩)

/-! ### Bodies -/

section
variable {env : Environment} {bodies : List FunctionId} {needs : List Finding} {id : ProcId}
variable {p : Procedure} {unit : SourceUnit}

theorem Procedure.relies_of_pruned {f : Finding} (relied : p.pruned.Relies f) : p.Relies f := by
  obtain ⟨b,k,found,inside⟩ := relied
  obtain ⟨-,k₀,there,rfl⟩ := Graph.exists_of_prune found
  exact ⟨b,k₀,there,inside⟩

theorem Module.modifyProcedure_known (found : m.procedures.get? id = some p)
    (f : Procedure → Procedure) : m.modifyProcedure id f = m.modifyProcedure id fun _ => f p := by
  rw [modifyProcedure,modifyProcedure,modify_congr found (g := fun _ => f p) rfl]

theorem State.Linked.changes (linked : s.Linked env bodies) {f : Procedure → Procedure}
    (there : s.builder.output.procedures.get? id = some p) (sameId : (f p).id = p.id) (sameName : (f p).name = p.name)
    (sameHeader : (f p).header = p.header) (relies : ∀ {x}, (f p).Relies x → p.Relies x)
    (output : s'.builder.output = s.builder.output.modifyProcedure id f) (symbols : s'.symbols = s.symbols)
    (strings : s'.strings = s.strings) : s.Links env bodies s' [] := by
  rw [Module.modifyProcedure_known there] at output
  exact linked.becomes there sameId sameName sameHeader (fun relied => .inl (relies relied))
    (fun _ none => absurd none not_mem_nil) output symbols strings

theorem keeps_begin {location : Location} : (linkage env bodies).Keeps env needs (build do
    Build.beginProcedure id
    Build.modifyProcedure fun p => { p with location }) noFacts := by
  refine keeps_links fun {s a s'} linked _ _ run => ?_
  obtain ⟨p,found,rfl⟩ := run.begun
  exact linked.changes found rfl rfl rfl (fun relied => relied) rfl rfl rfl

theorem keeps_startProcedure :
    (linkage env bodies).Keeps env needs (build (Build.startProcedure name header)) fun id => [.has (.proc id)] := by
  refine .buildBind (keeps_links fun linked _ _ run => (linked.declareProcedure run).1) fun id => ?_
  refine .buildThen (keeps_unlinked fun run => ?_) fun _ => ?_
  · obtain ⟨builder,built,rfl⟩ := runs_build.mp run
    obtain rfl := Build.runs_modify.mp built
    exact ⟨rfl,rfl,rfl⟩
  · exact .pure (subset_append_left _ _)

theorem keeps_log {event : Event} : (linkage env bodies).Keeps env needs (log event) noFacts := log.links

theorem keeps_finishFunction : (linkage env bodies).Keeps env needs (finishFunction id) noFacts := by
  refine keeps_links fun {s a s'} linked _ _ run => ?_
  obtain ⟨p,log,found,-,rfl⟩ := run.finished
  obtain ⟨id,name,header,relies⟩ : (env.settings.finished p).id = p.id ∧ (env.settings.finished p).name = p.name ∧
      (env.settings.finished p).header = p.header ∧ ∀ x, (env.settings.finished p).Relies x → p.Relies x := by
    obtain same | same := env.settings.finished_cases p
    · rw [same]
      exact ⟨rfl,rfl,rfl,fun _ relied => relied⟩
    · rw [same]
      exact ⟨rfl,rfl,rfl,fun _ relied => Procedure.relies_of_pruned relied⟩
  exact linked.changes found id name header (fun relied => relies _ relied) rfl rfl rfl

theorem keeps_resetScopes : (linkage env bodies).Keeps env needs resetScopes noFacts := by
  refine keeps_unlinked fun run => ?_
  obtain rfl := runs_modify.mp run
  exact ⟨rfl,rfl,rfl⟩

theorem keeps_parameterRegisters :
    (linkage env bodies).Keeps env needs (parameterRegisters function) noFacts := by
  refine .get fun s => ?_
  dsimp only
  split
  · exact .breach
  · exact .done

theorem keeps_lowerFunction {body : FunctionBody} : (linkage env bodies).Keeps env needs (lowerFunction body) noFacts := by
  refine .readThen (.andThen .lift fun function => .andThen procedureOf.links.forget fun proc => .andThen keeps_log fun _ =>
    .andThen keeps_begin fun _ => .andThen keeps_resetScopes fun _ => .andThen keeps_parameterRegisters fun bindings => ?_)
  exact .andThen (.infer (f := .returning) (fun _ _ => trivial) (Composed.body.links.widen (by simp))) fun _ => keeps_finishFunction

theorem keeps_lowerInitializerFunction {pending : List (FieldId × Expr)} :
    (linkage env bodies).Keeps env needs (lowerInitializerFunction unit pending) fun id => [.has (.proc id)] := by
  refine .bind keeps_startProcedure fun proc => .andThen keeps_resetScopes fun _ => ?_
  refine .andThen (.infer (f := .returning) (fun _ _ => trivial) (Composed.initializers.links.widen (by simp))) fun _ => .andThen keeps_finishFunction fun _ => ?_
  exact .pure (subset_append_left _ _)

theorem keeps_lowerInitializerLink {initializer : ProcId} (known : .has (.proc initializer) ∈ needs) :
    (linkage env bodies).Keeps env needs (lowerInitializerLink unit initializer) fun id => [.has (.proc id)] := by
  have defined : (linkage env bodies).Keeps env needs (onModule fun m => m.defineGlobal s!"{unit.name}$init_node"
      initializerNode (some (.aggregate [.proc initializer,.null])) true .internal) fun node => [.has (.global node)] := by
    refine keeps_links fun linked _ held run => ?_
    obtain ⟨rfl,rfl⟩ := runs_onModule.mp run
    refine linked.defined _ _ _ _ _ fun r inside => ?_
    have only : r = .proc initializer := by simpa [references,allReferences] using inside
    exact only ▸ held _ known
  refine .bind defined fun node => .bind keeps_startProcedure fun proc => ?_
  refine .andThen (globalAddress (by simp)).links fun _ => .bind supportTarget.links fun target => ?_
  refine .andThen (Composed.callPlain (by simp)).links fun _ => .andThen (.infer (f := .returning) (fun _ _ => trivial) (ret (by simp)).links) fun _ =>
      .andThen keeps_finishFunction fun _ => .pure (by simp)

theorem Discipline.Keeps.forM {Fact α : Type} {d : Discipline Fact} {needs : List Fact} {f : α → Lower PUnit}
    (each : ∀ x, d.Keeps env needs (f x) noFacts) (xs : List α) : d.Keeps env needs (xs.forM f) noFacts := by
  induction xs with
  | nil => exact .done
  | cons x rest ih => exact .andThen (each x) fun _ => ih

theorem keeps_lowerUnitInitializers : (linkage env bodies).Keeps env needs (lowerUnitInitializers unit) noFacts := by
  refine .andThen (.still (fun run => run.pendingInitializers.1) fun _ => nil_subset _) fun pending => ?_
  split
  · exact .done
  · refine .andThen keeps_log fun _ => .bind keeps_lowerInitializerFunction fun initializer =>
      .bind (keeps_lowerInitializerLink (by simp)) fun constructor => .andThen (keeps_links fun linked _ held run => ?_) fun _ => keeps_log
    obtain ⟨-,rfl⟩ := runs_onModule.mp run
    obtain ⟨output,more⟩ := linked.output.addConstructor (held (.has (.proc constructor)) (by simp))
    exact linked.grows output more rfl rfl

theorem keeps_lowerUnit : (linkage env bodies).Keeps env needs (lowerUnit unit) noFacts :=
  .andThen keeps_log fun _ => .andThen (.forM (fun _ => keeps_lowerFunction) _) fun _ => keeps_lowerUnitInitializers

end

/-! ### Programs -/

theorem State.Linked.start (env : Environment) (bodies : List FunctionId) : (start env.settings .empty).Linked env bodies where
  output := .new _
  functions h := by cases h
  apart h _ _ := by cases h
  globals h := by cases h
  strings h := by cases h

theorem Lower.Runs.lowerUnits_linked (run : Runs (lowerUnits units) env (start env.settings .empty) m s) :
    s.builder.output = m ∧ s.Linked env (defined units) := by
  obtain ⟨s₁,s₂,_,declared,filled,rfl,rfl⟩ := run.lowerUnits_parts
  -- Every function with a body has its symbol before the first body is lowered.
  obtain ⟨linked₁,ready₁⟩ := declared.forM (fun before _ s => s.Linked env (defined units) ∧ s.Ready (defined before))
    ⟨Links.linked ((Linked.start env _).same rfl rfl rfl),fun _ none => absurd none not_mem_nil⟩ (by
      rintro before unit rest s u s' split ⟨linked,ready⟩ entered
      have present : ∀ body ∈ unit.functions, body.function ∈ defined units := by
        intro body own
        exact mem_map_of_mem (mem_flatMap.mpr ⟨unit,split ▸ by simp,own⟩)
      obtain ⟨links,new⟩ := linked.declareUnit present entered
      refine ⟨links.linked,fun f inside => ?_⟩
      simp only [defined,bodies,flatMap_append,map_append,mem_append,flatMap_singleton] at inside
      exact inside.elim (ready.after links f) (new f))
  obtain ⟨⟨linked₂,-⟩,-,-⟩ := (Discipline.Keeps.forM (fun _ => keeps_lowerUnit) units).lead ⟨linked₁,ready₁⟩
    (fun _ none => absurd none not_mem_nil) filled
  exact ⟨rfl,Links.linked (linked₂.same rfl rfl rfl)⟩

theorem lowerModule_eq_ok {settings : Settings} :
    (lowerModule settings decls units).result = .ok m ↔
      ∃ s, Runs (lowerUnits units) ⟨decls,settings,.ofDeclarations decls⟩ (start settings .empty) m s := by
  constructor
  · exact fun lowered => ⟨_,Prod.ext lowered rfl⟩
  · rintro ⟨_,run⟩
    exact congrArg Prod.fst run

/-! ### References -/

/-- Every entry of a module stands under its own number, and no function is both defined and external. -/
structure Module.Keyed (m : Module) : Prop where
  procedures : ∀ id p, m.procedures.get? id = some p → p.id = id
  externs : ∀ id e, m.externs.get? id = some e → e.id = id
  globals : ∀ id g, m.globals.get? id = some g → g.id = id
  data : ∀ id d, m.data.get? id = some d → d.id = id
  disjoint : ∀ id, m.procedures.contains id = false ∨ m.externs.contains id = false

theorem Callee.relied {callee : Callee} {signature : Signature} {r : Reference} (inside : r ∈ callee.references) :
    ∃ id, r = .proc id ∧ .callee id signature ∈ callee.relies signature := by
  cases callee with
  | direct id => exact ⟨id,mem_singleton.mp inside,mem_singleton.mpr rfl⟩
  | indirect _ => cases inside

theorem Block.relied {k : Block} {r : Reference} (inside : r ∈ k.references) :
    .has r ∈ k.relies ∨ ∃ id signature, r = .proc id ∧ .callee id signature ∈ k.relies := by
  simp only [references,relies,mem_append,mem_flatMap] at inside ⊢
  rcases inside with ⟨i,there,own⟩ | ⟨t,there,own⟩
  · cases i with
    | const dest value => exact .inl (.inl ⟨_,there,mem_map_of_mem own⟩)
    | call dest site =>
      obtain ⟨id,rfl,relied⟩ := Callee.relied own
      exact .inr ⟨id,site.signature,rfl,.inl ⟨_,there,relied⟩⟩
    | _ => cases own
  · cases t with
    | invoke dest site normal unwind =>
      obtain ⟨id,rfl,relied⟩ := Callee.relied own
      exact .inr ⟨id,site.signature,rfl,.inr ⟨_,there,.tail _ (.tail _ relied)⟩⟩
    | _ => cases own

namespace Module.Linked
variable {decls : Declarations} {outside : FunctionId → Prop} {m : Module}

theorem keyed (linked : m.Linked decls outside) : m.Keyed where
  procedures _ _ := linked.procedures
  externs _ _ found := (linked.numbered.externs found).2.1
  globals _ _ found := (linked.globals found).1
  data _ _ found := (linked.data found).1
  disjoint id := by
    cases external : m.externs.get? id with
    | none => exact .inr (by simp [Table.contains,external])
    | some e => exact .inl (by simp [Table.contains,(linked.numbered.externs external).2.2])

theorem resolves (linked : m.Linked decls outside) (inside : r ∈ m.references) : m.has r = true := by
  simp only [references,mem_append,mem_flatMap,List.mem_map,mem_values_iff] at inside
  rcases inside with ((⟨p,⟨id,there⟩,k,⟨b,found⟩,own⟩ | ⟨g,⟨id,there⟩,own⟩) | ⟨d,⟨id,there⟩,own⟩) | ⟨id,listed,rfl⟩
  · rcases Block.relied own with relied | ⟨callee,signature,rfl,relied⟩
    · exact linked.code there ⟨b,k,found,relied⟩
    · exact (linked.code there ⟨b,k,found,relied⟩).callee_has
  · exact (linked.globals there).2 r own
  · exact (linked.data there).2.2 r own
  · exact linked.constructors id listed

end Module.Linked

section
variable {settings : Settings} {decls : Declarations} {units : List SourceUnit} {m : Module}

theorem lowerModule_linked (lowered : (lowerModule settings decls units).result = .ok m) : ∃ outside, m.Linked decls outside := by
  obtain ⟨s,run⟩ := lowerModule_eq_ok.mp lowered
  obtain ⟨rfl,linked⟩ := run.lowerUnits_linked
  exact ⟨_,linked.output⟩

/-- Whatever code, initial values, static data and the list of constructors of a module refer to is in the
    module, and the tables of the module are in order. -/
theorem lowerModule_references_resolve (lowered : (lowerModule settings decls units).result = .ok m) :
    (∀ r ∈ m.references, m.has r = true) ∧ m.Keyed := by
  obtain ⟨_,linked⟩ := lowerModule_linked lowered
  exact ⟨fun _ => linked.resolves,linked.keyed⟩

/-- A static field with a text, and one that is initialized by a call. -/
def registryDecls : Declarations := .ofLists []
  [.topLevel ⟨0⟩ "f" [⟨⟨0⟩,"x",.int⟩] .unit,{ topLevel ⟨1⟩ "g" [⟨⟨1⟩,"y",.int⟩] .int with isExternal := true }]
  [{ FieldDecl.global ⟨0⟩ "name" (.any false) with constantInitializer := some (.string "registry") },
    { FieldDecl.global ⟨1⟩ "count" .int with initializer := some (.call ⟨1⟩ [.int 1] .int) }]

def registryUnit : SourceUnit :=
  ⟨"m",[⟨⟨0⟩,.writeField ⟨1⟩ none (.call ⟨1⟩ [.readVar ⟨0⟩ .int] .int)⟩],[⟨0⟩,⟨1⟩]⟩

theorem registryUnit_references_resolve : ∃ m, (lowerModule .development registryDecls [registryUnit]).result = .ok m ∧
    [.proc ⟨1⟩,.global ⟨1⟩,.data ⟨0⟩,.proc ⟨2⟩,.proc ⟨3⟩] ⊆ m.references ∧ (∀ r ∈ m.references, m.has r = true) ∧ m.Keyed := by
  obtain ⟨m,lowered,among⟩ := exists_module .development registryDecls [registryUnit]
    (fun m => decide ([.proc ⟨1⟩,.global ⟨1⟩,.data ⟨0⟩,.proc ⟨2⟩,.proc ⟨3⟩] ⊆ m.references)) (by decide +kernel)
  exact ⟨m,lowered,of_decide_eq_true among,lowerModule_references_resolve lowered⟩

end

/-! ### Calls -/

def Instr.site? : Instr → Option CallSite
  | .call _ site => some site
  | _ => none

def Terminator.site? : Terminator → Option CallSite
  | .invoke _ site _ _ => some site
  | _ => none

def Module.callSites (m : Module) : List CallSite :=
  m.procedures.values.flatMap fun p => p.graph.blocks.values.flatMap fun k =>
    k.instrs.filterMap Instr.site? ++ (k.terminator.bind Terminator.site?).toList

theorem Block.relies_site {site : CallSite}
    (inside : site ∈ k.instrs.filterMap Instr.site? ++ (k.terminator.bind Terminator.site?).toList)
    (direct : site.callee = .direct id) : .callee id site.signature ∈ k.relies := by
  have own : .callee id site.signature ∈ site.relies := by simp [CallSite.relies,Callee.relies,direct]
  simp only [relies,mem_append,mem_flatMap]
  rcases mem_append.mp inside with called | invoked
  · obtain ⟨i,there,same⟩ := mem_filterMap.mp called
    cases i with
    | call dest site' =>
      cases same
      exact .inl ⟨_,there,own⟩
    | _ => cases same
  · obtain ⟨t,ended,same⟩ := bind_eq_some_iff.mp (mem_toList.mp invoked)
    cases t with
    | invoke dest site' normal unwind =>
      cases same
      exact .inr ⟨_,mem_toList.mpr ended,.tail _ (.tail _ own)⟩
    | _ => cases same

theorem Module.Linked.declared {outside : FunctionId → Prop} (linked : m.Linked decls outside)
    (known : m.Knows decls outside (.callee id signature)) :
    ∃ declared, m.signature? id = some declared ∧ (declared = signature ∨
      ∃ e, m.externs.get? id = some e ∧ Imports decls outside e.name declared ∧ Imports decls outside e.name signature) := by
  rcases known with ⟨p,found,same⟩ | ⟨e,found,imported⟩
  · exact ⟨signature,by simp [signature?,found,same],.inl rfl⟩
  · refine ⟨e.header.signature,?_,.inr ⟨e,found,linked.externs found,imported⟩⟩
    simp [signature?,found,(linked.numbered.externs found).2.2]

theorem State.Linked.shared_iff (linked : s.Linked env bodies)
    {f g : FunctionId} {i j : ProcId} {function' : FunctionDecl} (known : s.symbols.functions.get? f = some i)
    (known' : s.symbols.functions.get? g = some j) (declared : env.decls.functions.get? f = some function)
    (declared' : env.decls.functions.get? g = some function') :
    i = j ↔ f = g ∨ f ∉ bodies ∧ g ∉ bodies ∧ env.decls.functionSymbol function = env.decls.functionSymbol function' := by
  obtain ⟨_,here,stands⟩ := linked.functions known
  obtain rfl := mem_unique declared here
  obtain ⟨_,here',stands'⟩ := linked.functions known'
  obtain rfl := mem_unique declared' here'
  constructor
  · rintro rfl
    rcases stands with ⟨-,p,defined,-⟩ | ⟨absent,e,external,named⟩
    · exact .inl (linked.apart known known' defined)
    · rcases stands' with ⟨-,p,defined,-⟩ | ⟨absent',e',external',named'⟩
      · simp [(linked.output.numbered.externs external).2.2] at defined
      · obtain rfl := mem_unique external external'
        exact .inr ⟨absent,absent',named.symm.trans named'⟩
  · rintro (rfl | ⟨absent,absent',same⟩)
    · exact mem_unique known known'
    · rcases stands with ⟨present,-⟩ | ⟨-,e,external,named⟩
      · exact absurd present absent
      · rcases stands' with ⟨present,-⟩ | ⟨-,e',external',named'⟩
        · exact absurd present absent'
        · exact linked.output.distinct external external' (named.trans (same.trans named'.symm))

section
variable {settings : Settings} {decls : Declarations} {units : List SourceUnit} {m : Module}

/-- A direct call has the signature that its callee is declared with, unless the callee is external and its name
    is imported with both signatures, by functions that the program refers to. Declared functions stand for one function of the
    output only if neither has a body and their symbols are equal, and then they do. -/
theorem lowerModule_direct_calls (lowered : (lowerModule settings decls units).result = .ok m) :
    ∃ s, Runs (lowerUnits units) ⟨decls,settings,.ofDeclarations decls⟩ (State.start settings .empty) m s ∧
      (∀ site ∈ m.callSites, ∀ id, site.callee = .direct id → ∃ declared, m.signature? id = some declared ∧
        (declared = site.signature ∨ ∃ e, m.externs.get? id = some e ∧ Imports decls (s.Outside (SourceUnit.defined units)) e.name declared ∧
          Imports decls (s.Outside (SourceUnit.defined units)) e.name site.signature)) ∧
      ∀ f g i j function function', s.symbols.functions.get? f = some i → s.symbols.functions.get? g = some j →
        decls.functions.get? f = some function → decls.functions.get? g = some function' →
        (i = j ↔ f = g ∨ f ∉ SourceUnit.defined units ∧ g ∉ SourceUnit.defined units ∧
          decls.functionSymbol function = decls.functionSymbol function') := by
  obtain ⟨s,run⟩ := lowerModule_eq_ok.mp lowered
  obtain ⟨rfl,linked⟩ := run.lowerUnits_linked
  refine ⟨s,run,fun site inside id direct => ?_,fun f g i j function function' => linked.shared_iff⟩
  simp only [Module.callSites,mem_flatMap,mem_values_iff] at inside
  obtain ⟨p,⟨x,there⟩,k,⟨b,found⟩,own⟩ := inside
  exact linked.output.declared (linked.output.code there ⟨b,k,found,Block.relies_site own direct⟩)

/-- A function that calls two external functions of one name, with parameters of different types. -/
def overloadedDecls : Declarations := .ofLists []
  [.topLevel ⟨0⟩ "f" [⟨⟨0⟩,"x",.int⟩,⟨⟨1⟩,"y",.long⟩] .unit,
    { topLevel ⟨1⟩ "g" [⟨⟨2⟩,"x",.int⟩] .unit with isExternal := true },
    { topLevel ⟨2⟩ "g" [⟨⟨3⟩,"y",.long⟩] .unit with isExternal := true }] []

def overloadedUnit : SourceUnit :=
  ⟨"m",[⟨⟨0⟩,.sequence [.expression (.call ⟨1⟩ [.readVar ⟨0⟩ .int] .unit),
    .expression (.call ⟨2⟩ [.readVar ⟨1⟩ .long] .unit)] .unit⟩],[]⟩

def overloadedSite : CallSite := ⟨.direct ⟨1⟩,[⟨1⟩],⟨[.i64],.void⟩,.irrelevant⟩

theorem overloadedUnit_lowered : ∃ m, (lowerModule .development overloadedDecls [overloadedUnit]).result = .ok m ∧
    overloadedSite ∈ m.callSites ∧ m.signature? ⟨1⟩ = some ⟨[.i32],.void⟩ := by
  obtain ⟨m,lowered,passed⟩ := exists_module .development overloadedDecls [overloadedUnit]
    (fun m => decide (overloadedSite ∈ m.callSites ∧ m.signature? ⟨1⟩ = some ⟨[.i32],.void⟩)) (by decide +kernel)
  exact ⟨m,lowered,of_decide_eq_true passed⟩

/-- The second call passes a long integer to a function that is declared with an integer. -/
theorem overloadedUnit_disagrees : ∃ m, (lowerModule .development overloadedDecls [overloadedUnit]).result = .ok m ∧
    overloadedSite ∈ m.callSites ∧ m.signature? ⟨1⟩ = some ⟨[.i32],.void⟩ := overloadedUnit_lowered

theorem overloadedUnit_imports_both : ∃ m e, (lowerModule .development overloadedDecls [overloadedUnit]).result = .ok m ∧
    overloadedSite ∈ m.callSites ∧ m.externs.get? ⟨1⟩ = some e ∧
    ∃ s, Runs (lowerUnits [overloadedUnit]) ⟨overloadedDecls,.development,.ofDeclarations overloadedDecls⟩ (State.start .development .empty) m s ∧
      Imports overloadedDecls (s.Outside (SourceUnit.defined [overloadedUnit])) e.name ⟨[.i32],.void⟩ ∧
      Imports overloadedDecls (s.Outside (SourceUnit.defined [overloadedUnit])) e.name ⟨[.i64],.void⟩ := by
  obtain ⟨m,lowered,called,known⟩ := overloadedUnit_lowered
  obtain ⟨s,run,calls,-⟩ := lowerModule_direct_calls lowered
  obtain ⟨declared,same,agree | ⟨e,external,first,second⟩⟩ := calls overloadedSite called ⟨1⟩ rfl
  · cases Option.some.inj (known.symm.trans (agree ▸ same))
  · obtain rfl := Option.some.inj (known.symm.trans same)
    exact ⟨m,e,lowered,called,external,s,run,first,second⟩

end

end BlockLowering
