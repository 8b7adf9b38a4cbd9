import BlockLowering.Proofs.Lowering
import BlockLowering.Proofs.Procedures
/-!
Whole programs. Every function of the output is sound from its declaration on; it grows while its body
is lowered, is pruned as a whole, and is left alone otherwise.
-/
namespace BlockLowering
open Lower List Option Table Procedure Parameter Build And BlockLowering.Module Safe State Touches
variable {s₁ s₂ : State} {available : List Register} {function : FunctionDecl} {body : FunctionBody} {f : FunctionId} {node : GlobalId}
  {initializer : ProcId} {u : Unit}

/-! ### New functions -/

namespace Procedure

theorem registers_numberParameters (next : Nat) (parameters : List Parameter) :
    (numberParameters next parameters).map register = (range' next parameters.length).map Register.mk := by
  induction parameters generalizing next with
  | nil => rfl
  | cons p rest ih => simp [numberParameters,ih,range'_succ]

theorem types_numberParameters (next : Nat) (parameters : List Parameter) :
    (numberParameters next parameters).map type = parameters.map type := by
  induction parameters generalizing next with
  | nil => rfl
  | cons p rest ih => simp [numberParameters,ih]

theorem signature_new (id : ProcId) (name : String) (header : Header) :
    (new id name header).header.signature = header.signature := by
  show Signature.mk ((numberParameters 0 header.parameters).map type) header.result = _
  rw [types_numberParameters]
  rfl

theorem sound_new (id : ProcId) (name : String) (header : Header) : Sound (fun _ => []) (new id name header) where
  wired := Graph.Wired.new
  numbered := by
    have bounded : ∀ {r}, r ∈ (new id name header).inputs → r.index < (new id name header).nextRegister := by
      intro r inside
      have inside : r ∈ (numberParameters 0 header.parameters).map register := inside
      rw [registers_numberParameters] at inside
      obtain ⟨n,range,rfl⟩ := mem_map.mp inside
      have bound := (mem_range'_1.mp range).2
      have size := congrArg length (registers_numberParameters 0 header.parameters)
      simp only [length_map,length_range'] at size
      show n < (numberParameters 0 header.parameters).length
      omega
    have distinct : ((numberParameters 0 header.parameters).map register).Nodup := by
      rw [registers_numberParameters]
      exact Pairwise.map _ (fun a b other same => other (Register.mk.inj same)) nodup_range'
    refine ⟨fun found => ?_,fun found found' _ _ => (block?_new found).1.trans (block?_new found').1.symm,fun found inside => ?_,distinct,
      bounded,fun found => ?_,fun found => ?_⟩
    · obtain ⟨-,rfl⟩ := block?_new found
      exact nodup_nil
    · obtain ⟨-,rfl⟩ := block?_new found
      cases inside
    · have listed := mem_entries_iff.mpr found
      rw [new,entries_ofList (by rwa [List.map_map])] at listed
      obtain ⟨parameter,inside,same⟩ := mem_map.mp listed
      exact bounded (mem_map.mpr ⟨parameter,inside,(Prod.mk.inj same).1⟩)
    · obtain ⟨rfl,rfl⟩ := block?_new found
      simp [Block.Headed,Block.new,Block.code]
  supplied := by
    refine ⟨fun found code => ?_,fun found ended => ?_,fun found ended => ?_,fun found inside => ?_,rfl,by simp,by simp⟩ <;>
      obtain ⟨-,rfl⟩ := block?_new found
    · simp [Block.code,Block.new] at code
    · cases ended
    · cases ended
    · cases inside

theorem Sound.relocated {supply : Supply} {p : Procedure} (sound : Sound supply p) (location : Location) :
    Sound supply { p with location } :=
  ⟨sound.wired,
    ⟨sound.numbered.single,sound.numbered.separate,sound.numbered.defined,sound.numbered.inputs,sound.numbered.bounded,
      sound.numbered.typed,sound.numbered.headed⟩,
    ⟨sound.supplied.operands,sound.supplied.endings,sound.supplied.edges,sound.supplied.merged,sound.supplied.first,
      sound.supplied.apart,sound.supplied.bounded⟩⟩

/-- Every block that control enters and that has no end was left open by a branch. Blocks that are not
    reached may have been dropped after that. -/
def Ended (env : Environment) (roots : Expr → Prop) (p : Procedure) : Prop :=
  ∃ q, (p = q ∨ p = q.pruned) ∧ ∀ b k, q.graph.block? b = some k → k.terminator = none →
    k.predecessors ≠ [] ∨ b = q.graph.entry → LeftOpen env roots q b

end Procedure

section
variable {env : Environment} {roots : Expr → Prop} {supply : Supply} {s s' s'' : State} {p : Procedure} {id : ProcId} {waits : Waits}
variable {u : Unit} {name : String} {header : Header} {unit : SourceUnit} {pending : List (FieldId × Expr)}

/-! ### Steps between functions -/

namespace State.Touches

theorem of_leads {supply' : Supply} (current : s.builder.current = some id) (leads : Leads [] none supply s supply' s')
    (named : s'.Named env) : Touches env id s s' where
  others other := leads.others (by rw [current]; exact fun same => other (some.inj same).symm)
  functions := leads.functions
  named _ := named
  keeps _ := leads.names

end State.Touches

/-- Between functions names are right, and every function of the output is sound. -/
structure State.Settled (env : Environment) (s : State) : Prop where
  named : s.Named env
  sound : ∀ {id p}, s.builder.output.procedures.get? id = some p → ∃ supply, p.Sound supply

theorem State.Settled.touched (settled : s.Settled env) (touches : s.Touches env id s')
    (found : s'.builder.output.procedures.get? id = some p) (sound : ∃ supply, p.Sound supply) : s'.Settled env where
  named := touches.named settled.named
  sound there := of_others there touches.others found sound settled.sound

theorem State.Settled.quiet (settled : s.Settled env) (quiet : s.Quiet env s') : s'.Settled env where
  named := quiet.named settled.named
  sound found := settled.sound (quiet.procedures ▸ found)

theorem Lower.Runs.finishFunction (run : Runs (finishFunction id) env s u s') :
    State.Touches env id s s' ∧ ∃ p p', s.builder.output.procedures.get? id = some p ∧
      s'.builder.output.procedures.get? id = some p' ∧ (p' = p ∨ p' = p.pruned) := by
  obtain ⟨p,log,found,-,rfl⟩ := run.finished
  refine ⟨.of_modify rfl rfl fun q => env.settings.name_finished q,p,env.settings.finished p,found,?_,
    env.settings.finished_cases p⟩
  show (s.builder.output.procedures.modify id _).get? id = _
  rw [get?_modify,if_pos rfl,found,map_some]

/-- A function of the output has been entered, and nothing else has changed since. -/
structure State.Entered (env : Environment) (s : State) (id : ProcId) (p : Procedure) (s' : State) : Prop where
  current : s'.builder.current = some id
  stands : s'.Stands p p.graph.entry
  scopes : s'.scopes = #[.empty]
  touches : State.Touches env id s s'

theorem Stance.start (entered : State.Entered env s id p s') (named : s.Named env) (sound : p.Sound supply)
    (accounted : Accounted env roots p p.graph.entry waits.all) :
    Stance (⟨[],none,waits,[],supply,s'⟩ : Outset env roots []) p.inputs [] [] (p.IsOpen p.graph.entry) s' := by
  have standing : Standing env roots supply s' p p.graph.entry [] [] p.inputs waits := {
    stands := entered.stands
    here := sound.entry
    sound := sound
    reaches := ⟨fun r inside => sound.numbered.bounded inside,fun _ _ r inside => .inl inside⟩
    fits := trivial
    covered := by simp [Covered]
    accounted := accounted.mono (subset_append_left _ _)
    named := entered.touches.named named }
  have footing : Footing [] s' p p.graph.entry := by
    constructor
    · rw [entered.scopes]
      exact forall_mem_nil _
    · rw [entered.scopes]
      exact nodup_cons.mpr ⟨not_mem_nil,nodup_nil⟩
  exact ⟨supply,p,p.graph.entry,standing,.refl _ _ _ _,footing,Iff.rfl,forall_mem_nil _,forall_mem_nil _,
    ⟨fun _ inside => absurd inside not_mem_nil,trivial⟩,fun _ => .inl rfl⟩

theorem Stance.start_new (roots : Expr → Prop) (entered : State.Entered env s id (.new id name header) s') (named : s.Named env) :
    Stance (⟨[],none,.none,[],fun _ => [],s'⟩ : Outset env roots []) (new id name header).inputs [] [] True s' := by
  have isOpen : (new id name header).IsOpen (new id name header).graph.entry := ⟨_,rfl,rfl⟩
  exact (Stance.start entered named (sound_new ..) fun _ _ found _ _ => .inl (block?_new found).1).congr
    (iff_true_intro isOpen)

theorem Stance.finishFunction {scopes : Array ScopeState}
    (stance : Stance (⟨[],none,waits,[],supply,s₁⟩ : Outset env roots []) available [] [] False s₂)
    (entered : State.Entered env s id p s₁) (run : Runs (finishFunction id) env { s₂ with scopes } u s') :
    State.Touches env id s s' ∧ ∃ p', s'.builder.output.procedures.get? id = some p' ∧ (∃ supply, p'.Sound supply) ∧
      p'.header = p.header ∧ (waits = .none → p'.Ended env roots) := by
  have closed : s₂.Closed := stance.isTerminated.mpr not_false
  obtain ⟨supply',p₂,c₂,point⟩ := stance.point
  have after := point.standing
  have leads := point.led
  obtain ⟨touches,q,p',found,found',outcome⟩ := run.finishFunction
  have same : s₂.builder.procedure? = some q := by
    rw [Builder.procedure?,leads.current,entered.current,bind_some,found]
  obtain rfl := after.unique same
  obtain ⟨_,there,later⟩ := leads.later entered.stands.procedure
  obtain rfl := after.unique there
  have closes : State.Touches env id s₂ { s₂ with scopes } := .of_same rfl rfl
  refine ⟨((entered.touches.trans (.of_leads entered.current leads after.named)).trans closes).trans touches,p',found',?_,?_,?_⟩
  · rcases outcome with rfl | rfl
    · exact ⟨supply',after.sound⟩
    · exact ⟨supply',after.sound.pruned⟩
  · rcases outcome with rfl | rfl <;> exact later.grows.header
  · rintro rfl
    refine ⟨_,outcome,fun b k there isOpen entered => ?_⟩
    rcases after.accounted b k there isOpen entered with rfl | waited | left
    · exact absurd ⟨k,there,isOpen⟩ (after.closed_iff.mp closed)
    · cases waited
    · exact left

theorem Stance.entry_ended
    (stance : Stance (⟨[],none,waits,[],supply,s₁⟩ : Outset env roots []) available [] [] False s₂) :
    ∃ p, s₂.builder.procedure? = some p ∧ ∃ k, p.graph.block? p.graph.entry = some k ∧ k.isTerminated = true := by
  obtain ⟨supply',p,c,point⟩ := stance.point
  obtain ⟨k,found⟩ := point.standing.sound.entry
  refine ⟨p,point.standing.stands.procedure,k,found,?_⟩
  cases ended : k.terminator with
  | some t => simp [Block.isTerminated,ended]
  | none =>
    have isOpen : p.IsOpen p.graph.entry := ⟨k,found,ended⟩
    rcases point.rooted isOpen with atCursor | kept
    · exact (point.live.mp (atCursor ▸ isOpen)).elim
    · cases kept

theorem Accounted.exists_waits (env : Environment) (roots : Expr → Prop) (p : Procedure) :
    ∃ waits : Waits, Accounted env roots p p.graph.entry waits.all ∧ (p.graph = .new → waits = .none) := by
  by_cases new : p.graph = .new
  · refine ⟨.none,fun b k found isOpen entered => .inl ?_,fun _ => rfl⟩
    rw [new] at found ⊢
    exact (Graph.block?_new found).1
  · refine ⟨⟨[],p.graph.blocks.keys⟩,fun b k found _ _ => .inr (.inl ?_),fun same => absurd same new⟩
    exact mem_keys_iff.mpr ⟨k,found⟩

/-- Where a function is entered, its parameters and its receiver have values, so that its body can be lowered. -/
theorem Lower.agree_entered {body : Expr} {r' : Recurse} (lowers : ∀ n, Lowers env roots n lowerExpr r')
    (entered : State.Entered env s id p s') (named : s.Named env) (sound : p.Sound supply) (within : Expr.Within roots body) :
    ∃ waits, (p.graph = .new → waits = Waits.none) ∧ Agree env lowerExpr r' (fun r =>
      withScope (.function (some function.id) function.returnsVoid
        (function.dispatchReceiver.bind fun parameter => (function.allParameters.zip p.inputs).head?.map fun binding =>
          Value.ofRegister binding.2 parameter.ty)) [] fun chain => do
        bindParameters chain (function.allParameters.zip p.inputs)
        let _ ← r chain body
        closeFunction function.returnsVoid) s' fun _ s'' =>
      Stance (⟨[],none,waits,[],supply,s'⟩ : Outset env roots []) p.inputs [] [] False s'' := by
  obtain ⟨waits,accounted,none⟩ := Accounted.exists_waits env roots p
  refine ⟨waits,none,agree_lowerBody lowers (Stance.start entered named sound accounted) within
    (fun binding inside => (of_mem_zip inside).2) fun v inside => ?_⟩
  obtain ⟨parameter,-,given⟩ := bind_eq_some_iff.mp inside
  obtain ⟨binding,first,rfl⟩ := map_eq_some_iff.mp given
  exact ⟨cons_subset.mpr ⟨(of_mem_zip (mem_of_mem_head? first)).2,nil_subset _⟩,rfl⟩

theorem Lower.Runs.begin {location : Location} (run : Runs (build do
      beginProcedure id
      modifyProcedure fun p => { p with location }) env s u s') :
    ∃ p, s.builder.output.procedures.get? id = some p ∧ s'.builder.current = some id ∧
      s'.builder.cursor = some p.graph.entry ∧ s'.builder.procedure? = some { p with location } ∧
      State.Touches env id s s' := by
  obtain ⟨p,found,rfl⟩ := run.begun
  refine ⟨p,found,rfl,rfl,?_,.of_modify rfl rfl fun _ => rfl⟩
  show (s.builder.output.procedures.modify id _).get? id = _
  rw [get?_modify,if_pos rfl,found,map_some]

theorem Lower.Runs.parameterRegisters {bindings : List (ParameterDecl × Register)}
    (run : Runs (parameterRegisters function) env s bindings s') (here : s.builder.procedure? = some p) :
    s' = s ∧ bindings = function.allParameters.zip p.inputs := by
  unfold Lower.parameterRegisters at run
  simp only [runs_bind,runs_get,and_assoc,exists_and_left,exists_eq_left,here,map_some,
    getD_some] at run
  split at run
  · exact absurd run runs_breach
  · obtain ⟨rfl,rfl⟩ := runs_pure.mp run
    exact ⟨rfl,rfl⟩

theorem Lower.Runs.lowerFunction_parts (run : Runs (lowerFunction body) env s u s') :
    ∃ function proc p s₁ s₂, env.decls.functions.get? body.function = some function ∧
      s₁.symbols.functions.get? body.function = some proc ∧ s.builder.output.procedures.get? proc = some p ∧
      State.Entered env s proc { p with location := body.body.location } s₁ ∧
      Runs (withScope (.function (some function.id) function.returnsVoid
        (function.dispatchReceiver.bind fun parameter => (function.allParameters.zip p.inputs).head?.map fun binding =>
          Value.ofRegister binding.2 parameter.ty)) [] fun chain => do
        bindParameters chain (function.allParameters.zip p.inputs)
        let _ ← lowerExpr chain body.body
        closeFunction function.returnsVoid) env s₁ () s₂ ∧
      Runs (Lower.finishFunction proc) env s₂ u s' := by
  unfold lowerFunction at run
  simp only [runs_bind,runs_read,runs_lift,and_assoc,exists_and_left,exists_eq_left] at run
  obtain ⟨function,declared,proc,s₁,entered,_,s₂,logged,_,s₃,begun,_,s₄,reset,bindings,s₅,bound,_,s₆,lowered,
    finished⟩ := run
  obtain ⟨quiet₁,symbol⟩ := entered.procedureOf
  have quiet₂ : s.Quiet env s₂ := by
    rw [runs_log.mp logged]
    exact quiet₁.trans (.logged env _ _)
  obtain ⟨p,found,current,cursor,here,touches₃⟩ := begun.begin
  obtain rfl := runs_modify.mp reset
  obtain ⟨rfl,rfl⟩ := bound.parameterRegisters here
  rw [quiet₂.procedures] at found
  have symbol₂ : s₂.symbols.functions.get? body.function = some proc := by
    rw [runs_log.mp logged]
    exact symbol
  refine ⟨function,proc,p,{ s₃ with scopes := #[.empty] },s₆,getFunction_eq.mp declared,touches₃.functions symbol₂,found,
    ⟨current,⟨here,cursor⟩,rfl,?_⟩,lowered,finished⟩
  exact ((of_quiet quiet₂).trans touches₃).trans (.of_same rfl rfl)

theorem Lower.Runs.lowerFunction (settled : s.Settled env)
    (within : Expr.Within roots body.body) (run : Runs (Lower.lowerFunction body) env s u s') :
    ∃ proc p p', s'.symbols.functions.get? body.function = some proc ∧
      s.builder.output.procedures.get? proc = some p ∧ s'.builder.output.procedures.get? proc = some p' ∧
      State.Touches env proc s s' ∧ (∃ supply, p'.Sound supply) ∧ p'.header = p.header ∧ (p.graph = .new → p'.Ended env roots) := by
  obtain ⟨function,proc,p,s₁,s₂,-,symbol,found,entered,lowered,finished⟩ := run.lowerFunction_parts
  obtain ⟨supply,sound⟩ := settled.sound found
  obtain ⟨waits,none,agree⟩ := agree_entered (fun _ => lowers_lowerExpr) entered settled.named (sound.relocated _) within
  have complete := of_runs agree.2 lowered
  obtain ⟨touches,p',found',sound',header,ended⟩ := complete.finishFunction entered finished
  obtain ⟨supply₂,p₂,c₂,point⟩ := complete.point
  have within := of_leads entered.current point.led point.standing.named
  have symbol' := (within.trans finished.finishFunction.1).functions symbol
  exact ⟨proc,p,p',symbol',found,found',touches,sound',header,fun new => ended (none new)⟩

/-! ### Declarations and initializers -/

theorem Module.get?_of_symbol? {m : Module} {id : ProcId} (fresh : m.symbol? id = none) : m.procedures.get? id = none := by
  cases found : m.procedures.get? id with
  | none => rfl
  | some p => simp [symbol?,found] at fresh

theorem Lower.Runs.declareProcedure (run : Runs (build (declareProcedure name header)) env s id s') (named : s.Named env) :
    s.builder.output.symbol? id = none ∧ s'.builder.output.symbol? id = some name ∧
      s'.builder.output.procedures.get? id = some (.new id name header) ∧ State.Touches env id s s' ∧ s'.symbols = s.symbols := by
  obtain ⟨rfl,rfl⟩ := runs_declareProcedure.mp run
  obtain ⟨numbered,keeps,new,entered,lookup⟩ := addProcedure_spec named.numbered name header
  refine ⟨new,entered,(lookup _).trans (if_pos rfl),?_,rfl⟩
  exact ⟨fun other => (lookup _).trans (if_neg other),fun h => h,fun h => h.keep numbered keeps rfl,fun _ => keeps⟩

theorem Lower.Runs.declareFunction (run : Runs (declareFunction f) env s u s') (named : s.Named env) :
    ∃ proc function, env.decls.functions.get? f = some function ∧ s.builder.output.symbol? proc = none ∧
      s'.builder.output.procedures.get? proc = some (.new proc (env.decls.functionSymbol function) function.nativeHeader) ∧
      (∀ {x}, x ≠ proc → s'.builder.output.procedures.get? x = s.builder.output.procedures.get? x) ∧
      s'.symbols.functions = s.symbols.functions.insert f proc ∧ s.builder.output.Keeps s'.builder.output ∧ s'.Named env := by
  unfold Lower.declareFunction at run
  simp only [runs_bind,runs_read,runs_lift,runs_modifySymbols,and_assoc,exists_and_left,
    exists_eq_left] at run
  obtain ⟨function,found,proc,s₁,declared,rfl⟩ := run
  obtain ⟨new,entered,there,touches,symbols⟩ := declared.declareProcedure named
  have named₁ := touches.named named
  refine ⟨proc,function,getFunction_eq.mp found,new,there,touches.others,by rw [symbols],touches.keeps named,
    ⟨named₁.numbered,?_,named₁.globals⟩⟩
  intro g other there
  exact of_insert there ⟨function,getFunction_eq.mp found,entered⟩ named₁.functions

theorem Lower.Runs.declareStaticField {field : FieldId} (run : Runs (declareStaticField field) env s u s') : s.Quiet env s' := by
  unfold Lower.declareStaticField at run
  simp only [runs_bind,runs_read,runs_lift,and_assoc,exists_and_left,exists_eq_left] at run
  obtain ⟨decl,declared,run⟩ := run
  have last : ∀ {s₁ : State} {initial : Literal}, s.Quiet env s₁ → Runs (do
      let global ← onModule fun m => m.defineGlobal (env.decls.fieldSymbol decl) decl.ty.storage (some initial) true
        (if decl.isExternal then Linkage.imported else .exported)
      modifySymbols fun symbols => { symbols with globals := symbols.globals.insert (.staticField field) global }) env s₁ u s' →
      s.Quiet env s' := by
    intro s₁ initial quiet run
    simp only [runs_bind,runs_onModule,runs_modifySymbols,and_assoc,exists_and_left,
      exists_eq_left] at run
    subst run
    have defined := quiet.trans (.defined s₁ (env.decls.fieldSymbol decl) decl.ty.storage (some initial) true
      (if decl.isExternal then Linkage.imported else .exported))
    refine defined.entered _ (fun before named => ⟨named.numbered,named.functions,fun found => of_insert found ?_ named.globals⟩) fun h => h
    exact ⟨⟨env.decls.fieldSymbol decl,decl.ty.storage,none,true,.imported⟩,by simp only [Environment.globalSpec,declared]; rfl,
      (defineGlobal_spec (quiet.named before).numbered _ _ _ _ _).2.2.1⟩
  split at run
  · obtain ⟨initial,s₁,given,run⟩ := runs_bind.mp run
    exact last given.literalOf run
  · obtain ⟨initial,s₁,given,run⟩ := runs_bind.mp run
    obtain ⟨-,rfl⟩ := runs_pure.mp given
    exact last (.refl env _) run

theorem Lower.Runs.startProcedure (run : Runs (build (startProcedure name header)) env s id s') (named : s.Named env) :
    s.builder.output.symbol? id = none ∧ State.Entered env s id (.new id name header) { s' with scopes := #[.empty] } := by
  obtain ⟨id',s₁,declared,rest⟩ := runs_build_bind.mp run
  obtain ⟨builder,moved,rfl⟩ := runs_build.mp rest
  obtain ⟨rfl,rfl⟩ := Build.runs_pure.mp moved
  obtain ⟨new,-,there,touches,-⟩ := declared.declareProcedure named
  exact ⟨new,rfl,⟨there,rfl⟩,rfl,touches.trans (.of_same rfl rfl)⟩

theorem Lower.Runs.lowerInitializerFunction_parts (named : s.Named env)
    (run : Runs (lowerInitializerFunction unit pending) env s id s') :
    ∃ s₁ s₂, s.builder.output.symbol? id = none ∧ State.Entered env s id (.new id s!"{unit.name}$init_globals" initializerHeader) s₁ ∧
      Runs (withScope (.function none true none) [] fun chain => lowerInitializers chain pending) env s₁ () s₂ ∧
      Runs (Lower.finishFunction id) env s₂ () s' := by
  unfold lowerInitializerFunction at run
  simp only [runs_bind] at run
  obtain ⟨proc,s₁,started,_,s₂,reset,_,s₃,lowered,_,s₄,finished,rest⟩ := run
  obtain ⟨rfl,rfl⟩ := runs_pure.mp rest
  obtain rfl := runs_modify.mp reset
  obtain ⟨new,entered⟩ := started.startProcedure named
  exact ⟨_,s₃,new,entered,lowered,finished⟩

theorem Lower.Runs.linkNode_rescope (run : Runs (linkNode node) env s u s') (scopes : Array ScopeState) :
    Runs (linkNode node) env { s with scopes } u { s' with scopes } ∧ s'.scopes = s.scopes := by
  have built : ∀ {α : Type} {step : Build α} {a : α} {s s' : State}, Runs (build step) env s a s' →
      Runs (build step) env { s with scopes } a { s' with scopes } ∧ s'.scopes = s.scopes := by
    intro α step a s s' run
    obtain ⟨b,built,rfl⟩ := runs_build.mp run
    exact ⟨runs_build.mpr ⟨b,built,rfl⟩,rfl⟩
  unfold Lower.linkNode Lower.supportTarget Lower.callPlain at run ⊢
  simp only [runs_bind,runs_onModule,runs_pure] at run ⊢
  obtain ⟨ptr,s₁,given,target,s₂,⟨proc,_,⟨rfl,rfl⟩,rfl,rfl⟩,dest,s₃,called,returned⟩ := run
  refine ⟨⟨ptr,_,(built given).1,_,_,⟨_,_,⟨rfl,rfl⟩,rfl,rfl⟩,dest,_,(built called).1,(built returned).1⟩,?_⟩
  rw [(built returned).2,(built called).2]
  exact (built given).2

theorem Lower.Runs.lowerInitializerLink_parts (named : s.Named env)
    (run : Runs (lowerInitializerLink unit initializer) env s id s') : ∃ node s₁ s₂ scopes, s.builder.output.symbol? id = none ∧
      State.Entered env s id (.new id s!"{unit.name}$init_ctor" initializerHeader) s₁ ∧
      Runs (Lower.linkNode node) env s₁ () s₂ ∧ Runs (Lower.finishFunction id) env { s₂ with scopes } () s' := by
  unfold lowerInitializerLink at run
  simp only [runs_bind] at run
  obtain ⟨node,s₁,defined,proc,s₂,started,ptr,s₃,given,target,s₄,targeted,dest,s₅,called,_,s₆,returned,_,s₇,
    finished,rest⟩ := run
  obtain ⟨rfl,rfl⟩ := runs_pure.mp rest
  have quiet : s.Quiet env s₁ := by
    obtain ⟨-,rfl⟩ := runs_onModule.mp defined
    exact .defined s _ _ _ _ _
  have linked : Runs (linkNode node) env s₂ () s₆ := by
    simpa only [linkNode,runs_bind] using ⟨ptr,s₃,given,target,s₄,targeted,dest,s₅,called,returned⟩
  obtain ⟨new,entered⟩ := started.startProcedure (quiet.named named)
  exact ⟨node,_,_,s₆.scopes,(quiet.keeps named).unused new,⟨entered.current,entered.stands,rfl,(of_quiet quiet).trans entered.touches⟩,
    (linked.linkNode_rescope _).1,finished⟩

/-- What a new function of the output is, once its code is complete. -/
def Completes (env : Environment) (roots : Expr → Prop) (s : State) (id : ProcId) (s' : State) : Prop :=
  s.builder.output.symbol? id = none ∧ State.Touches env id s s' ∧ ∃ p, s'.builder.output.procedures.get? id = some p ∧
    (∃ supply, p.Sound supply) ∧ p.Ended env roots

theorem Lower.Runs.lowerInitializerFunction (named : s.Named env) (within : ∀ entry ∈ pending, Expr.Within roots entry.2)
    (run : Runs (Lower.lowerInitializerFunction unit pending) env s id s') : Completes env roots s id s' := by
  obtain ⟨s₁,s₂,new,entered,lowered,finished⟩ := run.lowerInitializerFunction_parts named
  rw [← funext fun _ => lowerInitializersWith_lowerExpr] at lowered
  have complete := of_runs (agree_lowerInitializersWith (fun _ => lowers_lowerExpr) (.start_new roots entered named) within).2 lowered
  obtain ⟨touches,p',found',sound',-,ended⟩ := complete.finishFunction entered finished
  exact ⟨new,touches,p',found',sound',ended rfl⟩

theorem Lower.safe_linkNode {o : Outset env roots []} {ahead : List Ahead} {known : List Joint}
    (stance : Stance o available ahead known True s) :
    Safe env (linkNode node) s fun _ s' => Stance o available ahead known False s' := by
  refine (stance.flow .const (nil_subset _)).bind fun ptr s₁ linking => ?_
  refine (linking.flow .supportTarget (nil_subset _)).bind fun target s₂ linking => ?_
  refine (linking.flow (.callPlain fun _ h => h) (append_subset_append _ (by simp))).bind fun dest s₃ linking => ?_
  exact mono (linking.ret (nil_subset _)) fun _ s₄ done => done.forget (fun _ h => by simp [h]) stance.covered

theorem Lower.Runs.lowerInitializerLink (named : s.Named env)
    (run : Runs (lowerInitializerLink unit initializer) env s id s') : Completes env roots s id s' := by
  obtain ⟨node,s₁,s₂,scopes,new,entered,linked,finished⟩ := run.lowerInitializerLink_parts named
  have complete := of_runs (Lower.safe_linkNode (.start_new roots entered named)) linked
  obtain ⟨touches,p',found',sound',-,ended⟩ := complete.finishFunction entered finished
  exact ⟨new,touches,p',found',sound',ended rfl⟩

/-! ### Functions that are declared, and those that are filled -/

/-- Each of the functions declared so far has a place of its own in the output, with its signature. -/
structure State.Prepared (env : Environment) (done : List FunctionId) (s : State) : Prop extends State.Settled env s where
  place : ∀ f ∈ done, ∃ proc function p, s.symbols.functions.get? f = some proc ∧ env.decls.functions.get? f = some function ∧
    s.builder.output.procedures.get? proc = some p ∧ p.header.signature = function.nativeHeader.signature
  apart : ∀ {f g proc}, f ∈ done → g ∈ done → s.symbols.functions.get? f = some proc → s.symbols.functions.get? g = some proc → f = g

namespace State.Prepared
variable {done : List FunctionId}

section
variable (prepared : s.Prepared env done)
include prepared

theorem symbol (functions : ∀ {f proc}, s.symbols.functions.get? f = some proc → s'.symbols.functions.get? f = some proc)
    (among : f ∈ done) : s'.symbols.functions.get? f = s.symbols.functions.get? f := by
  obtain ⟨proc,function,q,symbol,-⟩ := prepared.place f among
  rw [functions symbol,symbol]

theorem quiet (quiet : s.Quiet env s') : s'.Prepared env done where
  toSettled := prepared.toSettled.quiet quiet
  place f among := by
    rw [prepared.symbol quiet.functions among,quiet.procedures]
    exact prepared.place f among
  apart among among' := by
    rw [prepared.symbol quiet.functions among,prepared.symbol quiet.functions among']
    exact prepared.apart among among'

theorem touched (touches : s.Touches env id s') (found : s'.builder.output.procedures.get? id = some p) (sound : ∃ supply, p.Sound supply)
    (header : ∀ q, s.builder.output.procedures.get? id = some q → p.header = q.header) : s'.Prepared env done where
  toSettled := prepared.toSettled.touched touches found sound
  place f among := by
    rw [prepared.symbol touches.functions among]
    obtain ⟨proc,function,q,symbol,declared,there,signature⟩ := prepared.place f among
    by_cases here : proc = id
    · subst here
      exact ⟨proc,function,p,symbol,declared,found,header q there ▸ signature⟩
    · exact ⟨proc,function,q,symbol,declared,(touches.others here).trans there,signature⟩
  apart among among' := by
    rw [prepared.symbol touches.functions among,prepared.symbol touches.functions among']
    exact prepared.apart among among'

theorem unused (new : s.builder.output.symbol? id = none) (among : f ∈ done) : s.symbols.functions.get? f ≠ some id := by
  intro own
  obtain ⟨x,-,q,symbol,-,found,-⟩ := prepared.place f among
  obtain rfl := mem_unique symbol own
  simp [get?_of_symbol? new] at found

theorem completed (completes : Completes env roots s id s') : s'.Prepared env done := by
  obtain ⟨new,touches,p,found,sound,-⟩ := completes
  refine prepared.touched touches found sound fun q there => ?_
  simp [get?_of_symbol? new] at there

theorem declared (run : Runs (declareFunction f) env s u s') : s'.Prepared env (done ++ [f]) := by
  obtain ⟨proc,function,known,new,there,others,symbols,-,named⟩ := run.declareFunction prepared.named
  have absent := get?_of_symbol? new
  have lookup : ∀ g, s'.symbols.functions.get? g = if g = f then some proc else s.symbols.functions.get? g := by
    intro g
    rw [symbols,get?_insert]
  have old : ∀ {g}, g ∈ done ++ [f] → g ≠ f → g ∈ done :=
    fun among other => (mem_append.mp among).resolve_right fun last => other (mem_singleton.mp last)
  have unused := fun g => prepared.unused (f := g) new
  refine ⟨⟨named,fun {x q} found => ?_⟩,fun g among => ?_,fun {g g' x} among among' own own' => ?_⟩
  · exact of_others found others there ⟨_,sound_new _ _ _⟩ prepared.sound
  · rw [lookup]
    split
    · rename_i same
      exact ⟨proc,function,_,rfl,same ▸ known,there,signature_new _ _ _⟩
    · rename_i other
      obtain ⟨x,function',q,symbol,known',found,signature⟩ := prepared.place g (old among other)
      have apart : x ≠ proc := by
        rintro rfl
        simp [absent] at found
      exact ⟨x,function',q,symbol,known',(others apart).trans found,signature⟩
  · rw [lookup] at own own'
    split at own <;> split at own'
    · rename_i here here'
      exact here.trans here'.symm
    · rename_i other
      exact absurd (own'.trans own.symm) (unused g' (old among' other))
    · rename_i other _
      exact absurd (own.trans own'.symm) (unused g (old among other))
    · rename_i other other'
      exact prepared.apart (old among other) (old among' other') own own'

end

end State.Prepared

/-- The bodies that remain fill functions of the output that are empty so far; every other function is full. -/
structure State.Filling (full : Procedure → Prop) (done left : List FunctionId) (s : State) : Prop where
  rest : left <:+ done
  pending : ∀ {proc p}, s.builder.output.procedures.get? proc = some p →
    (p.graph = .new ∧ ∃ f ∈ left, s.symbols.functions.get? f = some proc) ∨
      full p ∧ ∀ f ∈ left, s.symbols.functions.get? f ≠ some proc

namespace State.Filling
variable {full : Procedure → Prop} {done left left' : List FunctionId}

theorem blank (filling : s.Filling full done left) (waiting : f ∈ left)
    (symbol : s.symbols.functions.get? f = some id) (found : s.builder.output.procedures.get? id = some p) : p.graph = .new := by
  rcases filling.pending found with ⟨blank,-⟩ | ⟨-,others⟩
  · exact blank
  · exact absurd symbol (others f waiting)

theorem quiet (filling : s.Filling full done left) (prepared : s.Prepared env done) (quiet : s.Quiet env s') :
    s'.Filling full done left where
  rest := filling.rest
  pending {proc p} found := by
    have same : ∀ f ∈ left, s'.symbols.functions.get? f = s.symbols.functions.get? f :=
      fun f waiting => prepared.symbol quiet.functions (filling.rest.subset waiting)
    refine (filling.pending (quiet.procedures ▸ found)).imp (imp_right ?_) (imp_right ?_)
    · rintro ⟨f,waiting,symbol⟩
      exact ⟨f,waiting,(same f waiting).trans symbol⟩
    · exact fun others f waiting => same f waiting ▸ others f waiting

theorem filled (filling : s.Filling full done left) (prepared : s.Prepared env done) (single : done.Nodup)
    (touches : State.Touches env id s s') (found : s'.builder.output.procedures.get? id = some p) (fills : full p)
    (own : (∃ f, s.symbols.functions.get? f = some id ∧ left = f :: left') ∨
      s.builder.output.procedures.get? id = none ∧ left = left') : s'.Filling full done left' := by
  have fewer : left' <:+ left := by
    rcases own with ⟨f,-,rfl⟩ | ⟨-,rfl⟩
    · exact suffix_cons f left'
    · exact suffix_refl left
  have rest := fewer.trans filling.rest
  have same : ∀ f ∈ left', s'.symbols.functions.get? f = s.symbols.functions.get? f :=
    fun f waiting => prepared.symbol touches.functions (rest.subset waiting)
  -- Under the function that is filled, no other body is waiting.
  have alone : ∀ g ∈ left', s.symbols.functions.get? g ≠ some id := by
    intro g waiting symbol
    rcases own with ⟨f,own,rfl⟩ | ⟨absent,-⟩
    · obtain rfl := prepared.apart (filling.rest.subset (.head _)) (rest.subset waiting) own symbol
      exact (nodup_cons.mp (single.sublist filling.rest.sublist)).1 waiting
    · obtain ⟨x,-,q,symbol',-,there,-⟩ := prepared.place g (rest.subset waiting)
      obtain rfl := mem_unique symbol symbol'
      simp [absent] at there
  refine ⟨rest,fun {x q} there => ?_⟩
  by_cases here : x = id
  · subst here
    obtain rfl := mem_unique found there
    exact .inr ⟨fills,fun f waiting => same f waiting ▸ alone f waiting⟩
  · refine (filling.pending ((touches.others here).symm.trans there)).imp (imp_right ?_) (imp_right ?_)
    · rintro ⟨f,waiting,symbol⟩
      have later : f ∈ left' := by
        rcases own with ⟨g,own,rfl⟩ | ⟨-,rfl⟩
        · refine (mem_cons.mp waiting).resolve_left ?_
          rintro rfl
          exact here (mem_unique symbol own)
        · exact waiting
      exact ⟨f,later,(same f later).trans symbol⟩
    · exact fun others f waiting => same f waiting ▸ others f (fewer.subset waiting)

theorem declared (filling : s.Filling full done done) (prepared : s.Prepared env done)
    (single : (done ++ [f]).Nodup) (run : Runs (declareFunction f) env s u s') : s'.Filling full (done ++ [f]) (done ++ [f]) := by
  obtain ⟨proc,function,-,new,entered,others,symbols,-⟩ := run.declareFunction prepared.named
  have same : ∀ g ∈ done, s'.symbols.functions.get? g = s.symbols.functions.get? g := by
    intro g among
    rw [symbols,get?_insert,if_neg ((nodup_append.mp single).2.2 g among f (mem_singleton_self f))]
  have own : s'.symbols.functions.get? f = some proc := by rw [symbols,get?_insert,if_pos rfl]
  refine ⟨suffix_refl _,fun {x q} there => ?_⟩
  by_cases here : x = proc
  · subst here
    obtain rfl := mem_unique entered there
    exact .inl ⟨rfl,f,by simp,own⟩
  · refine (filling.pending ((others here).symm.trans there)).imp (imp_right ?_) (imp_right fun absent g among => ?_)
    · rintro ⟨g,among,symbol⟩
      exact ⟨g,mem_append_left _ among,(same g among).trans symbol⟩
    · rcases mem_append.mp among with before | last
      · exact same g before ▸ absent g before
      · obtain rfl := mem_singleton.mp last
        exact fun symbol => here (mem_unique symbol own)

end State.Filling

/-! ### Rounds over the units -/

/-- A round over a list: what holds before the first of its elements, and between one and the next, holds at the end. -/
theorem Lower.Runs.forM {α : Type} {f : α → Lower PUnit} {xs : List α} {u : PUnit}
    (run : Runs (xs.forM f) env s u s') (holds : List α → List α → State → Prop) (start : holds [] xs s)
    (step : ∀ {before x rest s u s'}, before ++ x :: rest = xs → holds before (x :: rest) s → Runs (f x) env s u s' →
      holds (before ++ [x]) rest s') : holds xs [] s' := by
  have all : ∀ {before rest s}, before ++ rest = xs → holds before rest s → Runs (rest.forM f) env s u s' → holds xs [] s' := by
    intro before rest
    induction rest generalizing before with
    | nil =>
      intro s split held run
      obtain ⟨-,rfl⟩ := runs_pure.mp run
      exact (append_nil before).symm.trans split ▸ held
    | cons x rest ih =>
      intro s split held run
      obtain ⟨_,s₁,first,run⟩ := runs_bind.mp run
      exact ih (by simpa using split) (step split held first) run
  exact all rfl start run

def SourceUnit.bodies (units : List SourceUnit) : List FunctionBody := units.flatMap functions

def SourceUnit.defined (units : List SourceUnit) : List FunctionId := (bodies units).map FunctionBody.function

/-- The expressions at which lowering starts: bodies of functions and initializers of static fields. -/
def SourceUnit.Starts (decls : Declarations) (units : List SourceUnit) (e : Expr) : Prop :=
  (∃ body ∈ bodies units, body.body = e) ∨
    ∃ unit ∈ units, ∃ id ∈ unit.staticFields, ∃ field, decls.getField id = .ok field ∧ field.initializer = some e

theorem Lower.Runs.pendingInitializers {fields : List FieldId} (run : Runs (pendingInitializers fields) env s pending s') :
    s' = s ∧ ∀ entry ∈ pending, entry.1 ∈ fields ∧ ∃ field, env.decls.getField entry.1 = .ok field ∧ field.initializer = some entry.2 := by
  induction fields generalizing pending s' with
  | nil =>
    obtain ⟨rfl,rfl⟩ := runs_pure.mp run
    exact ⟨rfl,by simp⟩
  | cons id rest ih =>
    unfold pendingInitializers at run
    simp only [runs_bind,runs_read,runs_lift,and_assoc,exists_and_left,exists_eq_left] at run
    obtain ⟨field,found,others,s₁,first,run⟩ := run
    obtain ⟨rfl,inside⟩ := ih first
    have wider := fun entry member => (inside entry member).imp_left (mem_cons_of_mem id)
    split at run
    · rename_i given
      obtain ⟨rfl,rfl⟩ := runs_pure.mp run
      exact ⟨rfl,forall_mem_cons.mpr ⟨⟨.head _,field,found,given⟩,wider⟩⟩
    · obtain ⟨rfl,rfl⟩ := runs_pure.mp run
      exact ⟨rfl,wider⟩

end

theorem State.Prepared.start (env : Environment) (strings : StringPool) : (start env.settings strings).Prepared env [] := by
  have empty : ∀ {κ α : Type} [DecidableEq κ] {x : κ} {v : α}, ¬ ({} : Table κ α).get? x = some v := by
    intro κ α _ x v found
    cases found
  exact ⟨⟨⟨⟨fun h => (empty h).elim,fun h => (empty h).elim,fun h => (empty h).elim⟩,fun h => (empty h).elim,
    fun h => (empty h).elim⟩,fun h => (empty h).elim⟩,by simp,by simp⟩

end BlockLowering
