import BlockLowering.Proofs.Hierarchy
import BlockLowering.Proofs.Outputs
import BlockLowering.Proofs.TypedWalk
/-!
Well-typed programs are lowered to well-typed functions. A function is declared with registers of the types of
its parameters, its body and the initializers of units keep it well typed, and so does the removal of blocks that
are not reached.
-/
namespace BlockLowering
open Lower List Table FunctionDecl Procedure BlockLowering.Types
variable {p : Procedure} {function : FunctionDecl} {pending : List (FieldId × Expr)} {unit : SourceUnit}

/-! ### New functions -/

namespace Procedure

theorem typed_new (id : ProcId) (name : String) (header : Header) : (new id name header).Typed [] header.result where
  wellTyped := by
    refine ⟨fun q inside => mem_entries_iff.mp ?_,fun found => ?_⟩
    · rw [new,entries_ofList (by rw [map_map]; exact (sound_new id name header).numbered.inputs)]
      exact mem_map.mpr ⟨q,inside,rfl⟩
    · obtain ⟨-,rfl⟩ := block?_new found
      exact ⟨by simp [Block.new],by simp [Block.new],by simp [Block.new]⟩
  registers known := (sound_new id name header).numbered.typed known
  numbered found := by
    obtain ⟨rfl,-⟩ := block?_new found
    exact zero_lt_one
  result := rfl
  unreached := by simp

theorem WellTyped.inputs (typed : p.WellTyped) : p.inputs.map p.typeOf = p.header.signature.params.map some := by
  show (p.header.parameters.map Parameter.register).map p.typeOf = (p.header.parameters.map Parameter.type).map some
  rw [map_map,map_map]
  exact map_congr_left typed.parameters

end Procedure

/-! ### Bodies and initializers -/

theorem FunctionDecl.result_nativeHeader (function : FunctionDecl) : (function.returnsVoid = true → function.nativeHeader.result = .void) ∧
      (function.returnsVoid = false → function.nativeHeader.result ≠ .void ∧
        function.returnType.storage = function.nativeHeader.result) := by
  unfold returnsVoid nativeHeader Ty.returned
  cases function.isConstructor <;> cases function.returnType.isValueless <;> simp [Ty.storage_ne_void]

namespace Types
open Regime
variable {o : Origin} {F : Frame} {needs : List TypeFact} {chain : Chain} {Γ : TypeContext}
variable {registers : List Register}

theorem bindParameters {parameters : List ParameterDecl} (here : Around o F needs chain Γ)
    (bound : ∀ q ∈ parameters, Γ.locals q.id = some q.ty.storage)
    (given : .registers registers (parameters.map fun q => q.ty.storage) ∈ needs) :
    Types o F needs (bindParameters chain (parameters.zip registers)) noFacts := by
  induction parameters generalizing registers needs with
  | nil => exact .done
  | cons q rest ih =>
    cases registers with
    | nil => exact .done
    | cons r others =>
      refine infer (f := .register r q.ty.storage) (fun _ facts => (cons.inj (facts _ given)).1) ?_
      refine infer (f := .registers others (rest.map fun (q : ParameterDecl) => q.ty.storage)) (fun _ facts =>
        (cons.inj (facts _ (.tail _ given))).2) ?_
      refine ofRegister r q.ty rfl (by simp) ?_
      refine infer (f := .slot (.value (.ofRegister r q.ty)) q.ty.storage) (fun _ facts =>
        facts (.value (.ofRegister r q.ty) q.ty.storage) (by simp)) ?_
      refine .andThen (declareVariable here.cons.cons.cons.cons (bound q (.head _)) (by simp)) fun _ => ?_
      exact ih here.cons.cons.cons.cons (fun q inside => bound q (.tail _ inside)) (by simp)

theorem closeFunction {returnsVoid : Bool} (void : returnsVoid = true → F.result = .void) :
    Types o F needs (closeFunction returnsVoid) noFacts := by
  refine .andThen .isTerminated fun ended => ?_
  split
  · exact .done
  · split
    · rename_i empty
      exact retVoid (void empty)
    · exact unreachable

theorem receiver {α : Type} {step : Lower α} {gives : α → List TypeFact}
    {receiver : Option Value} (first : (function.dispatchReceiver.bind fun q =>
      (function.allParameters.zip registers).head?.map fun binding => Value.ofRegister binding.2 q.ty) = receiver)
    (given : .registers registers (function.allParameters.map fun q => q.ty.storage) ∈ needs)
    (rest : ∀ {facts}, function.dispatchReceiver.map (fun q => q.ty.storage) = receiver.map (fun v => v.ty.storage) →
      (∀ v ∈ receiver, .value v v.ty.storage ∈ facts) → needs ⊆ facts → Types o F facts step gives) :
    Types o F needs step gives := by
  cases declared : function.dispatchReceiver with
  | none =>
    obtain rfl : none = receiver := by simpa [declared] using first
    exact rest (by simp [declared]) (by simp) (Subset.refl _)
  | some q =>
    have parameters : function.allParameters = q :: (function.extensionReceiver.toList ++ function.parameters) := by
      simp [allParameters,declared]
    rw [parameters] at given first
    cases registers with
    | nil => exact learn (P := False) (fun _ facts => (by simpa [TypeFact.Holds] using facts _ given)) False.elim
    | cons r others =>
      obtain rfl : some (Value.ofRegister r q.ty) = receiver := by simpa [declared] using first
      refine infer (f := .register r q.ty.storage) (fun _ facts => (cons.inj (facts _ given)).1) ?_
      refine ofRegister r q.ty rfl (.head _) (rest (by simp [declared,Value.ofRegister]) ?_ (by simp))
      rintro v ⟨⟩
      exact (.head _)

theorem functionCode {body : Expr} (here : Around o F needs [] .empty)
    (typed : function.BodyTyped o.env.decls body) (result : F.result = function.nativeHeader.result)
    (given : .registers registers (function.allParameters.map fun q => q.ty.storage) ∈ needs) :
    Types o F needs (Lower.withScope (.function (some function.id) function.returnsVoid
      (function.dispatchReceiver.bind fun q => (function.allParameters.zip registers).head?.map fun binding =>
        Value.ofRegister binding.2 q.ty)) [] fun chain => do
      Lower.bindParameters chain (function.allParameters.zip registers)
      let _ ← lowerExpr chain body
      Lower.closeFunction function.returnsVoid) noFacts := by
  obtain ⟨locals,bound,typed⟩ := typed
  obtain ⟨void,valued⟩ := function.result_nativeHeader
  rw [← result] at void valued
  generalize first : function.dispatchReceiver.bind _ = self
  refine receiver first given fun {facts} stored known more => ?_
  have turns : (ScopeKind.function (some function.id) function.returnsVoid self).Turns o.env.decls F.result .empty
      ⟨locals,fun f => if f = function.id then some function.returnType else none,
        function.dispatchReceiver.map fun receiver => receiver.ty.storage⟩ := by
    refine ⟨(fun outer => nomatch outer),stored,fun {target ty} returns => ?_⟩
    obtain ⟨same,rfl⟩ : target = function.id ∧ function.returnType = ty := by simpa using returns
    exact ⟨congrArg some same.symm,void,valued⟩
  have outside : Around o F facts [] .empty := ⟨here.named,here.typed,nil_subset _⟩
  have inside := outside.enter _ turns fun f inside => by
    obtain ⟨v,there,rfl⟩ := mem_map.mp inside
    exact known v (Option.mem_toList.mp there)
  refine withScope _ (.andThen (bindParameters inside bound (more given)) fun _ => ?_)
  exact .andThen (preserved_lowerExpr inside typed).forget fun _ => closeFunction void

theorem lowerInitializers (here : Around o F needs chain Γ) (void : F.result = .void)
    (typed : ∀ entry ∈ pending, entry.2.WellTyped o.env.decls Γ ∧ ∃ t : NativeType, t.Accepts entry.2.ty) :
    Types o F needs (lowerInitializers chain pending) noFacts := by
  induction pending generalizing needs with
  | nil => exact retVoid void
  | cons entry rest ih =>
    obtain ⟨own,t,fits⟩ := typed entry (.head _)
    refine evalThen preserved_lowerExpr here own fits (.done) fun v _ _ => ?_
    refine .bind (materialize (t := t) (by simp)) fun r => .andThen (keeps_quiet fun run => run.globalOf) fun _ => ?_
    refine .andThen (.buildBind (const (t := .ptr) rfl) fun ptr => store (t := t) (.inr (by simp)) (by simp)) fun _ => ?_
    exact ih here.cons.more fun entry inside => typed entry (.tail _ inside)

theorem initializerCode (here : Around o F needs [] .empty) (void : F.result = .void)
    (typed : ∀ entry ∈ pending, entry.2.WellTyped o.env.decls .empty ∧ ∃ t : NativeType, t.Accepts entry.2.ty) :
    Types o F needs (Lower.withScope (.function none true none) [] fun chain => Lower.lowerInitializers chain pending) noFacts := by
  have turns : (ScopeKind.function none true none).Turns o.env.decls F.result .empty .empty :=
    ⟨fun outer => outer,rfl,fun returns => nomatch returns⟩
  exact withScope _ (lowerInitializers (here.enter _ turns (nil_subset _)) void typed)

theorem linkNode {node : GlobalId} (void : F.result = .void) : Types o F needs (linkNode node) noFacts := by
  refine .bind (const (t := .ptr) rfl) fun ptr => .bind supportTarget fun target => ?_
  exact .bind (callRoutine .appendInitializer [.ptr] .void (by simp) rfl (by simp)) fun _ => retVoid void

end Types

/-! ### Functions of the output -/

/-- Every function of the output is well typed, and those of the functions declared so far have their signatures. -/
structure State.WellTyped (env : Environment) (done : List FunctionId) (s : State) : Prop where
  typed : ∀ {id p}, s.builder.output.procedures.get? id = some p → p.Typed [] p.header.result
  declared : ∀ f ∈ done, ∃ proc function p, s.symbols.functions.get? f = some proc ∧
    env.decls.functions.get? f = some function ∧ s.builder.output.procedures.get? proc = some p ∧
    p.header.signature = function.nativeHeader.signature

section
variable {env : Environment} {s s' : State} {p : Procedure} {id : ProcId} {u : Unit} {done : List FunctionId} {units : List SourceUnit}

theorem State.WellTyped.touched (good : s.WellTyped env done) (prepared : s'.Prepared env done) (touches : State.Touches env id s s')
    (found : s'.builder.output.procedures.get? id = some p) (typed : p.Typed [] p.header.result) : s'.WellTyped env done where
  typed there := of_others there touches.others found typed good.typed
  declared := prepared.place

theorem State.WellTyped.lowered {s₁ s₂ : State} {step : Lower Unit} {scopes : Array ScopeState}
    (good : s.WellTyped env done) (named : s.Named env) (prepared : s'.Prepared env done) (entered : State.Entered env s id p s₁)
    (typed : p.Typed [] p.header.result) (needs : List TypeFact) (facts : ∀ f ∈ needs, f.Holds [] p)
    (types : Types ⟨env,id,s⟩ ⟨[],[.empty],p.header.result⟩ needs step noFacts) (run : Runs step env s₁ () s₂)
    (finished : Runs (finishFunction id) env { s₂ with scopes } u s') : s'.WellTyped env done := by
  have kept : (typing ⟨[],[.empty],p.header.result⟩).Kept ⟨env,id,s⟩ s₁ p p.graph.entry := .start entered named typed rfl trivial
  obtain ⟨⟨p₂,c₂,kept₂⟩,persists,-⟩ := types.lead ⟨p,_,kept⟩ (fun f inside => kept.knows.mpr (facts f inside)) run
  have same : p₂.header = p.header := kept₂.knows.mp (persists (.header p.header) (kept.knows.mpr rfl))
  have typed₂ : p₂.Typed [] p₂.header.result := by
    rw [same]
    exact kept₂.good
  obtain ⟨touches,-,p',found,outcome⟩ := Regime.Kept.finish kept₂ finished
  rcases outcome with rfl | rfl
  · exact good.touched prepared touches found typed₂
  · exact good.touched prepared touches found typed₂.pruned

theorem Lower.Runs.lowerFunction_typed {body : FunctionBody} (run : Runs (Lower.lowerFunction body) env s u s')
    (program : WellTypedProgram env.decls units) (member : body ∈ SourceUnit.bodies units) (known : body.function ∈ done)
    (prepared : s.Prepared env done) (good : s.WellTyped env done) : s'.WellTyped env done := by
  obtain ⟨function,proc,p,s₁,s₂,declared,symbol,found,entered,lowered,finished⟩ := run.lowerFunction_parts
  obtain ⟨proc',function',q,symbol',declared',found',signature⟩ := good.declared body.function known
  obtain rfl := Option.mem_unique symbol (entered.touches.functions symbol')
  obtain rfl := Option.mem_unique declared declared'
  obtain rfl := Option.mem_unique found found'
  obtain ⟨unit,inside,own⟩ := mem_flatMap.mp member
  have typed := good.typed found
  have inputs := typed.wellTyped.inputs
  rw [signature,params_signature] at inputs
  exact good.lowered prepared.named (prepared.body run) entered (typed.relocated _)
    [.registers p.inputs (function.allParameters.map fun q => q.ty.storage)]
    (fun f inside => (mem_singleton.mp inside) ▸ inputs)
    (functionCode ⟨program.named,trivial,nil_subset _⟩ (program.bodies unit inside body own function declared)
      (congrArg Signature.result signature) (.head _)) lowered finished

theorem Lower.Runs.lowerInitializerFunction_typed
    (run : Runs (Lower.lowerInitializerFunction unit pending) env s id s') (program : WellTypedProgram env.decls units)
    (typed : ∀ entry ∈ pending, entry.2.WellTyped env.decls .empty ∧ ∃ t : NativeType, t.Accepts entry.2.ty)
    (prepared : s.Prepared env done) (good : s.WellTyped env done) : s'.WellTyped env done := by
  obtain ⟨s₁,s₂,-,entered,lowered,finished⟩ := run.lowerInitializerFunction_parts prepared.named
  exact good.lowered prepared.named (prepared.initializers run) entered (typed_new _ _ _) [] (by simp)
    (initializerCode ⟨program.named,trivial,nil_subset _⟩ rfl typed) lowered finished

theorem Lower.Runs.lowerInitializerLink_typed {initializer : ProcId}
    (run : Runs (Lower.lowerInitializerLink unit initializer) env s id s') (prepared : s.Prepared env done)
    (good : s.WellTyped env done) : s'.WellTyped env done := by
  obtain ⟨node,s₁,s₂,scopes,-,entered,linked,finished⟩ := run.lowerInitializerLink_parts prepared.named
  exact good.lowered prepared.named (prepared.link run) entered (typed_new _ _ _) [] (by simp) (Types.linkNode rfl)
    linked finished

theorem Lower.Runs.declareFunction_typed {f : FunctionId} (run : Runs (Lower.declareFunction f) env s u s')
    (prepared : s.Prepared env done) (good : s.WellTyped env done) : s'.WellTyped env (done ++ [f]) := by
  obtain ⟨proc,function,-,-,there,others,-⟩ := run.declareFunction prepared.named
  exact ⟨fun found => of_others found others there (typed_new _ _ function.nativeHeader) good.typed,
    (prepared.declared run).place⟩

theorem wellTyped_invariant (program : WellTypedProgram env.decls units) : Invariant env units fun done _ s => s.WellTyped env done where
  quiet prepared good quiet := ⟨fun found => good.typed (quiet.procedures ▸ found),(prepared.quiet quiet).place⟩
  declared prepared good run := run.declareFunction_typed prepared good
  body member known prepared good run := run.lowerFunction_typed program member known prepared good
  initializers {done left unit pending s id s'} member pending prepared good run := by
    refine run.lowerInitializerFunction_typed program (fun entry inside => ?_) prepared good
    obtain ⟨listed,field,declared,initial⟩ := pending entry inside
    have declared : env.decls.fields.get? entry.1 = some field := by
      revert declared
      unfold Declarations.getField
      cases env.decls.fields.get? entry.1 <;> simp
    obtain ⟨typed,fits⟩ := program.initializers unit member entry.1 listed field declared entry.2 initial
    exact ⟨typed,_,fits⟩
  link prepared good run := run.lowerInitializerLink_typed prepared good

end

/-! ### Programs -/

/-- Every function of the output of a well-typed program is well typed: parameters, the values that phis take, the
    arguments and results of calls, what is returned, stored and loaded, operands and conditions have the types that
    are required of them. -/
theorem lowerModule_well_typed {settings : Settings} {decls : Declarations} {units : List SourceUnit} {m : Module}
    {id : ProcId} {p : Procedure} (program : WellTypedProgram decls units)
    (lowered : (lowerModule settings decls units).result = .ok m) (found : m.procedures.get? id = some p) : p.WellTyped := by
  have start : (State.start settings .empty).WellTyped ⟨decls,settings,.ofDeclarations decls⟩ [] :=
    ⟨(fun found => nomatch found),by simp⟩
  obtain ⟨s,rfl,-,good⟩ := (wellTyped_invariant program).lowerProgram start lowered
  exact (good.typed found).wellTyped

def guardedLocals (x : VarId) : Option NativeType :=
  if x = ⟨0⟩ then some .bool else if x = ⟨1⟩ then some .i32 else none

theorem wellTyped_guardedCall (returns : FunctionId → Option Ty) :
    Expr.WellTyped guardedDecls ⟨guardedLocals,returns,none⟩ (.call ⟨1⟩ [.readVar ⟨1⟩ .int] .int) := by
  have argument : Expr.WellTyped guardedDecls ⟨guardedLocals,returns,none⟩ (.readVar ⟨1⟩ .int) :=
    .readVar (t := .i32) rfl (by decide)
  refine .call (show guardedDecls.functions.get? ⟨1⟩ = some _ from rfl) (fun e inside => ?_) ?_ nofun
  · obtain rfl := mem_singleton.mp inside
    exact argument
  · exact .function rfl nofun nofun (.cons (by decide) .nil) rfl

theorem wellTyped_guardedUnit : WellTypedProgram guardedDecls [guardedUnit] where
  named found := Declarations.named_ofLists _ _ _ _ _ found
  bodies unit inside body own function declared := by
    obtain rfl := mem_singleton.mp inside
    obtain rfl := mem_singleton.mp own
    cases declared
    refine ⟨guardedLocals,by decide,.returnFrom (show _ = some Ty.int from rfl) ?_ (by decide)⟩
    have call := wellTyped_guardedCall fun f => if f = ⟨0⟩ then some .int else none
    refine .choice ?_ (by decide) ?_ (by decide) nofun
    · simp only [forall_mem_cons]
      exact ⟨.readVar (t := .bool) rfl (by decide),.constant (by decide),nofun⟩
    · simp only [forall_mem_cons]
      refine ⟨?_,.readVar (t := .i32) rfl (by decide),nofun⟩
      have apart : ∀ clause ∈ ([] : List (CatchClause Expr)), TypeContext.Extends guardedLocals guardedLocals := nofun
      exact .guarded call (by decide) apart nofun nofun nofun fun e there => Option.some.inj there ▸ call
  initializers := by simp [guardedUnit]

/-- The merge of the guarded call with its argument takes integers. -/
theorem guardedUnit_well_typed : ∃ m p b k phi, WellTypedProgram guardedDecls [guardedUnit] ∧
    (lowerModule .development guardedDecls [guardedUnit]).result = .ok m ∧ m.procedures.get? ⟨0⟩ = some p ∧ p.WellTyped ∧
    p.graph.block? b = some k ∧ phi ∈ k.phis ∧ phi.incoming ≠ [] ∧ p.typeOf phi.dest = some phi.type ∧
    ∀ edge ∈ phi.incoming, p.typeOf edge.2 = some phi.type := by
  obtain ⟨m,p,lowered,found,passed⟩ := exists_output .development guardedDecls [guardedUnit] ⟨0⟩
    (fun p => p.graph.blocks.entries.any fun e => e.2.phis.any fun phi => !phi.incoming.isEmpty) (by decide +kernel)
  obtain ⟨⟨b,k⟩,entry,merging⟩ := any_eq_true.mp passed
  obtain ⟨phi,merged,edges⟩ := any_eq_true.mp merging
  have there : p.graph.block? b = some k := mem_entries_iff.mp entry
  have typed := lowerModule_well_typed wellTyped_guardedUnit lowered found
  obtain ⟨dest,incoming⟩ := (typed.blocks there).phis phi merged
  exact ⟨m,p,b,k,phi,wellTyped_guardedUnit,lowered,found,typed,there,merged,by simpa using edges,dest,incoming⟩

end BlockLowering
