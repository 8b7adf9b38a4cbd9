import BlockLowering.Proofs.Operations
/-!
Array literals, calls and singletons. Arguments are evaluated in order, and each one is there until the
call; where the target of a call is found at run time, its pointer is one more register that is there.
-/
namespace BlockLowering
open List Value CallTarget ArrayItem Option Build
variable {factory : ConstantFactory} {available : List Register} {ahead : List Ahead} {known : List Joint}

def registersOf? (registers : Option (List Register)) : List Register := registers.getD []

def SizedItem.registers : SizedItem → List Register
  | .element value => [value]
  | .spread array length => [array,length]

def itemRegisters? (items : Option (List (ArrayItem Register))) : List Register :=
  (items.getD []).map expression

namespace Lower
variable {env : Environment} {roots : Expr → Prop} {r r' : Recurse} {chain : Chain} {n : Nat} {needs : List Register}
  {s : State} {ty : Ty} {items : List (ArrayItem Expr)} {function : FunctionDecl} {arguments : List (Option Expr)}
  {cls : ClassId} {args : List Register} {e : Call Expr}

/-! ### Array literals -/

theorem flows_measure {length : Register} {items : List (ArrayItem Register)} (held : length ∈ needs)
    (heldItems : items.map expression ⊆ needs) :
    Flows env roots chain needs (measure chain length items) fun r => r.1 :: r.2.flatMap SizedItem.registers := by
  induction items generalizing needs length with
  | nil => exact .pure (by simpa using held)
  | cons item rest ih =>
    have rests : rest.map expression ⊆ needs := fun _ h => heldItems (.tail _ h)
    have own : item.expression ∈ needs := heldItems (.head _)
    cases item with
    | element value =>
      refine (ih held rests).bind fun r => .pure ?_
      simp only [flatMap_cons,SizedItem.registers,cons_append,nil_append,cons_subset,
        mem_cons,mem_append,true_or,true_and]
      exact ⟨.inr (.inr own),fun _ h => .tail _ (mem_append_left _ h)⟩
    | spread array =>
      refine .queryThen rfl (cons_subset.mpr ⟨own,nil_subset _⟩) fun size => ?_
      refine .bind (.binary (by simp [held]) (by simp)) fun total => ?_
      refine (ih (by simp) fun _ h => by simp [rests h]).bind fun r => .pure ?_
      simp only [flatMap_cons,SizedItem.registers,cons_append,nil_append,cons_subset,
        mem_cons,mem_append,true_or,true_and]
      refine ⟨?_,?_,fun _ h => ?_⟩
      · simp [show array ∈ needs from own]
      · simp
      · simp [h]

theorem flows_fillArray {array one index : Register} {items : List SizedItem} (heldArray : array ∈ needs)
    (heldOne : one ∈ needs) (heldIndex : index ∈ needs) (heldItems : items.flatMap SizedItem.registers ⊆ needs) :
    Flows env roots chain needs (fillArray chain array one index items) nothing := by
  induction items generalizing needs index with
  | nil => exact .pure (nil_subset _)
  | cons item rest ih =>
    obtain ⟨own,rests⟩ := append_subset.mp heldItems
    cases item with
    | element value =>
      have heldValue : value ∈ needs := own (.head _)
      refine .queryThen rfl (by simp [heldArray,heldIndex]) fun address => ?_
      refine .bind (.buildBind (.store (by simp) (by simp [heldValue])) fun _ =>
        .binary (by simp [nothing,heldIndex]) (by simp [nothing,heldOne])) fun next => ?_
      exact ih (by simp [heldArray]) (by simp [heldOne]) (by simp) fun _ h => by simp [rests h]
    | spread source length =>
      have heldSource : source ∈ needs := own (.head _)
      have heldLength : length ∈ needs := own (.tail _ (.head _))
      refine .bind .int fun zero => ?_
      refine .bind (.callSupport (by simp [heldSource,heldArray,heldIndex,heldLength])) fun dest => ?_
      refine .bind (.binary (by simp [heldIndex]) (by simp [heldLength])) fun next => ?_
      exact ih (by simp [heldArray]) (by simp [heldOne]) (by simp) fun _ h => by simp [rests h]

namespace Lowers
variable (lowers : Lowers env roots n r r')
include lowers

theorem evalItems (admits : ∀ item ∈ items, Admits roots n chain item.expression) :
    Carries env roots r r' chain needs (fun r => evalItems r chain items) itemRegisters? fun found => found.isSome = true := by
  induction items generalizing needs with
  | nil => exact .pure (nil_subset _) rfl
  | cons item rest ih =>
    refine lowers.evalThen (admits item (.head _)) (fun _ => rfl) (nil_subset _) nofun fun v completes => ?_
    refine .after (.materialize completes (subset_append_left _ _)) fun register => ?_
    refine (ih fun item inside => admits item (.tail _ inside)).option (fun _ => rfl) (nil_subset _) nofun
      fun registers => .pure ?_ rfl
    have same : (item.withExpression register).expression = register := by cases item <;> rfl
    simp [itemRegisters?,same]

theorem lowerArrayLiteral {elementType : Ty} (admits : ∀ item ∈ items, Admits roots n chain item.expression) :
    Carries env roots r r' chain needs (fun r => lowerArrayLiteral r chain elementType items ty) registers Completes := by
  refine (lowers.evalItems admits).option (fun _ => rfl) (nil_subset _) nofun fun registers => ?_
  refine .after .int fun fixed => .after (flows_measure (by simp) fun _ h => ?_) fun measured => .after .int fun size => ?_
  · exact mem_append_right _ (mem_append_left _ h)
  obtain ⟨length,sized⟩ := measured
  have filled : Flows env roots chain ([size] ++ (length :: sized.flatMap SizedItem.registers ++
      ([fixed] ++ (itemRegisters? (some registers) ++ needs)))) (do
        let array ← produced .array (← callSupport chain .allocArray [size,length])
        let one ← build (int 1 .i32)
        let start ← build (int 0 .i32)
        fillArray chain array one start sized
        return Value.ofRegister array ty) Value.registers := by
    refine .queryThen rfl (by simp) fun array => .bind .int fun one => .bind .int fun start => ?_
    refine .andThen (flows_fillArray (by simp) (by simp) (by simp) fun _ h => ?_) fun _ => .pure (by simp)
    simp [h]
  exact .straight filled fun v s s' run => by
    simp only [runs_bind,runs_pure] at run
    obtain ⟨_,_,_,_,_,_,_,_,_,_,_,_,_,_,_,rfl,-⟩ := run
    rfl

/-! ### Arguments and constant factories -/

theorem evalAll {es : List Expr} (admits : ∀ e ∈ es, Admits roots n chain e) :
    Carries env roots r r' chain needs (fun r => evalAll r chain es) registersOf? fun found => found.isSome = true := by
  induction es generalizing needs with
  | nil => exact .pure (nil_subset _) rfl
  | cons e rest ih =>
    refine lowers.evalThen (admits e (.head _)) (fun _ => rfl) (nil_subset _) nofun fun v completes => ?_
    refine .after (.materialize completes (subset_append_left _ _)) fun register => ?_
    refine (ih fun e inside => admits e (.tail _ inside)).option (fun _ => rfl) (nil_subset _) nofun
      fun registers => .pure ?_ rfl
    simp [registersOf?]

theorem evalArguments (admits : ∀ e ∈ arguments.filterMap id, Admits roots n chain e) :
    Carries env roots r r' chain needs (fun r => evalArguments r chain function arguments) registersOf?
      fun found => found.isSome = true := by
  refine .after .read fun env' => ?_
  by_cases extra : function.parameters.length < arguments.length
  · simp only [if_pos extra]
    exact ⟨fun _ _ => Safe.agree (safe_bind.mpr (safe_throw.mpr rfl))⟩
  · simp only [if_neg extra]
    split
    · exact .throw rfl
    · exact lowers.evalAll admits

end Lowers

theorem flows_literalItems : Flows env roots chain needs (literalItems items) nothing := by
  fun_induction literalItems items with
  | case1 => exact .pure (nil_subset _)
  | case2 value _ _ rest ih => exact .andThen flows_literalOf fun _ => .andThen ih fun _ => .pure (nil_subset _)
  | case3 => exact .pure (nil_subset _)

theorem flows_place {f : Module → DataId × Module} (adds : ∀ m, ∃ name type content, f m = m.addDatum name type content) :
    Flows env roots chain needs (onModule f) nothing :=
  .quiet (fun _ => by trivial) fun run => run.place adds

theorem flows_placeFactory {elementType : NativeType} {literals : List Literal} :
    Flows env roots chain needs (placeFactory factory elementType literals) nothing := by
  refine .andThen (flows_place fun m => ⟨_,_,_,rfl⟩) fun array => ?_
  cases factory with
  | arrayOf => exact .pure (nil_subset _)
  | listOf => exact flows_place fun m => ⟨_,_,_,rfl⟩

theorem carries_foldFactory :
    Carries env roots r r' chain needs (fun _ => foldFactory factory arguments ty) registers? fun found => ∀ v ∈ found, v.Completes := by
  refine .after .read fun _ => ?_
  split
  · split
    · refine .after flows_literalItems fun literals => ?_
      split
      · exact .pure (nil_subset _) nofun
      · refine .after flows_placeFactory fun data => .after .log fun _ => .after .const fun register => .pure ?_ ?_
        · exact subset_append_left _ _
        · exact fun v same => some.inj same ▸ rfl
    · exact .pure (nil_subset _) nofun
  · exact .pure (nil_subset _) nofun

/-! ### Targets and results of calls -/

theorem flows_allocateInstance : Flows env roots chain needs (allocateInstance chain cls) fun r => [r] :=
  .bind flows_descriptorAddress fun _ => .query rfl (by simp)

theorem carries_construct {constructor : FunctionDecl} {lifetime : Lifetime} (held : args ⊆ needs) :
    Carries env roots r r' chain needs (fun _ => construct chain constructor args lifetime ty) registers Completes := by
  unfold construct
  split
  · exact .throw rfl
  · refine .after flows_allocateInstance fun object => .after .directTarget fun target => ?_
    refine .after (.call ?_) fun _ => .pure (by simp) rfl
    simp only [append_subset,cons_subset,subset_append_left,mem_append,mem_singleton,
      true_or,or_true,true_and]
    exact fun _ h => by simp [held h]

theorem flows_receiverDescriptor (held : args ⊆ needs) : Flows env roots chain needs (receiverDescriptor function args) fun r => [r] := by
  unfold receiverDescriptor
  split
  · exact .throw rfl
  · exact .andThen (.lift failsInProgram_ownerOf) fun _ => .andThen .read fun _ => .andThen (.lift (failsInProgram_bodyType _))
      fun _ => .buildBind (.element (held (.head _))) fun _ => .load (by simp)

theorem flows_indirectTarget {pointer : Register} (held : pointer ∈ needs) :
    Flows env roots chain needs (indirectTarget function pointer) registers :=
  .bind (.cast held) fun _ => .pure (subset_append_left _ _)

theorem flows_tableTarget (held : args ⊆ needs) : Flows env roots chain needs (tableTarget function args) registers :=
  .bind (flows_receiverDescriptor held) fun _ => .andThen (.lift failsInProgram_ownerOf) fun _ => .andThen .read fun _ =>
    .andThen (.lift (failsInProgram_vtableSlot _)) fun _ => .andThen (.lift (failsInProgram_descriptorType _)) fun _ =>
      .bind (.buildBind (.element (by simp)) fun _ => .load (by simp)) fun _ => flows_indirectTarget (by simp)

theorem flows_lookupTarget (held : args ⊆ needs) : Flows env roots chain needs (lookupTarget chain function args) registers :=
  .bind (flows_receiverDescriptor held) fun _ => .bind .const fun _ =>
    .queryThen rfl (by simp) fun _ => flows_indirectTarget (by simp)

theorem flows_callTarget (held : args ⊆ needs) : Flows env roots chain needs (callTarget chain function e args) registers := by
  refine .andThen .read fun _ => .andThen (.lift failsInProgram_ownerKind) fun kind => ?_
  split
  · exact .directTarget
  · exact flows_tableTarget held
  · exact flows_lookupTarget held

theorem safe_endPath {o : Outset env roots chain} {live : Prop}
    (stance : Stance o available ahead known live s) : Safe env (do
      if !(← isTerminated) then build unreachable
      return unreachable ty) s fun v s' => Stance o (v.registers ++ available) ahead known v.Completes s' := by
  refine safe_bind.mpr (safe_isTerminated.mpr ?_)
  split
  · rename_i goesOn
    have stance := stance.congr (iff_of_true (stance.alive (by simpa using goesOn)) trivial)
    exact stance.unreachable.bind fun _ _ done => done.dead not_false nofun
  · rename_i ended
    exact stance.dead (stance.isTerminated.mp (by simpa using ended)) nofun

theorem carries_callResult {result : Option Register} (held : result.toList ⊆ needs) :
    Carries env roots r r' chain needs (fun _ => callResult function result ty) registers Completes := by
  unfold callResult
  split
  · exact ⟨fun stance _ => Safe.agree (safe_endPath stance)⟩
  · split
    · exact .pure held rfl
    · exact .pure (nil_subset _) rfl

theorem carries_applyCall (held : args ⊆ needs) :
    Carries env roots r r' chain needs (fun _ => applyCall chain function e args ty) registers Completes := by
  unfold applyCall
  split
  · exact carries_lowerIntrinsic held
  · split
    · exact carries_construct held
    · refine .after (flows_callTarget held) fun target => .after (.call ?_) fun result => carries_callResult (by simp)
      exact append_subset_append _ held

namespace Lowers
variable (lowers : Lowers env roots n r r')
include lowers

theorem lowerDelegate {constructor : FunctionId} (admits : ∀ e ∈ arguments.filterMap id, Admits roots n chain e) :
    Carries env roots r r' chain needs (fun r => lowerDelegate r chain constructor arguments) registers Completes := by
  refine ⟨fun stance there => stance.receiver.agree.bind fun receiver s' ⟨same,usable⟩ => ?_⟩
  subst same
  cases receiver with
  | none => exact Safe.agree (safe_throw.mpr rfl)
  | some v =>
    obtain ⟨held,completes⟩ := usable v rfl
    refine @Carries.agree _ _ _ _ _ _ v.registers _ _ _ ?_ _ _ _ _ _ stance held
    refine .after .read fun _ => .after (.lift (failsInProgram_getFunction _)) fun function => ?_
    refine .after (.materialize completes fun _ h => h) fun object => ?_
    refine (lowers.evalArguments admits).option (fun _ => rfl) (nil_subset _) nofun fun args => ?_
    refine .after .directTarget fun target => .after (.call ?_) fun _ => .pure (nil_subset _) rfl
    simp only [append_subset,cons_subset,subset_append_left,mem_append,mem_singleton,
      true_or,or_true,true_and,registersOf?,getD_some]
    exact fun _ h => by simp [h]

theorem evaluateCall (admits : ∀ c ∈ (Node.call e).children, Admits roots n chain c) :
    Carries env roots r r' chain needs (fun r => evaluateCall r chain function e ty) registers Completes := by
  refine (lowers.evalAll fun c inside => admits c (mem_append_left _ inside)).option (fun _ => rfl) (nil_subset _) nofun
    fun receivers => ?_
  refine (lowers.evalArguments fun c inside => admits c (mem_append_right _ inside)).option (fun _ => rfl) (nil_subset _) nofun
    fun args => carries_applyCall fun _ h => ?_
  rcases mem_append.mp h with receiver | argument
  · exact mem_append_right _ (mem_append_left _ receiver)
  · exact mem_append_left _ argument

theorem lowerCall (admits : ∀ c ∈ (Node.call e).children, Admits roots n chain c) :
    Carries env roots r r' chain needs (fun r => lowerCall r chain e ty) registers Completes := by
  refine .after .read fun _ => .after (.lift (failsInProgram_getFunction _)) fun function => ?_
  split
  · refine ⟨fun stance there => (carries_foldFactory.agree stance there).bind fun folded s' done => ?_⟩
    cases folded with
    | some v => exact Safe.agree (done.congr ⟨fun given => given v rfl,fun completes w same => some.inj same ▸ completes⟩)
    | none => exact (lowers.evaluateCall admits).agree (done.congr (iff_of_true nofun trivial)) there
  · exact ⟨fun stance there => .after rfl ((lowers.evaluateCall admits).agree stance there)⟩

end Lowers

/-! ### Singletons -/

theorem safe_createSingleton {o : Outset env roots chain}
    {slot : Register} {merge : Continuation} (stance : Stance o available ahead known True s)
    (expects : Expects ahead known merge available) (held : slot ∈ available) :
    Safe env (createSingleton chain cls slot merge ty) s fun _ s' => Stance o available ahead known False s' := by
  have covered := stance.covered
  refine (stance.flow flows_allocateInstance (nil_subset _)).bind fun object s₁ stance => ?_
  refine (stance.flow (.lift (failsInProgram_defaultConstructor cls)) (nil_subset _)).bind fun constructor s₂ stance => ?_
  refine (stance.flow .directTarget (nil_subset _)).bind fun target s₃ stance => ?_
  refine (stance.flow (.call fun _ h => h) (append_subset_append _ (by simp))).bind fun dest s₄ stance => ?_
  have kept : available ⊆ dest.toList ++ (target.registers ++ (nothing constructor ++ ([object] ++ available))) :=
    fun _ h => by simp [h]
  refine safe_bind.mpr (safe_isTerminated.mpr ?_)
  split
  · rename_i ended
    exact absurd trivial (stance.isTerminated.mp ended)
  · refine (stance.flow (.store (kept held) (by simp)) fun _ h => h).bind fun _ s₅ stance => ?_
    refine Safe.mono (stance.jump expects kept (by simp [nothing]) fun _ => rfl) fun _ _ done => done.forget kept covered

theorem carries_lowerSingleton : Carries env roots r r' chain needs (fun _ => lowerSingleton chain cls ty) registers Completes := by
  refine .after .globalOf fun global => .after .const fun slot => .after (.load (by simp)) fun current => .after .read fun _ =>
    .after (.lift (failsInProgram_getClass cls)) fun decl => ?_
  split
  · exact .pure (by simp) rfl
  · refine ⟨fun {o available ahead known s} stance there => Safe.agree ?_⟩
    have tested : current ∈ available := there (by simp)
    have covered := stance.covered
    refine (stance.newContinuation (.reference cls false) "object.ready" .other fun _ h => h).bind fun merge s₁ stance => ?_
    refine (stance.labelledBlock "object.init" .other fun _ h => h).bind fun create s₂ stance => ?_
    refine (stance.labelledBlock "object.loaded" .other fun _ h => h).bind fun loaded s₃ stance => ?_
    refine Safe.bind (safe_forkOnNull stance create.plain loaded.plain tested (.next (.first nofun)) (.first nofun) rfl rfl
      fun _ stance => stance.enter nofun covered) fun _ s₄ stance => ?_
    refine (stance.jump (.next (.first nofun)) (fun _ h => h) (by simpa using tested) fun _ => rfl).bind fun _ s₅ stance => ?_
    refine (stance.enter nofun covered).bind fun _ s₆ stance => ?_
    refine (safe_createSingleton stance (.first nofun) (there (by simp))).bind fun _ s₇ stance => ?_
    exact (stance.resumeAt not_false covered).bind fun _ _ done => done.unlearn fun _ h => by simp [h]

end Lower

end BlockLowering
