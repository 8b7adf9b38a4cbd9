import BlockLowering.Proofs.TypedOperations
/-!
Calls and what is made by calls: array literals, objects and singletons. A call supplies one register for every
parameter of its target, in order, and each of them has the type of its parameter.
-/
namespace BlockLowering
open List Lower SizedItem FunctionDecl Declarations Option Ty
variable {function : FunctionDecl} {items : List (ArrayItem Expr)}

/-- What is known of an item in a register, in an array of elements of a type. -/
def ArrayItem.fact (t : NativeType) : ArrayItem Register → TypeFact
  | .element value => .register value t
  | .spread array => .register array .ptr

def SizedItem.facts (t : NativeType) : SizedItem → List TypeFact
  | .element value => [.register value t]
  | .spread array length => [.register array .ptr,.register length .i32]

theorem Supplies.fits {given : List Expr} {parameters : List ParameterDecl} (supplies : Supplies given parameters) :
    Forall₂ (fun (t : NativeType) (e : Expr) => t.Accepts e.ty) (parameters.map fun p => p.ty.storage) given :=
  forall₂_map_left_iff.mpr (supplies.imp fun _ _ fits => fits.native)

theorem FunctionDecl.params_of_receiver {receiver : ParameterDecl}
    (declared : function.dispatchReceiver = some receiver) : function.nativeHeader.signature.params =
      receiver.ty.storage :: (function.extensionReceiver.toList ++ function.parameters).map fun p => p.ty.storage := by
  simp [params_signature,allParameters,declared]

theorem Ty.storage_ne_void (ty : Ty) : ty.storage ≠ .void := by
  cases ty with
  | primitive kind => cases kind <;> simp [storage,Primitive.native]
  | _ => simp [storage]

theorem FunctionDecl.result_signature (live : function.returnType.isNever = false)
    (bound : function.isConstructor = true → function.returnType = .unit) :
    function.nativeHeader.signature.result = .void ∧ function.returnType = .unit ∨
      function.nativeHeader.signature.result ≠ .void ∧ function.returnType.StoredAs function.nativeHeader.signature.result := by
  have result : function.nativeHeader.signature.result =
      if function.isConstructor then .void else function.returnType.returned := rfl
  rw [result]
  split
  · rename_i constructs
    exact .inl ⟨rfl,bound constructs⟩
  · unfold returned
    split
    · rename_i valueless
      refine .inl ⟨rfl,?_⟩
      rw [isValueless,live,Bool.or_false] at valueless
      revert valueless
      cases function.returnType <;> simp [isUnit]
    · exact .inr ⟨storage_ne_void _,live,rfl⟩

theorem Dispatch.receiver_of_choose {kind : Option ClassKind} {superQualifier : Option ClassId}
    (indirect : choose function kind superQualifier ≠ .direct) :
    function.isOverridable = true ∧ ∃ receiver, function.dispatchReceiver = some receiver := by
  unfold choose at indirect
  split at indirect
  · exact absurd rfl indirect
  · rename_i conditions
    simp only [Bool.or_eq_true,Bool.not_eq_true',not_or,Bool.not_eq_false,isNone_iff_eq_none] at conditions
    exact ⟨conditions.2,ne_none_iff_exists'.mp conditions.1.2⟩

namespace Types
open Regime
variable {α β : Type} {o : Origin} {F : Frame} {needs : List TypeFact} {chain : Chain} {Γ : TypeContext} {recurse : Recurse}
  {step : Lower α} {gives : α → List TypeFact}
variable {t : NativeType} {arguments : List (Option Expr)} {ty : Ty} {cls : ClassId} {receiver : ParameterDecl}
  {args : List Register} {function : FunctionDecl} {ts : List NativeType} {e : Call Expr}

/-! ### Array literals -/

theorem measure {length : Register} {items : List (ArrayItem Register)}
    (given : .register length .i32 ∈ needs) (known : items.map (ArrayItem.fact t) ⊆ needs) :
    Types o F needs (measure chain length items) fun answer =>
      .register answer.1 .i32 :: answer.2.flatMap (facts t) := by
  induction items generalizing needs length with
  | nil => exact .pure (by simp [given])
  | cons item rest ih =>
    rw [map_cons,cons_subset] at known
    cases item with
    | element value =>
      have first : .register value t ∈ needs := known.1
      refine .bind (ih given known.2) fun answer => .pure (cons_subset.mpr ⟨by simp,?_⟩)
      exact append_subset.mpr ⟨by simp [facts,first],
        fun _ inside => mem_append_left _ (.tail _ inside)⟩
    | spread array =>
      have first : .register array .ptr ∈ needs := known.1
      refine .bind (callSupport .arraySize [.ptr] .i32 rfl (by simp [first])) fun dest => ?_
      refine .bind (produced (t := .i32) (by simp)) fun size => ?_
      refine .bind (binary (t := .i32) rfl (by simp [given]) (by simp)) fun length' => ?_
      refine .bind (ih (by simp) fun _ inside => by simp [known.2 inside]) fun answer =>
        .pure (cons_subset.mpr ⟨by simp,?_⟩)
      exact append_subset.mpr ⟨by simp [facts,first],
        fun _ inside => mem_append_left _ (.tail _ inside)⟩

theorem fillArray {array one index : Register} {items : List SizedItem} (base : .register array .ptr ∈ needs)
    (unit : .register one .i32 ∈ needs) (given : .register index .i32 ∈ needs) (known : items.flatMap (facts t) ⊆ needs) :
    Types o F needs (fillArray chain array one index items) noFacts := by
  induction items generalizing needs index with
  | nil => exact .done
  | cons item rest ih =>
    obtain ⟨own,others⟩ := append_subset.mp known
    cases item with
    | element value =>
      have stored : .register value t ∈ needs := own (by simp [facts])
      refine .bind (callSupport .arrayElementAddress [.ptr,.i32] .ptr rfl (by simp [base,given])) fun dest => ?_
      refine .bind (produced (t := .ptr) (by simp)) fun address => ?_
      refine .bind (.buildThen (store (t := t) (.inr (by simp)) (by simp [stored])) fun _ =>
        binary (t := .i32) rfl (by simp [given]) (by simp [unit])) fun next => ?_
      exact ih (by simp [base]) (by simp [unit]) (by simp) fun _ inside => by simp [others inside]
    | spread source length =>
      have from' : .register source .ptr ∈ needs := own (by simp [facts])
      have sized : .register length .i32 ∈ needs := own (by simp [facts])
      refine .bind (int (t := .i32)) fun zero => ?_
      refine .bind (callSupport .arrayCopy [.ptr,.i32,.ptr,.i32,.i32] .void rfl (by simp [from',base,given,sized]))
        fun _ => ?_
      refine .bind (binary (t := .i32) rfl (by simp [given]) (by simp [sized])) fun next => ?_
      exact ih (by simp [base]) (by simp [unit]) (by simp) fun _ inside => by simp [others inside]

theorem supplyFirst (t : NativeType) (ts : List NativeType) (r : Register) (rs : List Register) (first : .register r t ∈ needs)
    (others : .registers rs ts ∈ needs) (keeps : Types o F (.registers (r :: rs) (t :: ts) :: needs) step gives) :
    Types o F needs step gives :=
  infer (f := .registers (r :: rs) (t :: ts)) (fun _ facts => congrArg₂ cons (facts _ first) (facts _ others)) keeps

/-! ### Static data -/

theorem foldFactory {factory : ConstantFactory} (stored : ty.StoredAs .ptr) :
    Types o F needs (foldFactory factory arguments ty) fun found => found.toList.map (TypeFact.result · ty) := by
  refine .andThen .read fun _ => ?_
  split
  · split
    · refine .andThen keeps_literalItems fun literals => ?_
      split
      · exact .pure (by simp)
      · refine .andThen keeps_placeFactory fun data => .andThen keeps_log fun _ => .bind (const (t := .ptr) rfl) fun r => ?_
        refine ofRegister r ty stored.2 (by simp) (answer fun {p} _ facts f inside => ?_)
        obtain rfl : f = .result (.ofRegister r ty) ty := by simpa using inside
        exact ⟨stored.2 ▸ facts (.value (.ofRegister r ty) .ptr) (by simp),by simp [stored.1]⟩
    · exact .pure (by simp)
  · exact .pure (by simp)

/-! ### Objects -/

theorem allocateInstance : Types o F needs (allocateInstance chain cls) fun r => [.register r .ptr,.plain r] := by
  refine .bind descriptorAddress fun descriptor => ?_
  exact .bind (callSupport .allocInstance [.ptr] .ptr rfl (by simp)) fun dest => produced (by simp)

theorem construct {constructor : FunctionDecl} {lifetime : Lifetime}
    (declared : o.env.decls.functions.get? constructor.id = some constructor)
    (own : constructor.dispatchReceiver = some receiver) (object : receiver.ty.storage = .ptr)
    (supplied : .registers args ((constructor.extensionReceiver.toList ++ constructor.parameters).map fun p => p.ty.storage) ∈ needs)
    (stored : ty.StoredAs .ptr) : Types o F needs (construct chain constructor args lifetime ty) fun v => [.result v ty] := by
  unfold Lower.construct
  split
  · exact .throw
  · refine .bind allocateInstance fun new => .bind (directTarget declared) fun target => ?_
    refine supplyFirst .ptr _ new args (by simp) (mem_append_right _ (mem_append_right _ supplied)) ?_
    refine .bind (callAt constructor.nativeHeader.signature (by simp) ?_) fun _ => registerResult stored (by simp)
    rw [params_of_receiver own,object]
    exact (.head _)

/-! ### Targets -/

theorem receiverDescriptor (given : .registers args (.ptr :: ts) ∈ needs) :
    Types o F needs (receiverDescriptor function args) fun r => [.register r .ptr] := by
  unfold Lower.receiverDescriptor
  split
  · exact .breach
  · rename_i receiver others
    refine infer (f := .register receiver .ptr) (fun _ facts => (cons.inj (facts _ given)).1) ?_
    refine .andThen .lift fun _ => .andThen .read fun _ => .andThen .lift fun _ => ?_
    exact .buildBind (element (by simp)) fun head => (load (t := .ptr) (.inr (by simp))).mono (Subset.refl _) (by simp)

theorem indirectTarget {pointer : Register} (given : .register pointer .ptr ∈ needs) :
    Types o F needs (indirectTarget function pointer) fun target => [.calls target function.nativeHeader.signature] := by
  refine .bind (cast (t := function.nativeHeader.signature.type) ⟨rfl,_,_,rfl⟩ given) fun code => ?_
  refine answer fun _ facts f inside => ?_
  obtain rfl := mem_singleton.mp inside
  refine ⟨rfl,fun same => ?_⟩
  cases same
  exact facts (.register code function.nativeHeader.signature.type) (by simp)

theorem tableTarget (given : .registers args (.ptr :: ts) ∈ needs) :
    Types o F needs (tableTarget function args) fun target => [.calls target function.nativeHeader.signature] := by
  refine .bind (receiverDescriptor given) fun descriptor => .andThen .lift fun _ => .andThen .read fun _ => .andThen .lift fun _ =>
    .andThen .lift fun _ => ?_
  refine .bind (.buildBind (element (by simp)) fun entry => load (t := .ptr) (.inr (by simp))) fun pointer => ?_
  exact indirectTarget (by simp)

theorem lookupTarget (given : .registers args (.ptr :: ts) ∈ needs) :
    Types o F needs (lookupTarget chain function args) fun target => [.calls target function.nativeHeader.signature] := by
  refine .bind (receiverDescriptor given) fun descriptor => .bind (const (t := .i64) rfl) fun hash => ?_
  refine .bind (callSupport .lookupOpenMethod [.ptr,.i64] .ptr rfl (by simp)) fun dest => ?_
  exact .bind (produced (t := .ptr) (by simp)) fun pointer => indirectTarget (by simp)

theorem callTarget (declared : o.env.decls.functions.get? e.function = some function)
    (object : function.isOverridable = true → ∀ receiver ∈ function.dispatchReceiver, receiver.ty.storage = .ptr)
    (supplied : .registers args function.nativeHeader.signature.params ∈ needs) :
    Types o F needs (callTarget chain function e args) fun target => [.calls target function.nativeHeader.signature] := by
  refine .readThen (.liftThen fun kind _ => ?_)
  by_cases direct : Dispatch.choose function kind e.superQualifier = .direct
  · rw [direct]
    exact directTarget declared
  · obtain ⟨overridable,receiver,own⟩ := Dispatch.receiver_of_choose direct
    rw [params_of_receiver own,object overridable receiver own] at supplied
    split
    · rename_i isDirect
      exact absurd isDirect direct
    · exact tableTarget supplied
    · exact lookupTarget supplied

/-! ### Calls -/

theorem callResult {dest : Option Register} (same : ty = function.returnType)
    (bound : function.isConstructor = true → function.returnType = .unit)
    (outcome : .outcome dest function.nativeHeader.signature.result ∈ needs) :
    Types o F needs (callResult function dest ty) fun v => [.result v ty] := by
  subst same
  unfold callResult
  split
  · refine .andThen .isTerminated fun ended => ?_
    split
    · exact .andThen unreachable fun _ => noResult
    · exact noResult
  · rename_i live
    have results := function.result_signature (by simpa using live) bound
    refine learn (P := dest = none ↔ function.nativeHeader.signature.result = .void) (fun _ facts => (facts _ outcome).1) fun void => ?_
    split
    · rename_i r
      rcases results with ⟨empty,-⟩ | ⟨-,stored⟩
      · exact absurd (void.mpr empty) (by simp)
      · refine infer (f := .register r function.nativeHeader.signature.result) (fun _ facts => ((facts _ outcome).2 r rfl).1) ?_
        exact registerResult stored (by simp)
    · rcases results with ⟨-,unit⟩ | ⟨valued,-⟩
      · rw [unit]
        exact unitResult
      · exact absurd (void.mp rfl) valued

theorem applyOperator {i : Intrinsic} {n : Nat}
    (intrinsic : function.intrinsic = some i) (applies : i.AppliesTo t) (stored : ty.StoredAs (i.result t))
    (supplied : .registers args (replicate n t) ∈ needs) :
    Types o F needs (applyCall chain function e args ty) fun v => [.result v ty] := by
  unfold applyCall
  rw [intrinsic]
  exact lowerIntrinsic applies stored supplied

theorem applyConstructor (declared : o.env.decls.functions.get? function.id = some function) (plain : function.intrinsic = none)
    (constructs : function.isConstructor = true) (fresh : e.dispatchReceiver = none)
    (own : function.dispatchReceiver = some receiver) (object : receiver.ty.storage = .ptr) (stored : ty.StoredAs .ptr)
    (supplied : .registers args ((function.extensionReceiver.toList ++ function.parameters).map fun p => p.ty.storage) ∈ needs) :
    Types o F needs (applyCall chain function e args ty) fun v => [.result v ty] := by
  unfold applyCall
  rw [plain,constructs,fresh]
  exact construct declared own object supplied stored

theorem applyFunction (declared : o.env.decls.functions.get? e.function = some function) (plain : function.intrinsic = none)
    (bound : function.isConstructor = true → e.dispatchReceiver.isSome = true ∧ function.returnType = .unit)
    (object : function.isOverridable = true → ∀ receiver ∈ function.dispatchReceiver, receiver.ty.storage = .ptr)
    (same : ty = function.returnType) (supplied : .registers args (function.allParameters.map fun p => p.ty.storage) ∈ needs) :
    Types o F needs (applyCall chain function e args ty) fun v => [.result v ty] := by
  rw [← function.params_signature] at supplied
  have ordinary : (function.isConstructor && e.dispatchReceiver.isNone) = false := by
    cases constructs : function.isConstructor with
    | false => rfl
    | true => simp [isNone_eq_false_iff.mpr (bound constructs).1]
  unfold applyCall
  rw [plain,ordinary]
  refine .bind (callTarget declared object supplied) fun target => ?_
  refine .bind (callAt function.nativeHeader.signature (by simp) (mem_append_right _ supplied)) fun dest => ?_
  exact callResult same (fun constructs => (bound constructs).2) (by simp)

/-! ### Singletons -/

section
variable (here : Around o F needs chain Γ)
  (created : ∀ {constructor}, o.env.decls.defaultConstructor cls = .ok constructor → constructor.extensionReceiver = none ∧
    ∃ receiver, constructor.dispatchReceiver = some receiver ∧ receiver.ty.storage = .ptr) (stored : ty.StoredAs .ptr)
include here created stored

theorem createSingleton {slot : Register} {merge : Continuation} (address : .register slot .ptr ∈ needs) (plain : .plain slot ∈ needs)
    (takes : .takes merge .ptr ∈ needs) : Types o F needs (createSingleton chain cls slot merge ty) noFacts := by
  refine .bind allocateInstance fun object => .readThen (.liftThen fun constructor found => ?_)
  obtain ⟨alone,receiver,own,pointer⟩ := created found
  obtain ⟨declared,empty⟩ : o.env.decls.functions.get? constructor.id = some constructor ∧ constructor.parameters = [] := by
    unfold defaultConstructor at found
    split at found
    · rename_i candidate isCandidate
      cases found
      obtain ⟨id,entered⟩ := Table.mem_values_iff.mp (mem_of_find?_eq_some isCandidate)
      have conditions := find?_some isCandidate
      simp only [Bool.and_eq_true,List.isEmpty_iff] at conditions
      exact ⟨here.named entered ▸ entered,conditions.2⟩
    · cases found
  refine .bind (directTarget declared) fun target => ?_
  refine supply [object] [.ptr] (by simp) ?_
  refine .bind (callAt constructor.nativeHeader.signature (by simp) ?_) fun _ => .andThen .isTerminated fun ended => ?_
  · rw [params_of_receiver own,pointer,alone,empty]
    exact (.head _)
  · split
    · exact .done
    · refine .bind (store (t := .ptr) (.inr (by simp [address,plain])) (by simp)) fun _ => ?_
      exact ofRegister (t := .ptr) object ty stored.2 (by simp) (jump (t := .ptr) (by simp [takes]) (by simp))

theorem lowerSingleton : Types o F needs (lowerSingleton chain cls ty) fun v => [.result v ty] := by
  refine .andThen (keeps_quiet fun run => run.globalOf) fun _ => .bind (const (t := .ptr) rfl) fun slot => ?_
  refine .bind (load (t := .ptr) (.inr (by simp))) fun current => .andThen .read fun _ => .andThen .lift fun decl => ?_
  split
  · exact registerResult stored (by simp)
  · refine joinedAt (t := .ptr) ⟨rfl,rfl⟩ fun merge same => ?_
    refine .bind labelledBlock fun create => .bind labelledBlock fun loaded => ?_
    refine .bind (.buildBind null fun null => .buildBind (compare (t := .ptr) rfl (by simp) (by simp)) fun isNull =>
      .buildThen (condBranch (by simp) (by simp) (by simp)) fun _ => (keeps_switchTo fun _ => trivial)) fun _ => ?_
    refine .andThen (ofRegister (t := .ptr) current ty stored.2 (by simp) (jump (t := .ptr) (by simp) (by simp))) fun _ => ?_
    refine .andThen (keeps_switchTo fun _ => trivial) fun _ => ?_
    refine .andThen (createSingleton here.more.more.cons.cons.more.more.more created stored (by simp) (by simp) (by simp)) fun _ => ?_
    refine .bind (resumeAt (by simp)) fun v => ?_
    refine infer (f := .value v .ptr) (fun {p} _ facts => ?_) (retype v ty stored.2 (by simp) (result stored (by simp)))
    have typed : v.Typed p merge.ty.storage := (facts (.result v merge.ty) (by simp)).1
    rw [same] at typed
    exact typed

end

/-! ### Children -/

variable (preserved : Preserved recurse) (here : Around o F needs chain Γ)
include preserved here

theorem evalItems
    (typed : ∀ item ∈ items, item.expression.WellTyped o.env.decls Γ) (elements : ∀ e, .element e ∈ items → t.Accepts e.ty)
    (arrays : ∀ e, .spread e ∈ items → NativeType.ptr.Accepts e.ty) : Types o F needs (evalItems recurse chain items) fun found =>
      found.toList.flatMap fun items => items.map (ArrayItem.fact t) := by
  induction items generalizing needs with
  | nil => exact .pure (by simp)
  | cons item rest ih =>
    obtain ⟨t',fits,fact⟩ : ∃ t' : NativeType, t'.Accepts item.expression.ty ∧ ∀ r, (item.withExpression r).fact t = .register r t' := by
      cases item with
      | element e => exact ⟨t,elements e (.head _),fun _ => rfl⟩
      | spread e => exact ⟨.ptr,arrays e (.head _),fun _ => rfl⟩
    refine evalThen preserved here (typed _ (.head _)) fits (.pure (by simp)) fun v _ _ => ?_
    refine .bind (materialize (t := t') (by simp)) fun r => .bind (ih here.cons.more (fun i inside => typed i (.tail _ inside))
      (fun e inside => elements e (.tail _ inside)) fun e inside => arrays e (.tail _ inside)) fun found => ?_
    split
    · exact .pure (by simp)
    · exact .pure (by simp [fact])

theorem lowerArrayLiteral {elementType : Ty}
    (typed : ∀ item ∈ items, item.expression.WellTyped o.env.decls Γ)
    (elements : ∀ e, .element e ∈ items → elementType.storage.Accepts e.ty)
    (arrays : ∀ e, .spread e ∈ items → NativeType.ptr.Accepts e.ty) (stored : ty.StoredAs .ptr) :
    Types o F needs (lowerArrayLiteral recurse chain elementType items ty) fun v => [.result v ty] := by
  refine .bind (evalItems preserved here typed elements arrays) fun found => ?_
  split
  · exact noResult
  · refine .bind (int (t := .i32)) fun fixed => ?_
    refine .bind (measure (t := elementType.storage) (by simp) fun _ inside => by simp [mem_map.mp inside]) fun answer => ?_
    refine .bind (int (t := .i32)) fun elementSize => ?_
    refine .bind (callSupport .allocArray [.i32,.i32] .ptr rfl (by simp)) fun dest => ?_
    refine .bind (produced (t := .ptr) (by simp)) fun array => ?_
    refine .bind (int (t := .i32)) fun one => .bind (int (t := .i32)) fun start => ?_
    refine .bind (fillArray (t := elementType.storage) (by simp) (by simp) (by simp) fun _ inside => ?_) fun _ =>
      registerResult stored (by simp)
    simp [inside]

theorem evalAll {expressions : List Expr} (typed : ∀ e ∈ expressions, e.WellTyped o.env.decls Γ)
    (fits : Forall₂ (fun (t : NativeType) (e : Expr) => t.Accepts e.ty) ts expressions) :
    Types o F needs (evalAll recurse chain expressions) fun found => found.toList.map (TypeFact.registers · ts) := by
  induction fits generalizing needs with
  | nil =>
    refine answer fun _ _ f inside => ?_
    obtain rfl : f = .registers [] [] := by simpa using inside
    rfl
  | @cons t e ts rest first _ ih =>
    refine evalThen preserved here (typed e (.head _)) first (.pure (by simp)) fun v _ _ => ?_
    refine .bind (materialize (t := t) (by simp)) fun r => ?_
    refine .bind (ih here.cons.more fun e inside => typed e (.tail _ inside)) fun found => ?_
    split
    · exact .pure (by simp)
    · rename_i registers
      refine answer fun {p} _ facts f inside => ?_
      obtain rfl : f = .registers (r :: registers) (t :: ts) := by simpa using inside
      exact congrArg₂ cons (facts (.register r t) (by simp)) (facts (.registers registers ts) (by simp))

theorem evalArguments (typed : ∀ e ∈ arguments.filterMap id, e.WellTyped o.env.decls Γ)
    (fits : Forall₂ (fun (t : NativeType) (e : Expr) => t.Accepts e.ty) ts (arguments.filterMap id)) :
    Types o F needs (evalArguments recurse chain function arguments) fun found =>
      found.toList.map (TypeFact.registers · ts) := by
  refine .andThen .read fun _ => ?_
  dsimp only
  split
  · exact .throwBind
  · split
    · exact .throw
    · exact evalAll preserved here typed fits

theorem lowerDelegate {constructor : FunctionId} (declared : o.env.decls.functions.get? constructor = some function)
    (typed : ∀ e ∈ arguments.filterMap id, e.WellTyped o.env.decls Γ) (own : function.dispatchReceiver = some receiver)
    (self : Γ.receiver = some receiver.ty.storage) (alone : function.extensionReceiver = none)
    (supplies : Supplies (arguments.filterMap id) function.parameters) :
    Types o F needs (lowerDelegate recurse chain constructor arguments) fun v => [.result v .unit] := by
  refine .liftThen fun object found => ?_
  obtain ⟨stored,known⟩ := here.typed.receiver found
  split
  · exact .throw
  · rename_i v
    rw [self,map_some,some.injEq] at stored
    have given : .value v receiver.ty.storage ∈ needs := by
      rw [stored]
      exact here.facts (known v rfl)
    refine .readThen (.liftThen fun function' found => ?_)
    obtain rfl : function = function' := by simpa [getFunction,declared] using found
    refine .bind (materialize given) fun object => .bind (evalArguments preserved here.more typed supplies.fits) fun found => ?_
    split
    · exact noResult
    · rename_i args
      refine .bind (directTarget declared) fun target => ?_
      refine supplyFirst receiver.ty.storage (function.parameters.map fun p => p.ty.storage) object args (by simp) (by simp) ?_
      refine .bind (callAt function.nativeHeader.signature (by simp) ?_) fun _ => unitResult
      rw [params_of_receiver own,alone]
      exact (.head _)

theorem evaluateCall (typed : ∀ x ∈ e.supplied, x.WellTyped o.env.decls Γ)
    (fits : Forall₂ (fun (t : NativeType) (x : Expr) => t.Accepts x.ty) ts e.supplied)
    (apply : ∀ {needs' args}, .registers args ts ∈ needs' → Types o F needs' (applyCall chain function e args ty) fun v => [.result v ty]) :
    Types o F needs (evaluateCall recurse chain function e ty) fun v => [.result v ty] := by
  refine .bind (evalAll preserved here (fun x inside => typed x (mem_append_left _ inside))
    (forall₂_take_append _ _ _ fits)) fun found => ?_
  split
  · exact noResult
  · rename_i receivers
    refine .bind (evalArguments preserved here.more (fun x inside => typed x (mem_append_right _ inside))
      (forall₂_drop_append _ _ _ fits)) fun found => ?_
    split
    · exact noResult
    · rename_i args
      refine infer (f := .registers (receivers ++ args) ts) (fun {p} _ facts => ?_) (apply (by simp))
      have first := facts (.registers receivers _) (mem_append_right _ (.head _))
      have second := facts (.registers args _) (.head _)
      show (receivers ++ args).map p.typeOf = ts.map some
      rw [map_append,show receivers.map p.typeOf = _ from first,show args.map p.typeOf = _ from second,
        ← map_append,take_append_drop]

theorem lowerCall (declared : o.env.decls.functions.get? e.function = some function) (typed : ∀ x ∈ e.supplied, x.WellTyped o.env.decls Γ)
    (fits : e.Fits function ty) (folded : function.constantFactory.isSome = true → ty.StoredAs .ptr) :
    Types o F needs (lowerCall recurse chain e ty) fun v => [.result v ty] := by
  have evaluated : ∀ {needs'}, Around o F needs' chain Γ →
      Types o F needs' (Lower.evaluateCall recurse chain function e ty) fun v => [.result v ty] := by
    intro needs' around
    cases fits with
    | @operator i t intrinsic _ applies operands stored =>
      have same : Forall₂ (fun (t : NativeType) (x : Expr) => t.Accepts x.ty) (replicate e.supplied.length t)
          e.supplied := by
        rw [← map_const',forall₂_map_left_iff,forall₂_same]
        exact operands
      exact evaluateCall preserved around typed same fun supplied => applyOperator intrinsic applies stored supplied
    | construction plain constructs fresh own object supplied stored =>
      exact evaluateCall preserved around typed supplied.fits fun given =>
        applyConstructor (here.named declared ▸ declared) plain constructs fresh own object stored given
    | function plain bound object supplied same =>
      exact evaluateCall preserved around typed supplied.fits fun given => applyFunction declared plain bound object same given
  refine .readThen (.liftThen fun function' found => ?_)
  obtain rfl : function = function' := by simpa [getFunction,declared] using found
  cases factory : function.constantFactory with
  | some factory' =>
    refine .bind (foldFactory (folded (by simp [factory]))) fun found => ?_
    cases found with
    | some v => exact .pure (by simp)
    | none => exact evaluated here.more
  | none => exact evaluated here

end Types

end BlockLowering
