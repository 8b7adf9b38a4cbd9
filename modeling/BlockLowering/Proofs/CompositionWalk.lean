import BlockLowering.Pass.Program
import BlockLowering.Proofs.Composition
/-!
Every function of the pass is composed of the steps of lowering, if the function for the children is; so is
the lowering of whole bodies, which may return where the function does.
-/
namespace BlockLowering
open Lower List Value Literal Scope ScopeState
variable {kind : ScopeKind} {scope : Nat} {α : Type} {block check : BlockId} {lifetime : Lifetime} {returnsVoid : Bool} {intrinsic : Intrinsic}
  {factory : ConstantFactory} {statements : List (Statement Expr)} {handler : Continuation} {bindings : List (ParameterDecl × Register)}
  {pending : List (FieldId × Expr)}

theorem Ty.references_zero (ty : Ty) : ty.storage.zero.references = [] := by
  cases ty with
  | primitive kind => cases kind <;> rfl
  | _ => rfl

namespace Chain
variable {chain : Chain} {needs more : List Finding}

def Around (needs : List Finding) (chain : Chain) : Prop := chain.exits ⊆ needs

theorem Around.add (around : chain.Around needs) : chain.Around (more ++ needs) := subset_append_of_subset_right _ around

theorem Around.cons {f : Finding} (around : chain.Around needs) : chain.Around (f :: needs) := subset_cons_of_subset _ around

theorem Around.enter {number : Nat} (around : chain.Around needs)
    (own : Scope.exits ⟨number,kind⟩ ⊆ .opened number :: .guarding number :: needs) :
    Around (.opened number :: .guarding number :: needs) (⟨number,kind⟩ :: chain) := append_subset.mpr ⟨own,around.cons.cons⟩

def Owned (needs : List Finding) (chain : Chain) : Prop := ∀ id ∈ chain.variableOwner?, .opened id ∈ needs

theorem owned_opened {scope : Scope} (owns : variableOwner? (scope :: chain) = some scope.id) : Owned (.opened scope.id :: needs) (scope :: chain) := by
  intro id owner
  cases (owns.symm.trans owner)
  exact (.head _)

end Chain

namespace Composed
variable {needs : List Finding} {chain : Chain} {recurse : Recurse}
variable {ty target : Ty} {value : Value} {cls : ClassId} {e condition body finalizer : Expr} {args : List Register}
  {exception : Register} {location : Location} {var : VarId} {items : List (ArrayItem Expr)}
  {arguments : List (Option Expr)} {function : FunctionDecl} {merge : Option Continuation}
  {branches : List (Branch Expr)} {loop : LoopId} {field : FieldId} {receiver : Option Expr} {result : Continuation}
  {clauses : List (CatchClause Expr)}

theorem openThen {f : Bool → Lower α} {gives : α → List Finding} (each : ∀ stopped, Composed needs (f stopped) gives) :
    Composed needs (Lower.isTerminated >>= f) gives :=
  .andThen isTerminated each

theorem someThen {β : Type} {step : Lower (Option α)} {f : Option α → Lower β} {gives : β → List Finding}
    (first : Composed needs step noFacts) (nothing : Composed needs (f none) gives) (next : ∀ a, Composed needs (f (some a)) gives) :
    Composed needs (step >>= f) gives :=
  .andThen first fun result => by cases result with
    | none => exact nothing
    | some a => exact next a

/-! ### Steps without children -/

theorem globalAddress {global : GlobalId} (known : .has (.global global) ∈ needs) :
    Composed needs (Lower.build (Build.const (.global global))) noFacts :=
  const (by simpa [relies,references] using known)

theorem materialize : Composed needs (materialize value) noFacts := by
  unfold Lower.materialize
  split
  · exact done
  · exact .bind globalOf fun global => globalAddress (by simp)
  · exact breach

theorem descriptorAddress : Composed needs (Lower.descriptorAddress cls) noFacts :=
  .bind globalOf fun global => globalAddress (by simp)

theorem newContinuation {label : String} : Composed needs (newContinuation ty label) fun k => [.target k.block] := by
  refine .bind labelledBlock fun block => ?_
  split
  · exact .pure (by simp)
  · exact .andThen (.build (.phi (by simp))) fun _ => .pure (by simp)

theorem jump {target : Continuation} (known : .target target.block ∈ needs) : Composed needs (Lower.jump target value) noFacts := by
  refine .andThen isTerminated fun stopped => ?_
  split
  · exact done
  · refine .andThen insertionBlock fun source => ?_
    split
    · exact branch known
    · exact .andThen materialize fun incoming => .buildThen (branch known) fun _ => .build (.addIncoming known)

theorem enterBlock (known : .target block ∈ needs) : Composed needs (enterBlock block) noFacts := by
  refine .andThen (switchTo (.inr known)) fun _ => .look (fun scopes alike => ?_) fun s => ?_
  · simp only [alike.isTerminated,alike.block?_map block (f := fun k => !k.predecessors.isEmpty) fun _ => rfl]
  · dsimp only
    split
    · exact .andThen unreachable fun _ => done
    · exact done

theorem resumeAt {target : Continuation} (known : .target target.block ∈ needs) : Composed needs (resumeAt target) noFacts := by
  refine .andThen (enterBlock known) fun live => ?_
  split
  · exact done
  · exact done

theorem handlerOf (guards : .guarding scope ∈ needs) : Composed needs (handlerOf scope) fun k => [.target k.block] := by
  refine .recollect handler (fun handler state => { state with handler := some handler }) (fun absent => by rw [absent]) guards
    (fun absent => ⟨fun h => h,fun known => (by cases absent.symm.trans known),fun h => h⟩) (fun _ _ => rfl)
    (fun _ => remembered_handler (by simp)) (.inr fun _ _ => rfl) newContinuation (fun {state handler} there => ?_) fun handler => ?_
  · rw [there]
    exact .pure (by simp [mem_remembered.mpr (.inr ⟨_,rfl,.inl there⟩)])
  · exact .pure (by simp)

theorem callPlain {target : CallTarget} (known : target.relies ⊆ needs) : Composed needs (callPlain target args) noFacts :=
  call known

theorem extractException {record : Register} : Composed needs (extractException record) noFacts := by
  refine .bind supportTarget fun beginCatch => .andThen (callPlain (by simp)) fun _ => .andThen produced fun exception => ?_
  exact .bind supportTarget fun endCatch => .andThen (callPlain (by simp)) fun _ => done

theorem landingPadOf (free : .unguarded ∈ needs) (guards : .guarding scope ∈ needs) :
    Composed needs (landingPadOf scope) fun pad => [.reserved pad] := by
  refine .recollect ScopeState.landingPad (fun pad state => { state with landingPad := some pad }) (fun absent => by rw [absent]) guards
    (fun absent => ⟨fun known => (by cases absent.symm.trans known),fun h => h,fun h => h⟩) (fun _ _ => rfl)
    (fun _ => remembered_landingPad (by simp)) (.inl free) reserve (fun {state pad} there => ?_) fun pad => ?_
  · rw [there]
    exact .pure (by simp [mem_remembered,there])
  · refine .bind (handlerOf (by simp [guards])) fun handler => ?_
    refine .andThen (.atBlock (.inl (by simp)) ?_) fun _ => .andThen log fun _ => .pure (by simp)
    exact .andThen (landingPad (by simp [free])) fun _ => .andThen extractException fun _ => jump (by simp)

section
variable (around : chain.Around needs)
include around

theorem catcherThen {request : Request} {f : Option Nat → Lower α} {gives : α → List Finding}
    (nowhere : Composed needs (f none) gives) (caught : ∀ scope, .guarding scope ∈ needs → Composed needs (f (some scope)) gives) :
    Composed needs (liftM (chain.catcher request) >>= f) gives := by
  refine .bindKnown lift (fun run => (runs_lift.mp run).1) fun catcher found => ?_
  cases catcher with
  | none => exact nowhere
  | some scope => exact caught scope (around (Chain.guarding_of_catcher found))

theorem callThrough {target : CallTarget} (known : target.relies ⊆ needs) :
    Composed needs (Lower.call chain target args lifetime) noFacts := by
  have known : target.relies ⊆ .unguarded :: needs := subset_cons_of_subset _ known
  refine callAt (catcherThen around.cons (call known) fun scope guards => ?_)
  dsimp only
  split
  · refine .bind (landingPadOf (by simp) guards) fun _ => .bind reserve fun _ => ?_
    exact .andThen (invoke (fun _ inside => by simp [known inside]) (by simp) (by simp)) fun _ => .andThen (switchTo (by simp)) fun _ => done
  · exact call known

theorem callSupport {routine : SupportRoutine} : Composed needs (Lower.callSupport chain routine args) noFacts := by
  refine .bind supportTarget fun target => ?_
  split
  · exact callThrough around.add (by simp)
  · exact callPlain (by simp)

theorem throwException : Composed needs (throwException chain exception) noFacts := by
  refine catcherThen around ?_ fun scope guards => .bind (handlerOf guards) fun _ => jump (by simp)
  exact .bind supportTarget fun _ => .andThen (callPlain (by simp)) fun _ => unreachable

end

theorem returnFrom (known : .returning ∈ needs) : Composed needs (returnFrom returnsVoid value) noFacts := by
  unfold Lower.returnFrom
  split
  · exact ret known
  · exact .andThen materialize fun _ => ret known

theorem restart (known : .target check ∈ needs) : Composed needs (Lower.restart check) noFacts :=
  openThen fun stopped => by cases stopped with
    | true => exact done
    | false => exact branch known

theorem oneOf {type : NativeType} : Composed needs (Lower.build (Lower.oneOf type)) noFacts := by
  unfold Lower.oneOf
  split
  · exact plain rfl
  · exact plain rfl
  · exact int

theorem operand {index : Nat} : Composed needs (operand intrinsic args index) noFacts := by
  unfold Lower.operand
  split
  · exact done
  · exact breach

theorem lowerIntrinsic : Composed needs (Lower.lowerIntrinsic intrinsic args ty) noFacts := by
  refine .andThen operand fun left => .look (fun _ alike => by simp only [alike.registerType?]) fun s => ?_
  dsimp only
  split
  · exact .andThen operand fun _ => .andThen binary fun _ => done
  · exact .andThen operand fun _ => .andThen compare fun _ => done
  · exact .andThen unary fun _ => done
  · exact .andThen (.buildThen oneOf fun _ => binary) fun _ => done

section
variable (around : chain.Around needs)
include around

theorem lowerCast : Composed needs (lowerCast chain value target ty location) noFacts := by
  unfold Lower.lowerCast
  split
  · exact done
  · split
    · exact .throw
    · refine .andThen materialize fun object => ?_
      split
      · refine .bind labelledBlock fun check => .bind newContinuation fun passed => ?_
        refine .andThen (.buildThen null fun _ => .buildThen compare fun _ => .buildThen (condBranch (by simp)) fun _ => switchTo (by simp)) fun _ => ?_
        exact .andThen descriptorAddress fun _ => .andThen (callSupport around.add.add) fun _ => .andThen (jump (by simp)) fun _ =>
          .andThen (resumeAt (by simp)) fun _ => done
      · exact .andThen descriptorAddress fun _ => .andThen (callSupport around) fun _ => done

theorem instanceQuery {object : Register} : Composed needs (instanceQuery chain object target) noFacts := by
  unfold Lower.instanceQuery
  split
  · exact bool
  · exact .andThen descriptorAddress fun _ => .andThen (callSupport around) fun _ => produced
  · exact bool

theorem lowerInstanceTest : Composed needs (lowerInstanceTest chain value target) noFacts := by
  unfold Lower.lowerInstanceTest
  split
  · exact .andThen bool fun _ => done
  · refine .andThen materialize fun object => .bind newContinuation fun merge => .bind labelledBlock fun nullBlock =>
      .bind labelledBlock fun testBlock => ?_
    refine .andThen (.buildThen null fun _ => .buildThen compare fun _ => .buildThen (condBranch (by simp)) fun _ =>
      .buildThen (switchTo (by simp)) fun _ => bool) fun onNull => ?_
    exact .andThen (jump (by simp)) fun _ => .andThen (switchTo (by simp)) fun _ => .andThen (instanceQuery around.add.add.add) fun _ =>
      .andThen (jump (by simp)) fun _ => resumeAt (by simp)

theorem lowerNegatedTest : Composed needs (lowerNegatedTest chain value target) noFacts := by
  refine .andThen (lowerInstanceTest around) fun test => ?_
  split
  · exact done
  · exact .andThen materialize fun _ => .andThen unary fun _ => done

end

theorem lowerCoercion : Composed needs (lowerCoercion value target ty location) noFacts := by
  unfold Lower.lowerCoercion
  split
  · exact .throw
  · exact .throw
  · refine .andThen materialize fun register => ?_
    split
    · exact .andThen cast fun _ => done
    · exact done

theorem declareVariable {slot : Slot} (owned : chain.Owned needs) : Composed needs (declareVariable chain var slot) noFacts := by
  unfold Lower.declareVariable
  split
  · exact .throw
  · rename_i owner
    exact .andThen log fun _ => bindVariable (owned _ owner)

theorem readVariable : Composed needs (readVariable chain var location) noFacts := by
  refine .andThen slot? fun slot => ?_
  split
  · exact done
  · exact .andThen load fun _ => done
  · exact .throw

theorem declareStackSlot {initial : Option Value} (owned : chain.Owned needs) :
    Composed needs (Lower.declareStackSlot chain var ty initial) noFacts := by
  refine .andThen alloc fun ptr => ?_
  split
  · exact .andThen materialize fun _ => .andThen store fun _ => declareVariable owned
  · exact .andThen (plain ty.references_zero) fun _ => .andThen store fun _ => declareVariable owned

theorem lowerConstant {value : Constant} : Composed needs (lowerConstant value ty) noFacts :=
  .bind literalOf fun _ => .andThen (const (by simp)) fun _ => done

theorem lowerFunctionRef {function : FunctionId} : Composed needs (lowerFunctionRef function ty) noFacts :=
  .bind procedureOf fun _ => .andThen (const (by simp [relies,references])) fun _ => done

theorem measure {length : Register} {items : List (ArrayItem Register)} (around : chain.Around needs) :
    Composed needs (measure chain length items) noFacts := by
  induction items generalizing length with
  | nil => exact done
  | cons item rest ih =>
    cases item with
    | element value => exact .andThen ih fun _ => done
    | spread array =>
      exact .andThen (callSupport around) fun _ => .andThen produced fun _ => .andThen binary fun _ => .andThen ih fun _ => done

theorem fillArray {array one index : Register} {items : List SizedItem} (around : chain.Around needs) :
    Composed needs (fillArray chain array one index items) noFacts := by
  induction items generalizing index with
  | nil => exact done
  | cons item rest ih =>
    cases item with
    | element value =>
      exact .andThen (callSupport around) fun _ => .andThen produced fun _ => .andThen (.buildThen store fun _ => binary) fun _ => ih
    | spread source length =>
      exact .andThen int fun _ => .andThen (callSupport around) fun _ => .andThen binary fun _ => ih

/-- What literals are found to refer to, if all items are literals. -/
def literalsFound (literals : Option (List Literal)) : List Finding :=
  (literals.map fun literals => (allReferences literals).map Finding.has).getD []

theorem literalItems : Composed needs (literalItems items) literalsFound := by
  induction items generalizing needs with
  | nil => exact .pure (nil_subset _)
  | cons item rest ih =>
    unfold literalItems
    split
    · contradiction
    · rename_i same
      obtain ⟨rfl,rfl⟩ := List.cons.inj same
      refine .bind literalOf fun literal => .bind ih fun literals => .pure ?_
      cases literals with
      | none => exact nil_subset _
      | some literals =>
        simp only [literalsFound,Option.map_some,Option.getD_some,allReferences,map_append,relies]
        intro f inside
        simp only [mem_append] at inside ⊢
        rcases inside with own | others
        · exact .inr (.inl own)
        · exact .inl others
    · exact .pure (nil_subset _)

theorem placeFactory {elementType : NativeType} {literals : List Literal}
    (known : ∀ r ∈ allReferences literals, .has r ∈ needs) :
    Composed needs (placeFactory factory elementType literals) fun id => [.has (.data id)] := by
  refine .bind (placeArray known) fun array => ?_
  cases factory with
  | arrayOf => exact .pure (by simp)
  | listOf => exact placeAggregate (by simp [allReferences,references])

theorem foldFactory : Composed needs (foldFactory factory arguments ty) noFacts := by
  refine .ask (fun alike => by rw [alike.foldFactories]) fun _ => ?_
  split
  · split
    · refine .bind literalItems fun literals => ?_
      cases literals with
      | none => exact done
      | some literals =>
        refine .bind (placeFactory fun r inside => by simp [literalsFound,inside]) fun _ => .andThen log fun _ => ?_
        exact .andThen (const (by simp [relies,references])) fun _ => done
    · exact done
  · exact done

theorem allocateInstance (around : chain.Around needs) : Composed needs (allocateInstance chain cls) noFacts :=
  .andThen descriptorAddress fun _ => .andThen (callSupport around) fun _ => produced

theorem construct {constructor : FunctionDecl} (around : chain.Around needs) :
    Composed needs (construct chain constructor args lifetime ty) noFacts := by
  unfold Lower.construct
  split
  · exact .throw
  · exact .andThen (allocateInstance around) fun _ => .bind directTarget fun _ => .andThen (callThrough around.add (by simp)) fun _ => done

theorem receiverDescriptor : Composed needs (receiverDescriptor function args) noFacts := by
  unfold Lower.receiverDescriptor
  split
  · exact breach
  · exact .andThen lift fun _ => .ask (fun alike => by rw [alike.layout]) fun _ => .andThen lift fun _ =>
      .buildThen element fun _ => load

theorem indirectTarget {pointer : Register} : Composed needs (indirectTarget function pointer) CallTarget.relies :=
  .andThen cast fun _ => .pure (nil_subset _)

theorem tableTarget : Composed needs (tableTarget function args) CallTarget.relies :=
  .andThen receiverDescriptor fun _ => .andThen lift fun _ => .ask (fun alike => by rw [alike.layout]) fun _ =>
    .andThen lift fun _ => .andThen lift fun _ => .andThen (.buildThen element fun _ => load) fun _ => indirectTarget

theorem lookupTarget (around : chain.Around needs) : Composed needs (lookupTarget chain function args) CallTarget.relies :=
  .andThen receiverDescriptor fun _ => .andThen (plain rfl) fun _ => .andThen (callSupport around) fun _ => .andThen produced fun _ =>
    indirectTarget

theorem callTarget {e : Call Expr} (around : chain.Around needs) : Composed needs (callTarget chain function e args) CallTarget.relies := by
  refine .ask (fun alike => by rw [alike.decls]) fun _ => .andThen lift fun kind => ?_
  split
  · exact directTarget
  · exact tableTarget
  · exact lookupTarget around

theorem callResult {result : Option Register} : Composed needs (callResult function result ty) noFacts := by
  unfold Lower.callResult
  split
  · refine openThen fun stopped => ?_
    cases stopped with
    | true => exact done
    | false => exact .andThen unreachable fun _ => done
  · split
    · exact done
    · exact done

theorem applyCall {e : Call Expr} (around : chain.Around needs) : Composed needs (applyCall chain function e args ty) noFacts := by
  unfold Lower.applyCall
  split
  · exact lowerIntrinsic
  · split
    · exact construct around
    · exact .bind (callTarget around) fun _ => .andThen (callThrough around.add (by simp)) fun _ => callResult

theorem arrive (known : ∀ k ∈ merge, .target k.block ∈ needs) : Composed needs (arrive merge value) noFacts := by
  unfold Lower.arrive
  split
  · exact jump (known _ rfl)
  · exact done

theorem fallthrough {merge : Continuation} : Composed needs (fallthrough merge ty) noFacts := by
  unfold Lower.fallthrough
  split
  · exact .andThen (typedConst (by simp [relies,references])) fun _ => done
  · exact done

theorem withHandler {step : Chain → Lower Unit}
    (inner : ∀ number, Composed (.opened number :: .guarding number :: needs) (step (⟨number,kind⟩ :: chain)) noFacts) :
    Composed needs (withHandler kind chain step) fun handler => handler.toList.map fun k => .target k.block :=
  withScope fun number => .andThen (inner number) fun _ => .bind scopeState fun state => .pure fun f inside => by
    obtain ⟨k,there,rfl⟩ := List.mem_map.mp inside
    exact mem_append_left _ (mem_remembered.mpr (.inr ⟨k,rfl,.inl (Option.mem_toList.mp there)⟩))

theorem deliver {target : Continuation} (known : .target target.block ∈ needs) : Composed needs (deliver target value) noFacts := by
  unfold Lower.deliver
  split
  · exact done
  · exact jump known

theorem createSingleton {slot : Register} {merge : Continuation} (around : chain.Around needs) (known : .target merge.block ∈ needs) :
    Composed needs (Lower.createSingleton chain cls slot merge ty) noFacts := by
  refine .andThen (allocateInstance around) fun _ => .ask (fun alike => by rw [alike.decls]) fun _ => .andThen lift fun _ =>
    .bind directTarget fun _ => .andThen (callThrough around.add (by simp)) fun _ => openThen fun stopped => ?_
  cases stopped with
  | true => exact done
  | false => exact .andThen store fun _ => jump (by simp [known])

theorem lowerSingleton (around : chain.Around needs) : Composed needs (Lower.lowerSingleton chain cls ty) noFacts := by
  refine .bind globalOf fun _ => .andThen (globalAddress (by simp)) fun _ => .andThen load fun _ =>
    .ask (fun alike => by rw [alike.decls]) fun _ => .andThen lift fun decl => ?_
  split
  · exact done
  · refine .bind newContinuation fun merge => .bind labelledBlock fun create => .bind labelledBlock fun loaded => ?_
    refine .andThen (.buildThen null fun _ => .buildThen compare fun _ => .buildThen (condBranch (by simp)) fun _ => switchTo (by simp)) fun _ =>
      .andThen (jump (by simp)) fun _ => ?_
    exact .andThen (switchTo (by simp)) fun _ => .andThen (createSingleton around.add.add.add.add (by simp)) fun _ =>
      .andThen (resumeAt (by simp)) fun value => done

/-! ### Children -/

variable (composes : Composes recurse) (around : chain.Around needs)
include composes around

theorem eval : Composed needs (eval recurse chain e) noFacts := by
  refine .andThen (composes around) fun value => .andThen isTerminated fun stopped => ?_
  split
  · exact done
  · exact done

theorem evalThen {f : Option Value → Lower α} {gives : α → List Finding} (nothing : Composed needs (f none) gives)
    (next : ∀ value, Composed needs (f (some value)) gives) : Composed needs (Lower.eval recurse chain e >>= f) gives :=
  someThen (eval composes around) nothing next

/-! ### Exits -/

theorem leave {exit : Exit} : Composed needs (leave recurse chain exit value) noFacts := by
  induction chain generalizing needs value with
  | nil => exact .throw
  | cons scope outer ih =>
    obtain ⟨number,kind⟩ := scope
    obtain ⟨here,outside⟩ : exits ⟨number,kind⟩ ⊆ needs ∧ Chain.Around needs outer := append_subset.mp around
    obtain ⟨step,same,exits⟩ := exits_leave number kind outer exit value
    rw [show leave recurse _ exit value = step recurse from congrFun same recurse]
    cases exits with
    | finalizing =>
      refine .recollect (·.cleanups.get? exit) (fun cleanup state => { state with cleanups := state.cleanups.insert exit cleanup })
        (fun absent => by rw [absent]) (here (.head _)) (fun absent => ⟨fun h => h,fun h => h,fun {other k} known => ?_⟩) (fun _ _ => rfl)
        (fun _ => remembered_cleanup (by simp)) (.inr fun _ _ => rfl) newContinuation (fun {state cleanup} there => ?_) fun cleanup => ?_
      · rw [Table.get?_insert,if_neg,known]
        rintro rfl
        cases absent.symm.trans known
      · rw [there]
        exact jump (mem_append_left _ (mem_remembered.mpr (.inr ⟨cleanup,rfl,.inr ⟨_,there⟩⟩)))
      · have beyond : Chain.Around ([.target cleanup.block] ++ needs) outer := outside.add
        refine .andThen log fun _ => .andThen (jump (by simp)) fun _ => .atBlock (.inr (by simp)) ?_
        exact evalThen composes beyond done fun value => ih beyond
    | returning => exact returnFrom (here (by simp [exits]))
    | inlined => exact jump (here (by simp [exits]))
    | breaking => exact jump (here (by simp [exits]))
    | continuing => exact restart (here (by simp [exits]))
    | outwards => exact ih outside

theorem lowerReturn {target : FunctionId} {value : Expr} : Composed needs (Lower.lowerReturn recurse chain target value) noFacts := by
  exact evalThen composes around done fun value => .andThen (leave composes around) fun _ => done

theorem lowerBreak : Composed needs (lowerBreak recurse chain loop) noFacts :=
  .andThen (leave composes around) fun _ => done

theorem lowerContinue : Composed needs (lowerContinue recurse chain loop) noFacts :=
  .andThen (leave composes around) fun _ => done

/-! ### Operators -/

theorem lowerTypeOp {operator : TypeOperator} {operand : Expr} :
    Composed needs (lowerTypeOp recurse chain e operator operand target) noFacts := by
  unfold Lower.lowerTypeOp
  by_cases safe : operator = .safeCast
  · subst safe
    exact throwBind
  · dsimp only
    rw [if_neg safe]
    refine evalThen composes around done fun value => ?_
    dsimp only
    split
    · exact done
    · exact done
    · exact lowerCast around
    · exact lowerInstanceTest around
    · exact lowerNegatedTest around
    · exact lowerCoercion
    · exact .throw

/-! ### Variables and fields -/

theorem lowerWriteVar {value : Expr} : Composed needs (Lower.lowerWriteVar recurse chain var value location) noFacts := by
  refine evalThen composes around done fun value => .andThen slot? fun slot => ?_
  split
  · exact .andThen materialize fun _ => .andThen store fun _ => done
  · exact breach
  · exact .throw

theorem lowerDeclaration {isMutable : Bool} {initializer : Option Expr} (owned : chain.Owned needs) :
    Composed needs (lowerDeclaration recurse chain var ty isMutable initializer) noFacts := by
  unfold Lower.lowerDeclaration
  split
  · exact declareStackSlot owned
  · refine evalThen composes around done fun value => ?_
    dsimp only
    split
    · exact declareStackSlot owned
    · exact declareVariable owned

theorem fieldReceiver : Composed needs (fieldReceiver recurse chain field receiver) noFacts := by
  unfold Lower.fieldReceiver
  split
  · exact evalThen composes around done fun value => .andThen materialize fun _ => done
  · refine .andThen lift fun receiver => ?_
    split
    · exact breach
    · exact .andThen materialize fun _ => done

theorem fieldAddress : Composed needs (fieldAddress recurse chain field receiver) noFacts := by
  refine .ask (fun alike => by rw [alike.decls]) fun env => .andThen lift fun field => ?_
  split
  · exact .bind globalOf fun _ => .andThen (globalAddress (by simp)) fun _ => done
  · refine someThen (fieldReceiver composes around) done fun object => ?_
    dsimp only
    split
    · exact .throw
    · exact .ask (fun alike => by rw [alike.layout]) fun env => .andThen lift fun _ => .andThen lift fun _ => .andThen element fun _ => done

theorem lowerReadField : Composed needs (lowerReadField recurse chain field receiver ty) noFacts :=
  someThen (fieldAddress composes around) done fun _ => .ask (fun alike => by rw [alike.decls]) fun _ => .andThen lift fun _ => .andThen load fun _ => done

theorem lowerWriteField {value : Expr} : Composed needs (lowerWriteField recurse chain field receiver value) noFacts :=
  someThen (fieldAddress composes around) done fun _ => evalThen composes around done fun _ =>
    .andThen materialize fun _ => .andThen store fun _ => done

/-! ### Array literals -/

theorem evalItems : Composed needs (Lower.evalItems recurse chain items) noFacts := by
  induction items generalizing needs with
  | nil => exact done
  | cons item rest ih =>
    exact evalThen composes around done fun value => .andThen materialize fun _ =>
      someThen (ih around) done fun _ => done

theorem lowerArrayLiteral {elementType : Ty} : Composed needs (lowerArrayLiteral recurse chain elementType items ty) noFacts := by
  refine someThen (evalItems composes around) done fun registers => ?_
  exact .andThen int fun _ => .andThen (measure around) fun _ => .andThen int fun _ => .andThen (callSupport around) fun _ =>
    .andThen produced fun _ => .andThen int fun _ => .andThen int fun _ => .andThen (fillArray around) fun _ => done

/-! ### Calls -/

theorem evalAll {expressions : List Expr} : Composed needs (Lower.evalAll recurse chain expressions) noFacts := by
  induction expressions generalizing needs with
  | nil => exact done
  | cons e rest ih =>
    exact evalThen composes around done fun value => .andThen materialize fun _ =>
      someThen (ih around) done fun _ => done

theorem evalArguments : Composed needs (evalArguments recurse chain function arguments) noFacts := by
  refine .ask (fun alike => by rw [alike.decls]) fun _ => ?_
  dsimp only
  split
  · exact throwBind
  · split
    · exact .throw
    · exact evalAll composes around

theorem lowerDelegate {constructor : FunctionId} :
    Composed needs (Lower.lowerDelegate recurse chain constructor arguments) noFacts := by
  refine .andThen lift fun receiver => ?_
  split
  · exact .throw
  · refine .ask (fun alike => by rw [alike.decls]) fun _ => .andThen lift fun function =>
      .andThen materialize fun object => someThen (evalArguments composes around) done fun args => ?_
    exact .bind directTarget fun _ => .andThen (callThrough around.add (by simp)) fun _ => done

theorem evaluateCall {e : Call Expr} : Composed needs (evaluateCall recurse chain function e ty) noFacts :=
  someThen (evalAll composes around) done fun _ => someThen (evalArguments composes around) done fun _ => applyCall around

theorem lowerCall {e : Call Expr} : Composed needs (lowerCall recurse chain e ty) noFacts := by
  refine .ask (fun alike => by rw [alike.decls]) fun _ => .andThen lift fun function => ?_
  split
  · exact someThen foldFactory (evaluateCall composes around) fun _ => done
  · exact evaluateCall composes around

/-! ### Conditionals, loops and sequences -/

theorem lowerBranches (known : ∀ k ∈ merge, .target k.block ∈ needs) :
    Composed needs (Lower.lowerBranches recurse chain merge branches) noFacts := by
  induction branches generalizing needs with
  | nil => exact .done
  | cons branch rest ih =>
    unfold Lower.lowerBranches
    split
    · exact .andThen (composes around) fun _ => arrive known
    · refine evalThen composes around done fun _ => .andThen materialize fun condition => ?_
      refine .bind labelledBlock fun taken => .bind labelledBlock fun next => ?_
      refine .andThen (.buildThen (condBranch (by simp)) fun _ => switchTo (by simp)) fun _ => ?_
      refine .andThen (composes around.add.add) fun _ => .andThen (arrive fun k inside => by simp [known k inside]) fun _ =>
        .andThen (switchTo (by simp)) fun _ => ?_
      exact ih around.add.add fun k inside => by simp [known k inside]

theorem lowerChoice : Composed needs (lowerChoice recurse chain branches ty) noFacts := by
  unfold Lower.lowerChoice
  split
  · refine .andThen (lowerBranches composes around (by simp)) fun _ => openThen fun stopped => ?_
    cases stopped with
    | true => exact done
    | false => exact .andThen unreachable fun _ => done
  · refine .bind newContinuation fun merge => .andThen (lowerBranches composes around.add (by simp)) fun _ => .andThen isTerminated fun stopped => ?_
    split
    · exact .andThen fallthrough fun _ => .andThen (jump (by simp)) fun _ => resumeAt (by simp)
    · exact resumeAt (by simp)

theorem testLoop {body : BlockId} {exit : Continuation} (known : [.target body,.target exit.block] ⊆ needs) :
    Composed needs (Lower.testLoop recurse chain condition body exit) noFacts := by
  exact evalThen composes around done fun value => .andThen materialize fun _ => .andThen (condBranch known) fun _ => done

theorem lowerLoopBody (inside : .target block ∈ needs) (known : .target check ∈ needs) :
    Composed needs (Lower.lowerLoopBody recurse chain body block check) noFacts := by
  exact .andThen (switchTo (.inr inside)) fun _ => evalThen composes around done fun value => branch known

theorem lowerWhile : Composed needs (lowerWhile recurse chain loop condition body) noFacts := by
  refine .bind labelledBlock fun check => .bind labelledBlock fun block => .bind newContinuation fun exit => ?_
  refine .andThen (branch (by simp)) fun _ => .andThen (withScope fun number => ?_) fun _ => resumeAt (by simp)
  refine .andThen (switchTo (by simp)) fun _ => .andThen (testLoop composes (around.add.add.add.enter (by simp [Scope.exits])) (by simp)) fun reached => ?_
  split
  · exact lowerLoopBody composes (around.add.add.add.enter (by simp [Scope.exits])) (by simp) (by simp)
  · exact done

theorem lowerRepeat : Composed needs (lowerRepeat recurse chain loop body condition) noFacts := by
  refine .bind labelledBlock fun block => .bind labelledBlock fun check => .bind newContinuation fun exit => ?_
  refine .andThen (branch (by simp)) fun _ => .andThen (withScope fun number => ?_) fun _ => resumeAt (by simp)
  refine .andThen (lowerLoopBody composes (around.add.add.add.enter (by simp [Scope.exits])) (by simp) (by simp)) fun _ => .andThen (enterBlock (by simp)) fun live => ?_
  split
  · exact .andThen (testLoop composes (around.add.add.add.enter (by simp [Scope.exits])) (by simp)) fun _ => done
  · exact done

theorem lowerStatement {statement : Statement Expr} (owned : chain.Owned needs) :
    Composed needs (lowerStatement recurse chain statement) noFacts := by
  cases statement with
  | expression e => exact composes around
  | «variable» var name ty isMutable initializer => exact .andThen (lowerDeclaration composes around owned) fun _ => done

theorem lowerStatements {last : Value} (owned : chain.Owned needs) :
    Composed needs (Lower.lowerStatements recurse chain ty last statements) noFacts := by
  induction statements generalizing last with
  | nil =>
    refine openThen fun stopped => ?_
    repeat' split
    all_goals exact done
  | cons statement rest ih =>
    refine openThen fun stopped => ?_
    cases stopped with
    | true => exact done
    | false => exact .andThen (lowerStatement composes around owned) fun _ => ih

theorem lowerSequence : Composed needs (lowerSequence recurse chain statements ty) noFacts :=
  withScope fun _ => lowerStatements composes (around.enter (nil_subset _)) (Chain.owned_opened rfl)

theorem lowerInlined {function : FunctionId} : Composed needs (lowerInlined recurse chain function body ty) noFacts := by
  refine .bind newContinuation fun exit => .andThen (withScope fun number => ?_) fun _ => resumeAt (by simp)
  exact evalThen composes (around.add.enter (by simp [Scope.exits])) done fun value => jump (by simp)

/-! ### Guarded expressions -/

theorem lowerClauseBody {clause : CatchClause Expr} (known : .target result.block ∈ needs) :
    Composed needs (lowerClauseBody recurse chain clause exception result) noFacts := by
  exact withScope fun _ => .andThen (declareVariable (Chain.owned_opened rfl)) fun _ =>
    .andThen (composes (around.enter (nil_subset _))) fun _ => deliver (by simp [known])

theorem lowerClauses (known : .target result.block ∈ needs) :
    Composed needs (lowerClauses recurse chain exception result clauses) noFacts := by
  induction clauses generalizing needs with
  | nil => exact throwException around
  | cons clause rest ih =>
    unfold lowerClauses
    split
    · exact lowerClauseBody composes around known
    · split
      · exact .throw
      · refine .andThen descriptorAddress fun _ => .andThen (callSupport around) fun _ => .andThen produced fun test =>
          .bind labelledBlock fun taken => .bind labelledBlock fun next => ?_
        refine .andThen (.buildThen (condBranch (by simp)) fun _ => switchTo (by simp)) fun _ => ?_
        exact .andThen (lowerClauseBody composes around.add.add (by simp [known])) fun _ =>
          .andThen (switchTo (by simp)) fun _ => ih around.add.add (by simp [known])

theorem lowerHandler (caught : .target handler.block ∈ needs) (known : .target result.block ∈ needs) :
    Composed needs (lowerHandler recurse chain clauses result handler) noFacts := by
  refine .andThen (enterBlock caught) fun live => ?_
  split
  · exact .andThen materialize fun _ => lowerClauses composes around known
  · exact done

theorem lowerCatching : Composed needs (lowerCatching recurse chain body clauses ty) noFacts := by
  unfold Lower.lowerCatching
  split
  · exact .andThen (composes around) fun value => done
  · refine .bind newContinuation fun result => ?_
    refine .bind (withHandler fun _ => .andThen (composes (around.add.enter (by simp [Scope.exits]))) fun _ => deliver (by simp)) fun handler => ?_
    split
    · exact resumeAt (by simp)
    · exact .andThen (lowerHandler composes around.add.add (by simp) (by simp)) fun _ => resumeAt (by simp)

theorem lowerRethrow (caught : .target handler.block ∈ needs) :
    Composed needs (Lower.lowerRethrow recurse chain finalizer handler) noFacts := by
  refine .andThen log fun _ => .atBlock (.inr caught) (.andThen materialize fun exception => ?_)
  exact evalThen composes around done fun value => throwException around

theorem runFinalizer {normal : Continuation} (known : .target normal.block ∈ needs) : Composed needs (do
      let value ← Lower.resumeAt normal
      if value.isUnreachable then return value
      match ← Lower.eval recurse chain finalizer with
      | some _ => return value
      | none => return .unreachable ty) noFacts := by
  refine .andThen (resumeAt known) fun value => ?_
  split
  · exact done
  · exact evalThen composes around done fun _ => done

theorem lowerFinalized : Composed needs (Lower.lowerFinalized recurse chain body clauses finalizer ty) noFacts := by
  refine .bind newContinuation fun normal => ?_
  refine .bind (withHandler fun _ => .andThen (lowerCatching composes (around.add.enter (by simp [Scope.exits]))) fun _ =>
    deliver (by simp)) fun handler => ?_
  split
  · exact .andThen (lowerRethrow composes around.add.add (by simp)) fun _ => runFinalizer composes around.add.add (by simp)
  · exact runFinalizer composes around.add.add (by simp)

theorem lowerGuarded {finalizer : Option Expr} :
    Composed needs (lowerGuarded recurse chain body clauses finalizer ty) noFacts := by
  unfold Lower.lowerGuarded
  split
  · exact lowerCatching composes around
  · exact lowerFinalized composes around

theorem lowerRaise {exception : Expr} : Composed needs (Lower.lowerRaise recurse chain exception) noFacts := by
  exact evalThen composes around done fun value => .andThen materialize fun _ => .andThen (throwException around) fun _ => done

/-! ### Expressions -/

theorem stepNode : Composed needs (stepNode recurse chain e) noFacts := by
  unfold Lower.stepNode
  cases e.node with
  | call call => exact lowerCall composes around
  | delegate constructor arguments => exact lowerDelegate composes around
  | readVar var => exact readVariable
  | writeVar var value => exact lowerWriteVar composes around
  | readField field receiver => exact lowerReadField composes around
  | writeField field receiver value => exact lowerWriteField composes around
  | constant value => exact lowerConstant
  | returnFrom target value => exact lowerReturn composes around
  | choice branches => exact lowerChoice composes around
  | raise exception => exact lowerRaise composes around
  | guarded body clauses finalizer => exact lowerGuarded composes around
  | inlined function body => exact lowerInlined composes around
  | sequence statements => exact lowerSequence composes around
  | whileLoop loop condition body => exact lowerWhile composes around
  | repeatLoop loop body condition => exact lowerRepeat composes around
  | arrayLiteral elementType items => exact lowerArrayLiteral composes around
  | breakFrom loop => exact lowerBreak composes around
  | continueWith loop => exact lowerContinue composes around
  | singleton cls => exact lowerSingleton around
  | functionRef function => exact lowerFunctionRef
  | typeOp operator operand target => exact lowerTypeOp composes around

end Composed

theorem composes_lowerWithin (depth : Nat) : Composes (lowerWithin depth) := by
  induction depth with
  | zero => exact fun _ => .breach
  | succ depth ih =>
    intro needs chain e around
    refine .openThen fun stopped => ?_
    cases stopped with
    | true => exact .done
    | false => exact .andThen .log fun _ => .stepNode ih around

theorem composes_lowerExpr : Composes lowerExpr := fun {_ _ _} around => composes_lowerWithin _ around

/-! ### Bodies -/

namespace Composed
variable {needs : List Finding} {chain : Chain}

theorem bindParameters (owned : chain.Owned needs) :
    Composed needs (bindParameters chain bindings) noFacts := by
  induction bindings with
  | nil => exact done
  | cons binding rest ih => exact .andThen (declareVariable owned) fun _ => ih

theorem closeFunction (known : .returning ∈ needs) : Composed needs (closeFunction returnsVoid) noFacts := by
  refine openThen fun stopped => ?_
  cases stopped with
  | true => exact done
  | false =>
    cases returnsVoid with
    | true => exact ret known
    | false => exact unreachable

theorem body {function : Option FunctionId} {receiver : Option Value} {e : Expr}
    {returnsVoid' : Bool} : Composed [.returning] (Lower.withScope (.function function returnsVoid' receiver) [] fun chain => do
      Lower.bindParameters chain bindings
      let _ ← lowerExpr chain e
      Lower.closeFunction returnsVoid) noFacts :=
  withScope fun _ => .andThen (bindParameters (Chain.owned_opened rfl)) fun _ =>
    .andThen (composes_lowerExpr (by cases function <;> simp [Chain.exits,Scope.exits])) fun _ => closeFunction (by simp)

theorem lowerInitializers (around : chain.Around needs) (known : .returning ∈ needs) :
    Composed needs (Lower.lowerInitializers chain pending) noFacts := by
  induction pending generalizing needs with
  | nil => exact ret known
  | cons entry rest ih =>
    refine evalThen composes_lowerExpr around done fun value => .andThen materialize fun _ => ?_
    refine .bind globalOf fun _ => ?_
    exact .andThen (.buildThen (globalAddress (by simp)) fun _ => store) fun _ => ih around.add (by simp [known])

theorem initializers :
    Composed [.returning] (Lower.withScope (.function none true none) [] fun chain => Lower.lowerInitializers chain pending) noFacts :=
  withScope fun _ => lowerInitializers (nil_subset _) (by simp)

theorem linkNode {node : GlobalId} : Composed [.returning,.has (.global node)] (linkNode node) noFacts := by
  refine .andThen (globalAddress (by simp)) fun _ => .bind supportTarget fun target => ?_
  exact .andThen (callPlain (by simp)) fun _ => ret (by simp)

end Composed

end BlockLowering
