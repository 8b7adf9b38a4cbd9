import BlockLowering.Pass.Step
import BlockLowering.Proofs.Actions
import BlockLowering.Proofs.Discipline
import BlockLowering.Proofs.Naming
/-!
What the lowering of code is composed of. It reads the declarations, looks at the scopes and at the
function at the cursor, enters symbols, and appends code that refers only to what it has entered, at blocks
that it has made or was given. Being composed of such steps is a property of the text of the pass: what
follows from it for its runs is proved once for each kind of step.
-/
namespace BlockLowering
open List Lower Build BlockLowering.Action Procedure Literal Option
variable {f : Finding} {needs : List Finding} {e : Error} {label : String} {instr : Register → Instr} {left right : Register} {site : CallSite}

/-- The blocks that a scope remembers. Only invokes lead to its landing pad. -/
def ScopeState.remembered (state : ScopeState) : List Finding :=
  state.landingPad.toList.map .reserved ++ (state.handler.toList ++ state.cleanups.values).map fun k => .target k.block

theorem ScopeState.mem_remembered {state : ScopeState} : f ∈ state.remembered ↔
    (∃ pad, f = .reserved pad ∧ state.landingPad = some pad) ∨
      ∃ k, f = .target k.block ∧ (state.handler = some k ∨ ∃ exit, state.cleanups.get? exit = some k) := by
  simp only [remembered,List.mem_map,mem_append,mem_toList,Table.mem_values_iff,and_comm,@eq_comm _ f]

theorem ScopeState.remembered_landingPad {pad : BlockId} (known : .reserved pad ∈ needs) (state : ScopeState) :
    ({ state with landingPad := some pad } : ScopeState).remembered ⊆ needs ++ state.remembered := by
  intro f inside
  rcases mem_remembered.mp inside with ⟨_,rfl,there⟩ | target
  · cases there
    exact mem_append_left _ known
  · exact mem_append_right _ (mem_remembered.mpr (.inr target))

theorem ScopeState.remembered_handler {handler : Continuation} (known : .target handler.block ∈ needs)
    (state : ScopeState) : ({ state with handler := some handler } : ScopeState).remembered ⊆ needs ++ state.remembered := by
  intro f inside
  rcases mem_remembered.mp inside with pad | ⟨k,rfl,there | cleanup⟩
  · exact mem_append_right _ (mem_remembered.mpr (.inl pad))
  · cases there
    exact mem_append_left _ known
  · exact mem_append_right _ (mem_remembered.mpr (.inr ⟨k,rfl,.inr cleanup⟩))

theorem ScopeState.remembered_cleanup {cleanup : Continuation} {exit : Exit} (known : .target cleanup.block ∈ needs)
    (state : ScopeState) :
    ({ state with cleanups := state.cleanups.insert exit cleanup } : ScopeState).remembered ⊆ needs ++ state.remembered := by
  intro f inside
  rcases mem_remembered.mp inside with pad | ⟨k,rfl,handler | ⟨exit',entered⟩⟩
  · exact mem_append_right _ (mem_remembered.mpr (.inl pad))
  · exact mem_append_right _ (mem_remembered.mpr (.inr ⟨k,rfl,.inl handler⟩))
  · refine Table.of_insert entered (mem_append_left _ known) fun old => ?_
    exact mem_append_right _ (mem_remembered.mpr (.inr ⟨k,rfl,.inr ⟨exit',old⟩⟩))

/-- What a scope remembers it keeps. -/
structure ScopeState.Recalls (before after : ScopeState) : Prop where
  landingPad : ∀ {pad}, before.landingPad = some pad → after.landingPad = some pad
  handler : ∀ {k}, before.handler = some k → after.handler = some k
  cleanups : ∀ {exit k}, before.cleanups.get? exit = some k → after.cleanups.get? exit = some k

/-! ### What steps look at -/

/-- Environments that show the lowering of code the same. -/
structure Environment.Alike (env env' : Environment) : Prop where
  decls : env.decls = env'.decls
  layout : env.layout = env'.layout
  foldFactories : env.settings.foldFactories = env'.settings.foldFactories

/-- Builders that stand at the same point of one function, but for labels. -/
structure Builder.Alike (b b' : Builder) : Prop where
  cursor : b.cursor = b'.cursor
  procedure : b.procedure?.map unlabelled = b'.procedure?.map unlabelled

/-- A step of construction that counts on some findings, and what it finds. Only unguarded code has landing pads and invokes, and
    other code draws edges only to blocks to which that is known to be allowed. -/
inductive Constructs (needs : List Finding) : {α : Type} → Build α → (α → List Finding) → Prop
  | allocRegister {type : NativeType} : Constructs needs (allocRegister type) noFacts
  | append {i : Instr} (known : i.relies ⊆ needs) (plain : .unguarded ∈ needs ∨ ∀ record, i ≠ .landingPad record) :
    Constructs needs (append i) noFacts
  | alloc {type : NativeType} : Constructs needs (alloc type) noFacts
  | labelledBlock {label : String} : Constructs needs (labelledBlock label) fun block => [.target block,.reserved block]
  | phi {block : BlockId} {type : NativeType} (known : .target block ∈ needs) : Constructs needs (phi block type) noFacts
  | addIncoming {block source : BlockId} {dest value : Register} (known : .target block ∈ needs) :
    Constructs needs (addIncoming block dest source value) noFacts
  | terminate {t : Terminator} (known : t.relies ⊆ needs)
    (plain : .unguarded ∈ needs ∨ t.isInvoke = false) : Constructs needs (terminate t) noFacts

theorem Constructs.acts {α : Type} {m : Build α} {gives : α → List Finding} (constructs : Constructs needs m gives) :
    ∃ action, m.Acts action ∧ action.Proper needs gives := by
  cases constructs with
  | allocRegister => exact ⟨_,acts_allocRegister _,proper_allocRegister _⟩
  | append known => exact ⟨_,acts_append _,proper_append known⟩
  | alloc => exact ⟨_,acts_alloc _,proper_alloc _⟩
  | labelledBlock => exact ⟨_,acts_labelledBlock _,proper_labelledBlock _⟩
  | phi => exact ⟨_,acts_phi _ _,proper_phi _ _⟩
  | addIncoming => exact ⟨_,acts_addIncoming _ _ _ _,proper_addIncoming _ _ _ _⟩
  | terminate known => exact ⟨_,acts_terminate _,proper_terminate known⟩

/-- The lowering of code that counts on some findings, as a composition of steps each of which counts on
    what is found before it and adds what it finds. -/
inductive Composed : {α : Type} → List Finding → Lower α → (α → List Finding) → Prop
  | pure {α : Type} {needs : List Finding} {a : α} {gives : α → List Finding} (old : gives a ⊆ needs) :
    Composed needs (Pure.pure a) gives
  | bindKnown {α β : Type} {needs : List Finding} {step : Lower α} {f : α → Lower β} {gives : α → List Finding}
    {gives' : β → List Finding} {P : α → Prop} (first : Composed needs step gives)
    (sure : ∀ {env s a s'}, Lower.Runs step env s a s' → P a)
    (second : ∀ a, P a → Composed (gives a ++ needs) (f a) gives') : Composed needs (step >>= f) gives'
  | mono {α : Type} {needs needs' : List Finding} {step : Lower α} {gives gives' : α → List Finding}
    (composed : Composed needs step gives) (more : needs ⊆ needs') (fewer : ∀ a, gives' a ⊆ gives a ++ needs') :
    Composed needs' step gives'
  | throw {α : Type} {needs : List Finding} {e : Error} {gives : α → List Finding} :
    Composed needs (throwThe Error e : Lower α) gives
  | lift {α : Type} {needs : List Finding} {x : Except Error α} : Composed needs (liftM x : Lower α) noFacts
  /-- Settings that concern finished functions are not read. -/
  | ask {α : Type} {needs : List Finding} {f : Environment → Lower α} {gives : α → List Finding}
    (same : ∀ {env env'}, env.Alike env' → f env = f env') (each : ∀ env, Composed needs (f env) gives) :
    Composed needs (MonadReader.read >>= f) gives
  /-- Of the state only the scopes and the function at the cursor are looked at, and no labels. -/
  | look {α : Type} {needs : List Finding} {f : State → Lower α} {gives : α → List Finding}
    (same : ∀ {s s'}, s.scopes = s'.scopes → s.builder.Alike s'.builder → f s = f s')
    (each : ∀ s, Composed needs (f s) gives) : Composed needs (MonadState.get >>= f) gives
  | inspect {α : Type} {needs : List Finding} {f : Builder → Build α} {gives : α → List Finding}
    (same : ∀ {b b'}, b.Alike b' → f b = f b') (each : ∀ b, Composed needs (build (f b)) gives) :
    Composed needs (build (MonadState.get >>= f)) gives
  | isTerminated {needs : List Finding} : Composed needs isTerminated noFacts
  | log {needs : List Finding} {event : Event} : Composed needs (log event) noFacts
  | scopeState {needs : List Finding} {id : Nat} : Composed needs (scopeState id) ScopeState.remembered
  /-- Variables are bound in a scope that has been opened. -/
  | bindVariable {needs : List Finding} {id : Nat} {var : VarId} {slot : Slot} (own : .opened id ∈ needs) :
    Composed needs (modifyScope id fun scope => { scope with slots := scope.slots.insert var slot }) noFacts
  /-- What a scope around does not remember yet is made, away from the scopes, and remembered. Edges may be drawn to it. -/
  | recollect {α β : Type} {needs : List Finding} {id : Nat} {step : ScopeState → Lower α} {make : Lower β} {next : β → Lower α}
    {made : β → List Finding} {gives : α → List Finding} (has : ScopeState → Option β) (put : β → ScopeState → ScopeState)
    (absent : ∀ {state}, has state = none → step state = make >>= fun k => modifyScope id (put k) >>= fun _ => next k)
    (around : .guarding id ∈ needs) (recalls : ∀ {k state}, has state = none → state.Recalls (put k state)) (bound : ∀ k state, (put k state).slots = state.slots)
    (remembers : ∀ k state, (put k state).remembered ⊆ made k ++ state.remembered)
    (lands : .unguarded ∈ needs ∨ ∀ k state, (put k state).landingPad = state.landingPad) (making : Composed [] make made)
    (old : ∀ {state k}, has state = some k → Composed (state.remembered ++ needs) (step state) gives)
    (new : ∀ k, Composed (made k ++ needs) (next k) gives) : Composed needs (scopeState id >>= step) gives
  | slot? {needs : List Finding} {chain : Chain} {var : VarId} : Composed needs (slot? chain var) noFacts
  | withScope {α : Type} {needs : List Finding} {kind : ScopeKind} {chain : Chain} {step : Chain → Lower α}
    {gives : α → List Finding}
    (inner : ∀ number, Composed (.opened number :: .guarding number :: needs) (step (⟨number,kind⟩ :: chain)) gives) :
    Composed needs (withScope kind chain step) gives
  | atBlock {α : Type} {needs : List Finding} {block : BlockId} {step : Lower α} {gives : α → List Finding}
    (known : .reserved block ∈ needs ∨ .target block ∈ needs) (inner : Composed needs step gives) : Composed needs (atBlock block step) gives
  | build {α : Type} {needs : List Finding} {m : Build α} {gives : α → List Finding} (constructs : Constructs needs m gives) :
    Composed needs (build m) gives
  /-- A call may invoke its target and fill a landing pad. -/
  | callAt {needs : List Finding} {chain : Chain} {target : CallTarget} {args : List Register} {lifetime : Lifetime}
    (parts : Composed (.unguarded :: needs) (call chain target args lifetime) noFacts) :
    Composed needs (call chain target args lifetime) noFacts
  | insertionBlock {needs : List Finding} : Composed needs (build insertionBlock) noFacts
  | switchTo {needs : List Finding} {block : BlockId} (known : .reserved block ∈ needs ∨ .target block ∈ needs) :
    Composed needs (build (switchTo block)) noFacts
  | procedureOf {needs : List Finding} {id : FunctionId} : Composed needs (procedureOf id) fun proc => [.has (.proc proc)]
  | directTarget {needs : List Finding} {id : FunctionId} : Composed needs (directTarget id) CallTarget.relies
  | supportTarget {needs : List Finding} {routine : SupportRoutine} :
    Composed needs (supportTarget routine) CallTarget.relies
  | globalOf {needs : List Finding} {role : GlobalRole} :
    Composed needs (globalOf role) fun global => [.has (.global global)]
  | literalOf {needs : List Finding} {constant : Constant} : Composed needs (literalOf constant) relies
  | placeArray {needs : List Finding} {type : NativeType} {literals : List Literal}
    (known : ∀ r ∈ allReferences literals, .has r ∈ needs) :
    Composed needs (onModule fun m => m.placeArray type literals) fun id => [.has (.data id)]
  | placeAggregate {needs : List Finding} {parts : List Literal} (known : ∀ r ∈ allReferences parts, .has r ∈ needs) :
    Composed needs (onModule fun m => m.placeAggregate parts) fun id => [.has (.data id)]

def Scope.exits : Scope → List Finding
  | ⟨_,.loop _ exit check⟩ => [.target exit.block,.target check]
  | ⟨_,.inlined _ exit⟩ => [.target exit.block]
  | ⟨id,.catching⟩ => [.guarding id]
  | ⟨id,.finalizing _⟩ => [.guarding id]
  | ⟨_,.function id _ _⟩ => id.toList.map fun _ => .returning
  | ⟨_,.variables⟩ => []

def Chain.exits (chain : Chain) : List Finding := chain.flatMap Scope.exits

theorem Chain.guarding_of_catcher {request : Request} {chain : Chain} {id : Nat} (found : chain.catcher request = .ok (some id)) :
    .guarding id ∈ chain.exits := by
  induction chain with
  | nil => cases found
  | cons scope outer ih =>
    obtain ⟨number,kind⟩ := scope
    cases kind with
    | function => cases found
    | catching | finalizing =>
      cases (Except.ok.inj found)
      simp [exits,Scope.exits]
    | «variables» | loop | inlined => exact mem_append_right _ (ih found)

/-- A pass over the children is composed of the steps of lowering where the scopes around can be left. -/
def Composes (recurse : Recurse) : Prop := ∀ {needs chain e}, Chain.exits chain ⊆ needs → Composed needs (recurse chain e) noFacts

/-! ### Sequences -/

namespace Lower
variable {α β : Type}

theorem build_bind {m : Build α} {f : α → Build β} : build (m >>= f) = build m >>= fun a => build (f a) := by
  funext env s
  show (((m >>= f).run.run s.builder).1, { s with builder := ((m >>= f).run.run s.builder).2 }) =
    ((build m >>= fun a => build (f a)).run env).run.run s
  rw [run_bind,ExceptT.run_bind,StateT.run_bind]
  show _ = match ((m.run.run s.builder).1, { s with builder := (m.run.run s.builder).2 }) with
    | (.ok a, s') => ((build (f a)).run env).run.run s'
    | (.error e, s') => (.error e, s')
  cases m.run.run s.builder with
  | mk result b => cases result <;> rfl

end Lower

namespace Composed
variable {α β : Type} {needs needs' : List Finding} {step : Lower α} {gives : α → List Finding} {gives' : β → List Finding}
variable {type : NativeType} {value : Literal} {ptr : Register}

theorem bind {f : α → Lower β} (first : Composed needs step gives) (second : ∀ a, Composed (gives a ++ needs) (f a) gives') :
    Composed needs (step >>= f) gives' :=
  first.bindKnown (fun _ => trivial) fun a _ => second a

theorem andThen {f : α → Lower β} (first : Composed needs step noFacts) (second : ∀ a, Composed needs (f a) gives') :
    Composed needs (step >>= f) gives' :=
  first.bind second

theorem buildBind {m : Build α} {f : α → Build β} (first : Composed needs (Lower.build m) gives)
    (second : ∀ a, Composed (gives a ++ needs) (Lower.build (f a)) gives') : Composed needs (Lower.build (m >>= f)) gives' :=
  build_bind ▸ first.bind second

theorem buildThen {m : Build α} {f : α → Build β} (first : Composed needs (Lower.build m) noFacts)
    (second : ∀ a, Composed needs (Lower.build (f a)) gives') : Composed needs (Lower.build (m >>= f)) gives' :=
  first.buildBind second

theorem keep {gives' : α → List Finding} (composed : Composed needs step gives) (fewer : ∀ a, gives' a ⊆ gives a ++ needs) :
    Composed needs step gives' :=
  composed.mono (Subset.refl _) fewer

theorem done {a : α} : Composed needs (Pure.pure a) noFacts := .pure (nil_subset _)

theorem buildDone {a : α} : Composed needs (Lower.build (Pure.pure a)) noFacts := done

theorem throwBind {f : β → Lower α} : Composed needs ((throwThe Error e : Lower β) >>= f) gives :=
  bindKnown (P := fun _ => False) (throw : Composed needs _ noFacts) (fun run => absurd run runs_throw) fun _ no => no.elim

theorem breach {e : Breach} : Composed needs (breach e : Lower α) gives := throw

theorem buildThrow : Composed needs (Lower.build (MonadExcept.throw e) : Lower α) gives := throw

theorem produced {product : Product} {found : Option Register} : Composed needs (produced product found) noFacts := by
  unfold Lower.produced
  split
  · exact done
  · exact breach

/-! ### Construction -/

theorem allocRegister : Composed needs (Lower.build (allocRegister type)) noFacts := build .allocRegister

theorem alloc : Composed needs (Lower.build (alloc type)) noFacts := build .alloc

theorem labelledBlock : Composed needs (Lower.build (labelledBlock label)) fun block => [.target block] :=
  (build .labelledBlock).keep (by simp)

/-- A block that only invokes lead to. -/
theorem reserve : Composed needs (Lower.build (Build.labelledBlock label)) fun block => [.reserved block] :=
  (build .labelledBlock).keep (by simp)

theorem terminate {t : Terminator} (known : t.relies ⊆ needs) (plain : t.isInvoke = false) :
    Composed needs (Lower.build (terminate t)) noFacts :=
  build (.terminate known (.inr plain))

theorem define (known : ∀ dest, (instr dest).relies ⊆ needs)
    (plain : .unguarded ∈ needs ∨ ∀ dest record, instr dest ≠ .landingPad record) :
    Composed needs (Lower.build (define type instr)) noFacts :=
  buildThen allocRegister fun dest => buildThen (build (.append (known dest) (plain.imp_right fun plain => plain dest))) fun _ => buildDone

theorem instruction (known : ∀ dest, (instr dest).relies ⊆ needs)
    (plain : ∀ dest record, instr dest ≠ .landingPad record) : Composed needs (Lower.build (Build.define type instr)) noFacts :=
  define known (.inr plain)

theorem typedConst (known : value.relies ⊆ needs) : Composed needs (Lower.build (Build.typedConst value type)) noFacts :=
  instruction (fun _ => known) (by simp)

theorem const (known : value.relies ⊆ needs) : Composed needs (Lower.build (const value)) noFacts :=
  typedConst known

theorem plain (alone : value.references = []) : Composed needs (Lower.build (Build.const value)) noFacts :=
  const (by simp [relies,alone])

theorem load : Composed needs (Lower.build (Build.load ptr type)) noFacts :=
  instruction (fun _ => nil_subset _) (by simp)

theorem store {value : Register} : Composed needs (Lower.build (store ptr value)) noFacts :=
  build (.append (nil_subset _) (.inr (by simp)))

theorem element {indices : List Nat} : Composed needs (Lower.build (Build.element ptr indices type)) noFacts :=
  instruction (fun _ => nil_subset _) (by simp)

theorem compare {op : CompareOp} : Composed needs (Lower.build (Build.compare op left right)) noFacts :=
  instruction (fun _ => nil_subset _) (by simp)

theorem cast {source : Register} {kind : CastKind} : Composed needs (Lower.build (Build.cast source kind type)) noFacts :=
  instruction (fun _ => nil_subset _) (by simp)

theorem landingPad (free : .unguarded ∈ needs) : Composed needs (Lower.build landingPad) noFacts :=
  define (fun _ => nil_subset _) (.inl free)

theorem resultRegister {signature : Signature} : Composed needs (Lower.build (resultRegister signature)) noFacts := by
  unfold Build.resultRegister
  split
  · exact buildDone
  · exact buildThen allocRegister fun _ => buildDone

theorem call (known : site.relies ⊆ needs) : Composed needs (Lower.build (call site)) noFacts :=
  buildThen resultRegister fun _ => buildThen (build (.append known (.inr (by simp)))) fun _ => buildDone

theorem branch {target : BlockId} (known : .target target ∈ needs) : Composed needs (Lower.build (branch target)) noFacts :=
  terminate (by simpa [Terminator.relies] using known) rfl

theorem condBranch {condition : Register} {onTrue onFalse : BlockId} (known : [.target onTrue,.target onFalse] ⊆ needs) :
    Composed needs (Lower.build (condBranch condition onTrue onFalse)) noFacts :=
  terminate known rfl

theorem ret {value : Option Register} (known : .returning ∈ needs) : Composed needs (Lower.build (ret value)) noFacts :=
  terminate (by simpa [Terminator.relies] using known) rfl

theorem unreachable : Composed needs (Lower.build unreachable) noFacts :=
  terminate (nil_subset _) rfl

theorem invoke {normal unwind : BlockId} (known : site.relies ⊆ needs) (reserved : [.reserved normal,.reserved unwind] ⊆ needs)
    (free : .unguarded ∈ needs) : Composed needs (Lower.build (invoke site normal unwind)) noFacts :=
  buildThen resultRegister fun _ => buildThen (build (.terminate (append_subset.mpr ⟨reserved,known⟩) (.inl free))) fun _ => buildDone

theorem int {value : Int} : Composed needs (Lower.build (int value type)) noFacts := by
  unfold Build.int
  split
  · exact plain rfl
  · exact plain rfl
  · exact plain rfl
  · exact plain rfl
  · exact buildThrow

theorem bool {value : Bool} : Composed needs (Lower.build (Build.bool value)) noFacts := plain rfl

theorem null : Composed needs (Lower.build Build.null) noFacts := plain rfl

end Composed

namespace Builder.Alike
variable {b b' : Builder}

section
variable (alike : b.Alike b')
include alike

theorem block? (id : BlockId) : (b.block? id).map Block.unlabelled = (b'.block? id).map Block.unlabelled := by
  have seen : ∀ x : Builder, (x.block? id).map Block.unlabelled =
      (x.procedure?.map unlabelled).bind fun p => p.graph.block? id := by
    intro x
    unfold Builder.block?
    cases x.procedure? with
    | none => rfl
    | some p => exact block?_unlabelled.symm
  rw [seen b,seen b',alike.procedure]

theorem registerType? (r : Register) : b.registerType? r = b'.registerType? r := by
  have seen : ∀ x : Builder, x.registerType? r =
      (x.procedure?.map unlabelled).bind fun p => p.registerTypes.get? r := by
    intro x
    unfold Builder.registerType?
    cases x.procedure? <;> rfl
  rw [seen b,seen b',alike.procedure]

theorem block?_map {γ : Type} (id : BlockId) {f : Block → γ} (blind : ∀ k : Block, f k.unlabelled = f k) :
    (b.block? id).map f = (b'.block? id).map f := by
  have seen : ∀ x : Builder, (x.block? id).map f = ((x.block? id).map Block.unlabelled).map f := by
    intro x
    rw [Option.map_map]
    exact map_congr fun k _ => (blind k).symm
  rw [seen b,seen b',alike.block?]

theorem blockIsTerminated (id : BlockId) : b.blockIsTerminated id = b'.blockIsTerminated id := by
  unfold Builder.blockIsTerminated
  rw [alike.block?_map id fun _ => rfl]

theorem isTerminated : b.isTerminated = b'.isTerminated := by
  unfold Builder.isTerminated
  rw [alike.cursor]
  cases b'.cursor with
  | none => rfl
  | some id => exact alike.blockIsTerminated id

end

end Builder.Alike

namespace Composed
variable {needs : List Finding}

theorem binary {op : BinaryOp} : Composed needs (Lower.build (Build.binary op left right)) noFacts :=
  inspect (fun alike => by simp only [alike.registerType?]) fun _ => instruction (fun _ => nil_subset _) (by simp)

theorem unary {op : UnaryOp} {operand : Register} : Composed needs (Lower.build (Build.unary op operand)) noFacts :=
  inspect (fun alike => by simp only [alike.registerType?]) fun _ => instruction (fun _ => nil_subset _) (by simp)

end Composed

/-! ### Disciplines of code -/

/-- A finding that is not about the blocks of a function. -/
def Finding.isApart : Finding → Bool
  | .has _ | .callee _ _ | .opened _ | .guarding _ => true
  | .target _ | .reserved _ | .returning | .unguarded => false

/-- A discipline that the steps which concern blocks and scopes keep. -/
structure Discipline.Conducts (d : Discipline Finding) (env : Environment) : Prop where
  apart : ∀ {s f}, d.holds s → f.isApart = true → d.knows s f
  quiet : ∀ {s s'}, d.holds s → State.Quiet env s s' → d.holds s' ∧ ∀ f, d.knows s f → d.knows s' f
  scopeState : ∀ {needs id}, d.Keeps env needs (scopeState id) ScopeState.remembered
  modifyScope : ∀ {needs id} {f : ScopeState → ScopeState}, (∀ state, (f state).remembered ⊆ needs ++ state.remembered) →
    (.unguarded ∈ needs ∨ ∀ state, (f state).landingPad = state.landingPad) → d.Keeps env needs (modifyScope id f) noFacts
  withScope : ∀ {α : Type} {needs kind chain} {step : Chain → Lower α} {gives},
    (∀ number, d.Keeps env needs (step (⟨number,kind⟩ :: chain)) gives) → d.Keeps env needs (withScope kind chain step) gives
  atBlock : ∀ {α : Type} {needs block} {step : Lower α} {gives}, (.reserved block ∈ needs ∨ .target block ∈ needs) →
    d.Keeps env needs step gives → d.Keeps env needs (atBlock block step) gives
  switchTo : ∀ {needs block}, (.reserved block ∈ needs ∨ .target block ∈ needs) → d.Keeps env needs (build (switchTo block)) noFacts
  build : ∀ {α : Type} {needs} {m : Build α} {gives}, Constructs needs m gives → d.Keeps env needs (build m) gives
  callAt : ∀ {needs chain target args lifetime}, d.Keeps env (.unguarded :: needs) (call chain target args lifetime) noFacts →
    d.Keeps env needs (call chain target args lifetime) noFacts

section
variable {α : Type} {d : Discipline Finding} {env : Environment} {needs : List Finding} {step : Lower α} {gives : α → List Finding}

theorem Discipline.Conducts.quietly (conducts : d.Conducts env) (quiet : ∀ {s a s'}, Runs step env s a s' → s.Quiet env s')
    (apart : ∀ {a f}, f ∈ gives a → f.isApart = true) : d.Keeps env needs step gives where
  lead holds _ run := by
    obtain ⟨after,persists⟩ := conducts.quiet holds (quiet run)
    exact ⟨after,persists,fun f inside => conducts.apart after (apart inside)⟩

theorem CallTarget.isApart_relies {target : CallTarget} (inside : f ∈ target.relies) : f.isApart = true := by
  unfold relies Callee.relies at inside
  split at inside
  · exact mem_singleton.mp inside ▸ rfl
  · cases inside

theorem Composed.kept (composed : Composed needs step gives) (conducts : d.Conducts env) : d.Keeps env needs step gives := by
  induction composed with
  | pure old => exact .pure old
  | bindKnown _ sure _ first second => exact first.bindKnown (fun _ _ run => sure run) second
  | mono _ more fewer ih => exact ih.mono more fewer
  | throw => exact .throw
  | lift => exact .lift
  | ask _ _ each => exact .readThen (each _)
  | look _ _ each => exact .get each
  | inspect _ _ each => exact .buildGet each
  | isTerminated => exact .isTerminated
  | log =>
    refine conducts.quietly (fun run => ?_) fun inside => absurd inside not_mem_nil
    obtain rfl := runs_log.mp run
    exact .logged env _ _
  | scopeState => exact conducts.scopeState
  | bindVariable => exact conducts.modifyScope (fun _ => subset_append_right _ _) (.inr fun _ => rfl)
  | recollect has put absent _ _ _ remembers lands _ _ _ making old new =>
    refine .bind conducts.scopeState fun state => ?_
    cases known : has state with
    | some k => exact old known
    | none =>
      rw [absent known]
      refine .bind (making.widen (nil_subset _)) fun k => .andThen (conducts.modifyScope (fun state f inside => ?_) ?_) fun _ =>
        (new k).widen ((sublist_append_right _ _).append_left _).subset
      · exact (mem_append.mp (remembers k state inside)).elim (fun new => by simp [new]) fun old => by simp [old]
      · exact lands.imp (fun free => by simp [free]) fun lands => lands k
  | slot? => exact .get fun _ => .done
  | withScope _ inner =>
    refine conducts.withScope fun number => ?_
    exact .infer (f := .guarding number) (fun holds _ => conducts.apart holds rfl)
      (.infer (f := .opened number) (fun holds _ => conducts.apart holds rfl) (inner number))
  | atBlock known _ inner => exact conducts.atBlock known inner
  | build constructs => exact conducts.build constructs
  | callAt _ parts => exact conducts.callAt parts
  | insertionBlock =>
    refine .still (fun run => ?_) fun _ => nil_subset _
    obtain ⟨b,built,rfl⟩ := runs_build.mp run
    obtain ⟨-,rfl⟩ := runs_insertionBlock.mp built
    rfl
  | switchTo known => exact conducts.switchTo known
  | procedureOf => exact conducts.quietly (fun run => run.procedureOf.1) fun inside => mem_singleton.mp inside ▸ rfl
  | directTarget => exact conducts.quietly (fun run => run.directTarget.1) CallTarget.isApart_relies
  | supportTarget => exact conducts.quietly (fun run => run.supportTarget.1) CallTarget.isApart_relies
  | globalOf => exact conducts.quietly (fun run => run.globalOf) fun inside => mem_singleton.mp inside ▸ rfl
  | literalOf =>
    refine conducts.quietly (fun run => run.literalOf) fun inside => ?_
    obtain ⟨r,-,rfl⟩ := mem_map.mp inside
    rfl
  | placeArray | placeAggregate =>
    exact conducts.quietly (fun run => run.place fun _ => ⟨_,_,_,rfl⟩) fun inside => mem_singleton.mp inside ▸ rfl

end

end BlockLowering
