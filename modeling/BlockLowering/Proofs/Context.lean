import BlockLowering.Pass.Step
import BlockLowering.Proofs.Naming
/-!
Points of a lowering run. Code is emitted out of order: landing pads, handlers and copies of finalizers
are filled in the middle of other code, with an outer scope active. What makes this sound is that every
scope remembers the registers that had values when it was opened, and that every block which can be
filled with the scope active is entered only where these still have values. `Standing` says this of a point
of a run, together with the blocks that are still waited for.
-/
namespace BlockLowering
open List
variable {b c x : BlockId} {w : Waits} {kind : ScopeKind} {state : ScopeState} {scopes scopes' : Array ScopeState} {chain : Chain}
  {levels : List Level}

def Value.registers (v : Value) : List Register :=
  match v.form with
  | .register r => [r]
  | .unit | .unreachable => []

abbrev Value.Completes (v : Value) : Prop := v.isUnreachable = false

theorem Value.not_completes_unreachable (ty : Ty) : ¬ (Value.unreachable ty).Completes := nofun

def Slot.registers : Slot → List Register
  | .value v => v.registers
  | .stack ptr _ => [ptr]

/-- A variable that can be read. -/
def Slot.Usable : Slot → Prop
  | .value v => v.isUnreachable = false
  | .stack .. => True

def Statement.children : Statement Expr → List Expr
  | .expression e => [e]
  | .variable _ _ _ _ initializer => initializer.toList

def Node.children : Node Expr → List Expr
  | .call c => c.dispatchReceiver.toList ++ c.extensionReceiver.toList ++ c.arguments.filterMap id
  | .delegate _ arguments => arguments.filterMap id
  | .writeVar _ value => [value]
  | .readField _ receiver => receiver.toList
  | .writeField _ receiver value => receiver.toList ++ [value]
  | .returnFrom _ value => [value]
  | .choice branches => branches.flatMap fun branch => [branch.condition,branch.result]
  | .raise exception => [exception]
  | .guarded body clauses finalizer => body :: clauses.map CatchClause.body ++ finalizer.toList
  | .inlined _ body => [body]
  | .sequence statements => statements.flatMap Statement.children
  | .whileLoop _ condition body => [condition,body]
  | .repeatLoop _ body condition => [body,condition]
  | .arrayLiteral _ items => items.map ArrayItem.expression
  | .typeOp _ operand _ => [operand]
  | .readVar _ | .constant _ | .breakFrom _ | .continueWith _ | .singleton _ | .functionRef _ => []

/-- An expression that stands somewhere in one of several trees. -/
inductive Expr.Within (roots : Expr → Prop) : Expr → Prop
  | root {e : Expr} : roots e → Within roots e
  | child {e c : Expr} : Within roots e → c ∈ e.node.children → Within roots c

/-- The function and the block at the cursor. -/
structure State.Stands (s : State) (p : Procedure) (c : BlockId) : Prop where
  procedure : s.builder.procedure? = some p
  cursor : s.builder.cursor = some c

/-- A block of a function that lacks a terminator. -/
def Procedure.IsOpen (p : Procedure) (b : BlockId) : Prop :=
  ∃ k, p.graph.block? b = some k ∧ k.terminator = none

/-- The lowering of a branch ended in this block and left it open: a branch under a condition, in a
    conditional that by its type never completes and of which some branch is always taken. -/
def LeftOpen (env : Environment) (roots : Expr → Prop) (p : Procedure) (b : BlockId) : Prop :=
  ∃ depth chain e branches branch s v s' q,
    Expr.Within roots e ∧ e.node = .choice branches ∧ e.ty.isNever = true ∧
    Lower.isExhaustive branches = true ∧ branch ∈ branches ∧ branch.isUnconditional = false ∧
    Lower.Runs (Lower.lowerWithin depth chain branch.result) env s v s' ∧
    s'.Stands q b ∧ q.IsOpen b ∧ q.Grows p

theorem LeftOpen.grow {env : Environment} {roots : Expr → Prop} {p p' : Procedure}
    (left : LeftOpen env roots p b) (grows : p.Grows p') : LeftOpen env roots p' b := by
  obtain ⟨depth,chain,e,branches,branch,s,v,s',q,within,node,never,exhaustive,member,conditional,
    run,stands,isOpen,before⟩ := left
  exact ⟨depth,chain,e,branches,branch,s,v,s',q,within,node,never,exhaustive,member,conditional,
    run,stands,isOpen,before.trans grows⟩

abbrev BlockId.plain (b : BlockId) : Continuation := ⟨b,none,.unit⟩

/-- A continuation that is in place, with what its block counts on. -/
structure Known (supply : Supply) (p : Procedure) (k : Continuation) (counted : List Register) : Prop where
  inner : k.block ≠ p.graph.entry
  there : ∃ block, p.graph.block? k.block = some block ∧ block.phis.map Phi.dest = k.phi.toList
  supply : supply k.block = counted
  typed : ∀ {r}, k.phi = some r → p.registerTypes.get? r = some k.ty.storage
  valueless : k.phi.isNone = k.ty.isValueless

/-- A block that may be the target of a new edge: it is waited for, or it has edges or an end already. -/
def Awaited (p : Procedure) (waited : List BlockId) (b : BlockId) : Prop :=
  b ∈ waited ∨ ∃ k, p.graph.block? b = some k ∧ (k.predecessors ≠ [] ∨ k.terminator ≠ none)

/-- The blocks that are waited for: those that open scopes may name, and others. -/
structure Waits where
  targets : List BlockId
  others : List BlockId

namespace Waits

def all (w : Waits) : List BlockId := w.targets ++ w.others

def target (w : Waits) (b : BlockId) : Waits := { w with targets := b :: w.targets }

def other (w : Waits) (b : BlockId) : Waits := { w with others := b :: w.others }

structure Within (w w' : Waits) : Prop where
  targets : w.targets ⊆ w'.targets
  all : w.all ⊆ w'.all

def none : Waits := ⟨[],[]⟩

theorem Within.refl (w : Waits) : w.Within w := ⟨fun _ h => h,fun _ h => h⟩

theorem within_other (w : Waits) (b : BlockId) : w.Within (w.other b) where
  targets := fun _ h => h
  all := append_subset.mpr ⟨subset_append_left _ _,
    fun _ h => mem_append_right _ (.tail _ h)⟩

@[simp] theorem mem_all_target : x ∈ (w.target b).all ↔ x = b ∨ x ∈ w.all := by
  simp [all,target]

@[simp] theorem mem_all_other : x ∈ (w.other b).all ↔ x = b ∨ x ∈ w.all := by
  simp only [all,other,mem_append,mem_cons]
  exact or_left_comm

end Waits

/-- The registers of a scope: those that had values when it was opened, and with those that its
    variables need. -/
structure Level where
  anchor : List Register
  base : List Register

/-- The registers that the innermost scope needs are among some others. -/
def Covered (levels : List Level) (registers : List Register) : Prop :=
  ∀ level ∈ levels.head?, level.base ⊆ registers

/-- Whether exceptions can go to a scope of a kind. -/
def ScopeKind.catches : ScopeKind → Bool
  | .catching | .finalizing _ => true
  | _ => false

/-- What a kind of scope refers to is there for a scope with these registers. -/
def KindFits (roots : Expr → Prop) (supply : Supply) (p : Procedure) (targets : List BlockId) (level : Level) : ScopeKind → Prop
  | .function _ _ receiver => ∀ v ∈ receiver, v.registers ⊆ level.anchor ∧ v.isUnreachable = false
  | .loop _ exit check => Known supply p exit level.anchor ∧
      Known supply p check.plain level.anchor ∧
      Awaited p targets exit.block ∧ Awaited p targets check
  | .finalizing finalizer => Expr.Within roots finalizer
  | .inlined _ exit => Known supply p exit level.anchor ∧ Awaited p targets exit.block
  | .variables | .catching => True

/-- What a scope of a kind has gathered fits the registers of the scope. -/
structure ScopeFits (roots : Expr → Prop) (supply : Supply) (p : Procedure) (targets : List BlockId)
    (kind : ScopeKind) (level : Level) (state : ScopeState) : Prop where
  slots : ∀ {x slot}, state.slots.get? x = some slot → slot.registers ⊆ level.base ∧ slot.Usable
  handler : ∀ {h}, state.handler = some h →
    Known supply p h level.anchor ∧ h.ty = .object ∧ kind.catches = true
  landingPad : ∀ {pad}, state.landingPad = some pad → Known supply p pad.plain level.anchor ∧ Awaited p targets pad
  cleanups : ∀ {exit k}, state.cleanups.get? exit = some k →
    Known supply p k level.anchor ∧ Awaited p targets k.block
  kind : KindFits roots supply p targets level kind

/-- The scopes of a chain fit; what the outer ones need was there when the inner ones were opened. -/
def ChainFits (roots : Expr → Prop) (supply : Supply) (p : Procedure) (targets : List BlockId)
    (scopes : Array ScopeState) : Chain → List Level → Prop
  | [], [] => True
  | scope :: outer, level :: levels =>
    (∃ state, scopes[scope.id]? = some state ∧
      ScopeFits roots supply p targets scope.kind level state) ∧
    level.anchor ⊆ level.base ∧ Covered levels level.anchor ∧ (∀ other ∈ outer, other.id < scope.id) ∧
    ChainFits roots supply p targets scopes outer levels
  | _, _ => False

def Chain.handlers (scopes : Array ScopeState) (chain : Chain) : List BlockId :=
  chain.filterMap fun scope => ((scopes[scope.id]?).bind ScopeState.handler).map Continuation.block

/-- Every open block that control can enter is at the cursor or waited for, or was left open. -/
def Accounted (env : Environment) (roots : Expr → Prop) (p : Procedure) (c : BlockId) (expected : List BlockId) : Prop :=
  ∀ b k, p.graph.block? b = some k → k.terminator = none → k.predecessors ≠ [] ∨ b = p.graph.entry →
    b = c ∨ b ∈ expected ∨ LeftOpen env roots p b

/-- Registers that have values wherever code can be appended at a block. -/
structure Reaches (supply : Supply) (p : Procedure) (c : BlockId) (available : List Register) : Prop where
  taken : ∀ r ∈ available, r.index < p.nextRegister
  holds : ∀ {k}, p.graph.block? c = some k → k.terminator = none →
    ∀ r ∈ available, Procedure.Holds supply p c k k.code r

/-- A later form of a function, with a supply that is the same for the blocks that were there. -/
structure Later (supply : Supply) (p : Procedure) (supply' : Supply) (p' : Procedure) : Prop where
  grows : p.Grows p'
  supply : ∀ {b k}, p.graph.block? b = some k → supply' b = supply b

theorem Later.refl (supply : Supply) (p : Procedure) : Later supply p supply p := ⟨.refl p,fun _ => rfl⟩

theorem Later.trans {supply₁ supply₂ supply₃ : Supply} {p₁ p₂ p₃ : Procedure}
    (first : Later supply₁ p₁ supply₂ p₂) (second : Later supply₂ p₂ supply₃ p₃) : Later supply₁ p₁ supply₃ p₃ where
  grows := first.grows.trans second.grows
  supply found := by
    obtain ⟨_,found₂,_⟩ := first.grows.blocks found
    exact (second.supply found₂).trans (first.supply found)

/-- What a part of a run leaves as it was. Scopes outside `chain` are untouched, and variables are
    declared in the scope `owner` alone. -/
structure Leads (chain : Chain) (owner : Option Nat) (supply : Supply) (s : State) (supply' : Supply)
    (s' : State) : Prop where
  current : s'.builder.current = s.builder.current
  later : ∀ {p}, s.builder.procedure? = some p →
    ∃ p', s'.builder.procedure? = some p' ∧ Later supply p supply' p'
  others : ∀ {id}, s.builder.current ≠ some id →
    s'.builder.output.procedures.get? id = s.builder.output.procedures.get? id
  names : s.builder.output.Keeps s'.builder.output
  functions : ∀ {id proc}, s.symbols.functions.get? id = some proc →
    s'.symbols.functions.get? id = some proc
  size : s'.scopes.size = s.scopes.size
  frame : ∀ {i state}, s.scopes[i]? = some state → (∀ scope ∈ chain, scope.id ≠ i) →
    s'.scopes[i]? = some state
  slots : ∀ {i state}, s.scopes[i]? = some state → owner ≠ some i →
    ∃ state', s'.scopes[i]? = some state' ∧ state'.slots = state.slots

/-- A point of a run in function `p` at block `c`. -/
structure Standing (env : Environment) (roots : Expr → Prop) (supply : Supply) (s : State) (p : Procedure)
    (c : BlockId) (chain : Chain) (levels : List Level) (available : List Register)
    (waits : Waits) : Prop where
  stands : s.Stands p c
  here : ∃ k, p.graph.block? c = some k
  sound : p.Sound supply
  reaches : Reaches supply p c available
  fits : ChainFits roots supply p waits.targets s.scopes chain levels
  covered : Covered levels available
  accounted : Accounted env roots p c (waits.all ++ chain.handlers s.scopes)
  named : s.Named env

section
variable {env : Environment} {roots : Expr → Prop} {supply supply' : Supply} {p p' : Procedure}
  {targets targets' expected expected' : List BlockId}

theorem Known.later {k : Continuation} {counted : List Register} (known : Known supply p k counted)
    (later : Later supply p supply' p') : Known supply' p' k counted := by
  obtain ⟨block,found,merges⟩ := known.there
  obtain ⟨block',found',grown⟩ := later.grows.blocks found
  exact {
    inner := by
      rw [later.grows.entry]
      exact known.inner
    there := ⟨block',found',grown.merges.trans merges⟩
    supply := (later.supply found).trans known.supply
    typed := fun phi => later.grows.types (known.typed phi)
    valueless := known.valueless }

theorem Awaited.later (awaited : Awaited p targets b) (grows : p.Grows p')
    (wider : targets ⊆ targets') : Awaited p' targets' b := by
  rcases awaited with waited | ⟨k,found,used⟩
  · exact .inl (wider waited)
  · obtain ⟨k',found',grown⟩ := grows.blocks found
    refine .inr ⟨k',found',?_⟩
    rcases used with edges | ended
    · left
      obtain ⟨a,inside⟩ := exists_mem_of_ne_nil _ edges
      exact ne_nil_of_mem (grown.predecessors inside)
    · right
      obtain ⟨t,ended⟩ := Option.ne_none_iff_exists'.mp ended
      rw [(grown.ended ended).1]
      exact Option.some_ne_none _

section
variable {level : Level} (known : ∀ {k counted}, Known supply p k counted → Known supply' p' k counted)
  (awaited : ∀ {b}, Awaited p targets b → Awaited p' targets' b)
include known awaited

theorem KindFits.map (fits : KindFits roots supply p targets level kind) :
    KindFits roots supply' p' targets' level kind := by
  cases kind with
  | function function returnsVoid receiver => exact fits
  | loop loop exit check => exact ⟨known fits.1,known fits.2.1,awaited fits.2.2.1,awaited fits.2.2.2⟩
  | finalizing finalizer => exact fits
  | inlined function exit => exact ⟨known fits.1,awaited fits.2⟩
  | _ => trivial

theorem ScopeFits.map (fits : ScopeFits roots supply p targets kind level state) :
    ScopeFits roots supply' p' targets' kind level state where
  slots := fits.slots
  handler found := (fits.handler found).imp_left known
  landingPad found := (fits.landingPad found).imp known awaited
  cleanups found := (fits.cleanups found).imp known awaited
  kind := fits.kind.map known awaited

theorem ChainFits.map
    (fits : ChainFits roots supply p targets scopes chain levels) (same : ∀ scope ∈ chain, scopes'[scope.id]? = scopes[scope.id]?) :
    ChainFits roots supply' p' targets' scopes' chain levels := by
  induction chain generalizing levels with
  | nil =>
    cases levels with
    | nil => trivial
    | cons _ _ => exact fits.elim
  | cons scope outer ih =>
    cases levels with
    | nil => exact fits.elim
    | cons level levels =>
      obtain ⟨⟨state,found,scopeFits⟩,anchored,covered,ordered,rest⟩ := fits
      refine ⟨⟨state,?_,scopeFits.map known awaited⟩,anchored,covered,ordered,?_⟩
      · rw [same scope (.head _),found]
      · exact ih rest fun other inside => same other (.tail _ inside)

end

theorem ScopeFits.later {level : Level}
    (fits : ScopeFits roots supply p targets kind level state) (later : Later supply p supply' p')
    (wider : targets ⊆ targets') : ScopeFits roots supply' p' targets' kind level state :=
  fits.map (fun known => known.later later) fun awaited => awaited.later later.grows wider

theorem ChainFits.later
    (fits : ChainFits roots supply p targets scopes chain levels) (later : Later supply p supply' p')
    (wider : targets ⊆ targets') (same : ∀ scope ∈ chain, scopes'[scope.id]? = scopes[scope.id]?) :
    ChainFits roots supply' p' targets' scopes' chain levels :=
  fits.map (fun known => known.later later) (fun awaited => awaited.later later.grows wider) same

theorem Accounted.mono (accounted : Accounted env roots p c expected) (wider : expected ⊆ expected') :
    Accounted env roots p c expected' :=
  fun b k found isOpen entered => (accounted b k found isOpen entered).imp_right (.imp_left fun waited => wider waited)

theorem Accounted.later (accounted : Accounted env roots p c expected) (grows : p.Grows p')
    (old : ∀ {b k'}, p'.graph.block? b = some k' → k'.terminator = none → k'.predecessors ≠ [] ∨ b = p.graph.entry →
      ∃ k, p.graph.block? b = some k ∧ k.terminator = none ∧ (k.predecessors ≠ [] ∨ b = p.graph.entry)) :
    Accounted env roots p' c expected := by
  intro b k' found' isOpen' entered'
  rw [grows.entry] at entered'
  obtain ⟨k,found,isOpen,entered⟩ := old found' isOpen' entered'
  exact (accounted b k found isOpen entered).imp_right (.imp_right fun left => left.grow grows)

end

namespace Leads
variable {chain chain' : Chain} {owner : Option Nat} {supply supply' supply'' : Supply} {s s' s'' : State}

theorem refl (chain : Chain) (owner : Option Nat) (supply : Supply) (s : State) : Leads chain owner supply s supply s where
  current := rfl
  later here := ⟨_,here,.refl _ _⟩
  others _ := rfl
  names := .refl _
  functions h := h
  size := rfl
  frame found _ := found
  slots found _ := ⟨_,found,rfl⟩

theorem trans (first : Leads chain owner supply s supply' s') (second : Leads chain owner supply' s' supply'' s'') :
    Leads chain owner supply s supply'' s'' where
  current := second.current.trans first.current
  later here := by
    obtain ⟨p',here',later⟩ := first.later here
    obtain ⟨p'',here'',later'⟩ := second.later here'
    exact ⟨p'',here'',later.trans later'⟩
  others other := (second.others (first.current ▸ other)).trans (first.others other)
  names := first.names.trans second.names
  functions h := second.functions (first.functions h)
  size := second.size.trans first.size
  frame found outside := second.frame (first.frame found outside) outside
  slots found other := by
    obtain ⟨state',found',same⟩ := first.slots found other
    obtain ⟨state'',found'',same'⟩ := second.slots found' other
    exact ⟨state'',found'',same'.trans same⟩

theorem widen (leads : Leads chain none supply s supply' s') (wider : chain ⊆ chain') : Leads chain' owner supply s supply' s' :=
  { leads with
    frame := fun found outside => leads.frame found fun scope inside => outside scope (wider inside)
    slots := fun found _ => leads.slots found (by simp) }

end Leads

end BlockLowering
