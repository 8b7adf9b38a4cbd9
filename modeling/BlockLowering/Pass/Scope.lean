import BlockLowering.Pass.State
/-!
The scopes around a point of the program, innermost first. What a scope is stands in the chain and
never changes; what it has gathered stands in the state, under its number. A request starts at the
innermost scope and goes outwards until a scope answers it; outside every function nothing does.
-/
namespace BlockLowering

inductive ScopeKind where
  /-- A function, or the initializer of a unit, which is no declared function. -/
  | function (function : Option FunctionId) (returnsVoid : Bool) (receiver : Option Value)
  | variables
  | loop (loop : LoopId) (exit : Continuation) (check : BlockId)
  | catching
  | finalizing (finalizer : Expr)
  | inlined (function : FunctionId) (exit : Continuation)

structure Scope where
  id : Nat
  kind : ScopeKind

/-- The scopes around a point, innermost first. -/
abbrev Chain := List Scope

abbrev Recurse := Chain → Expr → Lower Value

namespace Chain

/-- The size of the finalizers that an exit may still have to run. -/
def weight : Chain → Nat
  | [] => 0
  | ⟨_,.finalizing finalizer⟩ :: outer => finalizer.size + weight outer
  | _ :: outer => weight outer

/-- The number of the innermost scope with variables of its own. -/
def variableOwner? : Chain → Option Nat
  | [] => none
  | ⟨id,.function ..⟩ :: _ => some id
  | ⟨id,.variables⟩ :: _ => some id
  | _ :: outer => variableOwner? outer

def receiver : Chain → Except Error (Option Value)
  | [] => .error (.invalidTransfer .owning)
  | ⟨_,.function _ _ receiver⟩ :: _ => .ok receiver
  | _ :: outer => receiver outer

/-- The number of the innermost scope of the function that catches exceptions, if there is one. -/
def catcher (request : Request) : Chain → Except Error (Option Nat)
  | [] => .error (.invalidTransfer request)
  | ⟨_,.function ..⟩ :: _ => .ok none
  | ⟨id,.catching⟩ :: _ => .ok (some id)
  | ⟨id,.finalizing _⟩ :: _ => .ok (some id)
  | _ :: outer => catcher request outer

end Chain

namespace Lower

def scopeState (id : Nat) : Lower ScopeState := do return ((← get).scopes[id]?).getD .empty

def modifyScope (id : Nat) (f : ScopeState → ScopeState) : Lower Unit :=
  modify fun s => { s with scopes := s.scopes.modify id f }

def resetScopes : Lower Unit := modify fun s => { s with scopes := #[.empty] }

def setCursor (cursor : Option BlockId) : Lower Unit :=
  modify fun s => { s with builder := { s.builder with cursor } }

/-- Run a step inside a new scope, which is closed again however the step ends. After a failure the
    cursor is back where it was. -/
def withScope {α : Type} (kind : ScopeKind) (chain : Chain) (step : Chain → Lower α) : Lower α := do
  let id := (← get).scopes.size
  let cursor := (← get).builder.cursor
  modify fun s => { s with scopes := s.scopes.push .empty }
  let close : Lower Unit := modify fun s => { s with scopes := s.scopes.take id }
  let result ← tryCatch (step (⟨id,kind⟩ :: chain)) fun e => do
    close
    setCursor cursor
    throw e
  close
  return result

/-- Run a step at a block and put the cursor back, however the step ends. -/
def atBlock {α : Type} (block : BlockId) (step : Lower α) : Lower α := do
  let cursor := (← get).builder.cursor
  setCursor (some block)
  let result ← tryCatch step fun e => do
    setCursor cursor
    throw e
  setCursor cursor
  return result

/-- Bind a variable in the innermost scope that has variables. -/
def declareVariable (chain : Chain) (var : VarId) (slot : Slot) : Lower Unit :=
  match chain.variableOwner? with
  | none => throw (.invalidTransfer .declaring)
  | some id => do
    log (.declaredVariable var id)
    modifyScope id fun scope => { scope with slots := scope.slots.insert var slot }

def slot? (chain : Chain) (var : VarId) : Lower (Option Slot) := do
  let scopes := (← get).scopes
  return chain.findSome? fun scope => (scopes[scope.id]?).bind fun state => state.slots.get? var

/-- The value of a variable, loaded if it is mutable. -/
def readVariable (chain : Chain) (var : VarId) (location : Location) : Lower Value := do
  match ← slot? chain var with
  | some (.value value) => return value
  | some (.stack ptr ty) => return .ofRegister (← build (Build.load ptr ty.storage)) ty
  | none => throw (.unboundVariable var location)

end Lower

end BlockLowering
