import BlockLowering.Pass.Unwind
/-!
Guarded expressions: a finalizing scope around a catching scope around the body. Exceptions of the
body go to the handler of the innermost scope, which tests the clauses in order; what no clause
catches goes outwards, through the finalizer.
-/
namespace BlockLowering.Lower

/-- Run a step in a new scope and give the handler that the scope has come to need. -/
def withHandler (kind : ScopeKind) (chain : Chain) (step : Chain → Lower Unit) : Lower (Option Continuation) :=
  withScope kind chain fun inner => do
    step inner
    match inner with
    | [] => return none
    | scope :: _ => return (← scopeState scope.id).handler

def deliver (target : Continuation) (value : Value) : Lower Unit :=
  if value.isUnreachable then return else jump target value

/-- A clause that was taken: its parameter is the exception. -/
def lowerClauseBody (recurse : Recurse) (chain : Chain) (clause : CatchClause Expr)
    (exception : Register) (result : Continuation) : Lower Unit :=
  withScope .variables chain fun inner => do
    declareVariable inner clause.parameter (.value (.ofRegister exception clause.ty))
    let value ← recurse inner clause.body
    deliver result value

/-- Test clauses in order; an exception that none of them catches is thrown again. -/
def lowerClauses (recurse : Recurse) (chain : Chain) (exception : Register) (result : Continuation) : List (CatchClause Expr) → Lower Unit
  | [] => throwException chain exception
  | clause :: rest => do
    if clause.ty.isAny then lowerClauseBody recurse chain clause exception result
    else
      match clause.ty.class? with
      | none => throw (.typeMismatch .catchableType (.inr clause.ty) clause.body.location)
      | some cls =>
        let descriptor ← descriptorAddress cls
        let test ← produced .instanceCheck (← callSupport chain .isInstance [exception,descriptor])
        let taken ← build (Build.labelledBlock "catch.body")
        let next ← build (Build.labelledBlock "catch.next")
        build do
          Build.condBranch test taken next
          Build.switchTo taken
        lowerClauseBody recurse chain clause exception result
        build (Build.switchTo next)
        lowerClauses recurse chain exception result rest

/-- The handler of a catching scope, unless nothing reaches it. -/
def lowerHandler (recurse : Recurse) (chain : Chain) (clauses : List (CatchClause Expr)) (result handler : Continuation) : Lower Unit := do
  if ← enterBlock handler.block then
    let exception ← materialize handler.value
    lowerClauses recurse chain exception result clauses

def lowerCatching (recurse : Recurse) (chain : Chain) (body : Expr) (clauses : List (CatchClause Expr)) (ty : Ty) : Lower Value := do
  if clauses.isEmpty then return (← recurse chain body).withType ty
  let result ← newContinuation ty "try.result"
  let handler ← withHandler .catching chain fun inner => do
    let value ← recurse inner body
    deliver result value
  match handler with
  | none => resumeAt result
  | some handler =>
    lowerHandler recurse chain clauses result handler
    resumeAt result

/-- Run a finalizer for an exception and throw it again. -/
def lowerRethrow (recurse : Recurse) (chain : Chain) (finalizer : Expr) (handler : Continuation) : Lower Unit := do
  log (.finallyHandler handler.block)
  atBlock handler.block do
    let exception ← materialize handler.value
    match ← eval recurse chain finalizer with
    | none => return
    | some _ => throwException chain exception

/-- A body with clauses and a finalizer, which runs on every way out. -/
def lowerFinalized (recurse : Recurse) (chain : Chain) (body : Expr) (clauses : List (CatchClause Expr))
    (finalizer : Expr) (ty : Ty) : Lower Value := do
  let normal ← newContinuation ty "finally.normal"
  let handler ← withHandler (.finalizing finalizer) chain fun inner => do
    let value ← lowerCatching recurse inner body clauses ty
    deliver normal value
  if let some handler := handler then lowerRethrow recurse chain finalizer handler
  let value ← resumeAt normal
  if value.isUnreachable then return value
  match ← eval recurse chain finalizer with
  | some _ => return value
  | none => return .unreachable ty

def lowerGuarded (recurse : Recurse) (chain : Chain) (body : Expr) (clauses : List (CatchClause Expr))
    (finalizer : Option Expr) (ty : Ty) : Lower Value :=
  match finalizer with
  | none => lowerCatching recurse chain body clauses ty
  | some finalizer => lowerFinalized recurse chain body clauses finalizer ty

def lowerRaise (recurse : Recurse) (chain : Chain) (exception : Expr) : Lower Value := do
  match ← eval recurse chain exception with
  | none => return .unreachable .never
  | some value =>
    let register ← materialize value
    throwException chain register
    return .unreachable .never

end BlockLowering.Lower
