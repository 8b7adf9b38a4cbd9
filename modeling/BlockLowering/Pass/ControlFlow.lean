import BlockLowering.Pass.Exit
import BlockLowering.Pass.Storage
/-!
Conditionals, loops, sequences of statements and inlined bodies.
-/
namespace BlockLowering.Lower

/-- Bring the value of a branch to the block where the branches meet, if they do. -/
def arrive (merge : Option Continuation) (value : Value) : Lower Unit :=
  match merge with
  | some target => jump target value
  | none => return

/-- Test branches in order. The cursor ends where none was taken. -/
def lowerBranches (recurse : Recurse) (chain : Chain) (merge : Option Continuation) : List (Branch Expr) → Lower Unit
  | [] => return
  | branch :: rest => do
    if branch.isUnconditional then
      let value ← recurse chain branch.result
      arrive merge value
    else
      match ← eval recurse chain branch.condition with
      | none => return
      | some condition =>
        let condition ← materialize condition
        let taken ← build (Build.labelledBlock "when.then")
        let next ← build (Build.labelledBlock "when.next")
        build do
          Build.condBranch condition taken next
          Build.switchTo taken
        let value ← recurse chain branch.result
        arrive merge value
        build (Build.switchTo next)
        lowerBranches recurse chain merge rest

def isExhaustive (branches : List (Branch Expr)) : Bool :=
  (branches.getLast?.map Branch.isUnconditional).getD false

/-- The value of a conditional of which no branch was taken. -/
def fallthrough (merge : Continuation) (ty : Ty) : Lower Value :=
  match merge.phi with
  | some _ => return .ofRegister (← build (Build.typedConst .undef ty.storage)) ty
  | none => return .unit

/-- A conditional. Where some branch is always taken and none completes, nothing follows it. -/
def lowerChoice (recurse : Recurse) (chain : Chain) (branches : List (Branch Expr)) (ty : Ty) : Lower Value := do
  if ty.isNever && isExhaustive branches then
    lowerBranches recurse chain none branches
    if !(← isTerminated) then build Build.unreachable
    return .unreachable ty
  else
    let merge ← newContinuation ty "when.merge"
    lowerBranches recurse chain (some merge) branches
    if !isExhaustive branches && !(← isTerminated) then
      let value ← fallthrough merge ty
      jump merge value
    resumeAt merge

/-- Test the condition of a loop and go on in its body or behind it; whether the test is reached. -/
def testLoop (recurse : Recurse) (chain : Chain) (condition : Expr) (body : BlockId) (exit : Continuation) : Lower Bool := do
  match ← eval recurse chain condition with
  | none => return false
  | some value =>
    let register ← materialize value
    build (Build.condBranch register body exit.block)
    return true

def lowerLoopBody (recurse : Recurse) (chain : Chain) (body : Expr) (block check : BlockId) : Lower Unit := do
  build (Build.switchTo block)
  match ← eval recurse chain body with
  | none => return
  | some _ => build (Build.branch check)

def lowerWhile (recurse : Recurse) (chain : Chain) (loop : LoopId) (condition body : Expr) : Lower Value := do
  let check ← build (Build.labelledBlock "while.check")
  let block ← build (Build.labelledBlock "while.body")
  let exit ← newContinuation .unit "while.exit"
  build (Build.branch check)
  withScope (.loop loop exit check) chain fun inner => do
    build (Build.switchTo check)
    if ← testLoop recurse inner condition block exit then
      lowerLoopBody recurse inner body block check
  resumeAt exit

def lowerRepeat (recurse : Recurse) (chain : Chain) (loop : LoopId) (body condition : Expr) : Lower Value := do
  let block ← build (Build.labelledBlock "do.body")
  let check ← build (Build.labelledBlock "do.check")
  let exit ← newContinuation .unit "do.exit"
  build (Build.branch block)
  withScope (.loop loop exit check) chain fun inner => do
    lowerLoopBody recurse inner body block check
    if ← enterBlock check then
      let _ ← testLoop recurse inner condition block exit
  resumeAt exit

def lowerStatement (recurse : Recurse) (chain : Chain) : Statement Expr → Lower Value
  | .expression e => recurse chain e
  | .variable id _ ty isMutable initializer => do
    lowerDeclaration recurse chain id ty isMutable initializer
    return .unit

/-- Statements in order, up to one that does not complete. The last one gives the value, unless the
    type is that of unit. -/
def lowerStatements (recurse : Recurse) (chain : Chain) (ty : Ty) : Value → List (Statement Expr) → Lower Value
  | last, [] => do
    if (← isTerminated) || last.isUnreachable then return .unreachable ty
    else if ty.isUnit then return .unit
    else return last.withType ty
  | _, statement :: rest => do
    if ← isTerminated then return .unreachable ty
    let value ← lowerStatement recurse chain statement
    lowerStatements recurse chain ty value rest

def lowerSequence (recurse : Recurse) (chain : Chain) (statements : List (Statement Expr)) (ty : Ty) : Lower Value :=
  withScope .variables chain fun inner => lowerStatements recurse inner ty .unit statements

def lowerInlined (recurse : Recurse) (chain : Chain) (function : FunctionId) (body : Expr) (ty : Ty) : Lower Value := do
  let exit ← newContinuation ty "inline.exit"
  withScope (.inlined function exit) chain fun inner => do
    match ← eval recurse inner body with
    | none => return
    | some value => jump exit value
  resumeAt exit

end BlockLowering.Lower
