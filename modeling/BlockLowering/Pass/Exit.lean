import BlockLowering.Pass.Unwind
/-!
Returns, breaks and continues. An exit goes outwards to the scope that is its target. Each finalizing
scope on the way is given one cleanup block for the exit, shared by all jumps that take it: the block
runs the finalizer outside that scope and then goes on with the exit from there.
-/
namespace BlockLowering.Lower

/-- The type of the value that an exit carries through a finalizer. -/
def exitType (exit : Exit) (value : Value) : Ty :=
  match exit with
  | .returning _ => value.ty
  | _ => .unit

def returnFrom (returnsVoid : Bool) (value : Value) : Lower Unit := do
  if returnsVoid then build (Build.ret none)
  else
    let register ← materialize value
    build (Build.ret (some register))

/-- Go back to the test of a loop, unless the path has ended. -/
def restart (check : BlockId) : Lower Unit := do
  if ← isTerminated then return else build (Build.branch check)

/-- Take an exit with a value. -/
def leave (recurse : Recurse) : Chain → Exit → Value → Lower Unit
  | [], exit, _ => throw (.invalidTransfer exit.request)
  | ⟨id,.finalizing finalizer⟩ :: outer, exit, value => do
    match (← scopeState id).cleanups.get? exit with
    | some cleanup => jump cleanup value
    | none =>
      let cleanup ← newContinuation (exitType exit value) "finally.cleanup"
      modifyScope id fun scope => { scope with cleanups := scope.cleanups.insert exit cleanup }
      log (.cleanup exit cleanup.block)
      jump cleanup value
      atBlock cleanup.block do
        match ← eval recurse outer finalizer with
        | none => return
        | some _ => leave recurse outer exit cleanup.value
  | ⟨_,.function (some function) returnsVoid _⟩ :: outer, .returning target, value =>
    if function = target then returnFrom returnsVoid value else leave recurse outer (.returning target) value
  | ⟨_,.inlined function exit⟩ :: outer, .returning target, value =>
    if function = target then jump exit value else leave recurse outer (.returning target) value
  | ⟨_,.loop loop exit _⟩ :: outer, .breaking target, value =>
    if loop = target then jump exit .unit else leave recurse outer (.breaking target) value
  | ⟨_,.loop loop _ check⟩ :: outer, .continuing target, value =>
    if loop = target then restart check else leave recurse outer (.continuing target) value
  | _ :: outer, exit, value => leave recurse outer exit value

def lowerReturn (recurse : Recurse) (chain : Chain) (target : FunctionId) (value : Expr) : Lower Value := do
  if let some value ← eval recurse chain value then leave recurse chain (.returning target) value
  return .unreachable .never

def lowerBreak (recurse : Recurse) (chain : Chain) (loop : LoopId) : Lower Value := do
  leave recurse chain (.breaking loop) .unit
  return .unreachable .never

def lowerContinue (recurse : Recurse) (chain : Chain) (loop : LoopId) : Lower Value := do
  leave recurse chain (.continuing loop) .unit
  return .unreachable .never

end BlockLowering.Lower
