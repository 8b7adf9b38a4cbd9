import BlockLowering.Pass.Symbols
/-!
The one way in which paths join. A continuation is a block with a phi for the merged value; every jump
to it records the value of the path it comes from, and a path that has ended jumps nowhere.
-/
namespace BlockLowering.Lower

def newContinuation (ty : Ty) (label : String) : Lower Continuation := do
  let block ← build (Build.labelledBlock label)
  if ty.isValueless then return ⟨block,none,ty⟩
  else
    let phi ← build (Build.phi block ty.storage)
    return ⟨block,some phi,ty⟩

/-- Go on at a continuation with a value, unless the path has ended. -/
def jump (target : Continuation) (value : Value) : Lower Unit := do
  if ← isTerminated then return
  let source ← build Build.insertionBlock
  match target.phi with
  | none => build (Build.branch target.block)
  | some phi =>
    let incoming ← materialize value
    build do
      Build.branch target.block
      Build.addIncoming target.block phi source incoming

/-- Move to a block; one that nothing jumps to is dead and is closed at once. -/
def enterBlock (block : BlockId) : Lower Bool := do
  build (Build.switchTo block)
  let builder := (← get).builder
  let live := ((builder.block? block).map fun b => !b.predecessors.isEmpty).getD false
  if !live && !builder.isTerminated then build Build.unreachable
  return live

/-- Continue at a continuation, with its value if any path leads there. -/
def resumeAt (target : Continuation) : Lower Value := do
  if ← enterBlock target.block then return target.value
  else return .unreachable target.ty

/-- Lower an expression; there is a value only if control goes on after it. -/
def eval (recurse : Recurse) (chain : Chain) (e : Expr) : Lower (Option Value) := do
  let value ← recurse chain e
  if value.isUnreachable || (← isTerminated) then return none else return some value

end BlockLowering.Lower
