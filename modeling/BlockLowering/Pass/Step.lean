import BlockLowering.Pass.ArrayLiteral
import BlockLowering.Pass.ControlFlow
import BlockLowering.Pass.Guarded
import BlockLowering.Pass.Singleton
/-!
Lowering of expressions. One step deals with one node and leaves its children to a function that it is
given; the whole is the step applied to itself, as often as the tree and the finalizers around it are
large. Every child is smaller than its node, so the bound is never met.
-/
namespace BlockLowering

namespace Lower

def stepNode (recurse : Recurse) (chain : Chain) (e : Expr) : Lower Value :=
  match e.node with
  | .call call => lowerCall recurse chain call e.ty
  | .delegate constructor arguments => lowerDelegate recurse chain constructor arguments
  | .readVar var => readVariable chain var e.location
  | .writeVar var value => lowerWriteVar recurse chain var value e.location
  | .readField field receiver => lowerReadField recurse chain field receiver e.ty
  | .writeField field receiver value => lowerWriteField recurse chain field receiver value
  | .constant value => lowerConstant value e.ty
  | .returnFrom target value => lowerReturn recurse chain target value
  | .choice branches => lowerChoice recurse chain branches e.ty
  | .raise exception => lowerRaise recurse chain exception
  | .guarded body clauses finalizer => lowerGuarded recurse chain body clauses finalizer e.ty
  | .inlined function body => lowerInlined recurse chain function body e.ty
  | .sequence statements => lowerSequence recurse chain statements e.ty
  | .whileLoop loop condition body => lowerWhile recurse chain loop condition body
  | .repeatLoop loop body condition => lowerRepeat recurse chain loop body condition
  | .arrayLiteral elementType items => lowerArrayLiteral recurse chain elementType items e.ty
  | .breakFrom loop => lowerBreak recurse chain loop
  | .continueWith loop => lowerContinue recurse chain loop
  | .singleton cls => lowerSingleton chain cls e.ty
  | .functionRef function => lowerFunctionRef function e.ty
  | .typeOp operator operand target => lowerTypeOp recurse chain e operator operand target

/-- Lower an expression, unless the path has ended before it. -/
def step (recurse : Recurse) : Recurse := fun chain e => do
  if ← isTerminated then return .unreachable e.ty
  log (.loweringExpr e.kindName e.ty e.location)
  stepNode recurse chain e

/-- Lower an expression with a bound on the depth of the recursion. -/
def lowerWithin : Nat → Recurse
  | 0 => fun _ _ => breach .depthExceeded
  | depth + 1 => step (lowerWithin depth)

def lowerExpr (chain : Chain) (e : Expr) : Lower Value := lowerWithin (chain.weight + e.size) chain e

end Lower

end BlockLowering
