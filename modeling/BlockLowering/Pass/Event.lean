import BlockLowering.Declarations
/-!
What a lowering run reports of its progress, in the order in which things happen.
-/
namespace BlockLowering

/-- How much a reader of the log wants to know, from little to much. -/
inductive LogLevel where
  | error
  | warn
  | info
  | debug
  | trace
  deriving DecidableEq, Repr

namespace LogLevel

def name : LogLevel → String
  | .error => "ERROR"
  | .warn => "WARN"
  | .info => "INFO"
  | .debug => "DEBUG"
  | .trace => "TRACE"

/-- The rank of a level: a log of some level holds the events of no higher rank. -/
def rank : LogLevel → Nat
  | .error => 1
  | .warn => 2
  | .info => 3
  | .debug => 4
  | .trace => 5

end LogLevel

/-- An exit that leaves the scopes up to its target. -/
inductive Exit where
  | returning (target : FunctionId)
  | breaking (loop : LoopId)
  | continuing (loop : LoopId)
  deriving DecidableEq, Repr

namespace Exit

def request : Exit → Request
  | .returning _ => .returning
  | .breaking _ => .breaking
  | .continuing _ => .continuing

def text : Exit → String
  | .returning target => s!"Return(FunctionId({target.index}))"
  | .breaking loop => s!"Break(LoopId({loop.index}))"
  | .continuing loop => s!"Continue(LoopId({loop.index}))"

end Exit

inductive Event where
  | declaringUnits (count : Nat)
  | loweringUnit (name : String)
  | loweringInitializers (count : Nat) (name : String)
  | loweredModule (name : String) (procedures externs globals constructors : Nat)
  | loweringFunction (name : String) (id : ProcId)
  | prunedBlocks (count : Nat) (procedure : String)
  | registeredConstructor (id : ProcId) (unit : String)
  | cleanup (exit : Exit) (block : BlockId)
  | landingPad (block : BlockId) (scope : Nat)
  | finallyHandler (block : BlockId)
  | verificationFailed (procedure : String) (message : String)
  | procedureListing (listing : String)
  | moduleListing (listing : String)
  | declaredVariable (var : VarId) (scope : Nat)
  | declaredExtern (symbol : String) (id : ProcId)
  | foldedFactory (factory : ConstantFactory) (data : DataId)
  | loweringExpr (kind : String) (ty : Ty) (location : Location)
  deriving DecidableEq

namespace Event

def level : Event → LogLevel
  | .procedureListing _ | .moduleListing _ => .error
  | .verificationFailed .. => .warn
  | .declaringUnits _ | .loweringUnit _ | .loweringInitializers .. | .loweredModule .. => .info
  | .loweringFunction .. | .prunedBlocks .. | .registeredConstructor .. | .cleanup .. | .landingPad ..
  | .finallyHandler _ => .debug
  | .declaredVariable .. | .declaredExtern .. | .foldedFactory .. | .loweringExpr .. => .trace

def message : Event → String
  | .declaringUnits count => s!"declaring {count} units"
  | .loweringUnit name => s!"lowering unit {name}"
  | .loweringInitializers count name => s!"lowering {count} static initializers of {name}"
  | .loweredModule name procedures externs globals constructors =>
    s!"lowered module {name}: {procedures} functions, {externs} externs, {globals} globals, {constructors} constructors"
  | .loweringFunction name id => s!"lowering function {name} as {id}"
  | .prunedBlocks count procedure => s!"pruned {count} unreachable blocks from {procedure}"
  | .registeredConstructor id unit => s!"registered global constructor {id} for {unit}"
  | .cleanup exit block => s!"cleanup {exit.text} through {block}"
  | .landingPad block scope => s!"landing pad {block} for scope {scope}"
  | .finallyHandler block => s!"finally handler {block}"
  | .verificationFailed procedure message => s!"verification of {procedure} failed: {message}"
  | .procedureListing listing => s!"function dump:\n{listing}"
  | .moduleListing listing => s!"module dump:\n{listing}"
  | .declaredVariable var scope => s!"declare {var} in scope {scope}"
  | .declaredExtern symbol id => s!"extern {symbol} -> {id}"
  | .foldedFactory factory data => s!"folded {factory.name} into {data}"
  | .loweringExpr kind ty location => s!"lower {kind} : {ty} at {location}"

def line (e : Event) : String := s!"{e.level.name} {e.message}"

end Event

end BlockLowering
