import BlockLowering.Annotation
import BlockLowering.Native
/-!
Instructions, terminators and phis. Every instruction falls through to the next one; control leaves a
block only by its terminator.
-/
namespace BlockLowering

structure Register where
  index : Nat
  deriving DecidableEq, Repr

namespace Register

/-- The register of a parameter that no function has numbered yet. -/
def unassigned : Register := ⟨Nat.pow 2 32 - 1⟩

def isAssigned (r : Register) : Bool := r.index != unassigned.index

instance : ToString Register := ⟨fun r => s!"%{r.index}"⟩

end Register

structure BlockId where
  index : Nat
  deriving DecidableEq, Repr

namespace BlockId

def first : BlockId := ⟨0⟩

instance : ToString BlockId := ⟨fun id => s!"bb{id.index}"⟩

end BlockId

inductive BinaryOp where
  | add | sub | mul | div | rem
  | and | or | xor | shl | shr
  | fadd | fsub | fmul | fdiv | frem
  deriving DecidableEq, Repr

inductive UnaryOp where
  | neg | not | fneg
  deriving DecidableEq, Repr

inductive CompareOp where
  | eq | ne | lt | le | gt | ge
  | feq | fne | flt | fle | fgt | fge
  deriving DecidableEq, Repr

inductive CastKind where
  | trunc
  | signExtend
  | zeroExtend
  | intToFloat
  | floatToInt
  | floatResize
  | bitcast
  deriving DecidableEq, Repr

inductive Callee where
  /-- A function of the module, defined or external. -/
  | direct (id : ProcId)
  | indirect (pointer : Register)
  deriving DecidableEq, Repr

structure CallSite where
  callee : Callee
  args : List Register
  signature : Signature
  lifetime : Lifetime
  deriving DecidableEq

inductive Instr where
  | const (dest : Register) (value : Literal)
  | alloc (dest : Register) (type : NativeType)
  | load (dest ptr : Register) (type : NativeType)
  | store (ptr value : Register)
  /-- The address of an element inside the aggregate that `ptr` points to. -/
  | element (dest ptr : Register) (indices : List Nat) (type : NativeType)
  | binary (dest : Register) (op : BinaryOp) (left right : Register)
  | unary (dest : Register) (op : UnaryOp) (operand : Register)
  | compare (dest : Register) (op : CompareOp) (left right : Register)
  | cast (dest source : Register) (kind : CastKind) (type : NativeType)
  | call (dest : Option Register) (site : CallSite)
  /-- The exception record, first thing in a landing pad. -/
  | landingPad (dest : Register)
  deriving DecidableEq

inductive Terminator where
  | branch (target : BlockId)
  | condBranch (condition : Register) (onTrue onFalse : BlockId)
  | ret (value : Option Register)
  /-- A call whose exceptions unwind into a block; `dest` is defined on the normal edge only. -/
  | invoke (dest : Option Register) (site : CallSite) (normal unwind : BlockId)
  | unreachable
  deriving DecidableEq

structure Phi where
  dest : Register
  incoming : List (BlockId × Register)
  type : NativeType
  deriving DecidableEq

namespace CallSite

/-- The registers a call reads, the function pointer first. -/
def uses (site : CallSite) : List Register :=
  match site.callee with
  | .direct _ => site.args
  | .indirect pointer => pointer :: site.args

end CallSite

namespace Instr

def dest? : Instr → Option Register
  | .const dest _ | .alloc dest _ | .load dest _ _ | .element dest _ _ _ | .binary dest _ _ _
  | .unary dest _ _ | .compare dest _ _ _ | .cast dest _ _ _ | .landingPad dest => some dest
  | .call dest _ => dest
  | .store _ _ => none

def uses : Instr → List Register
  | .const _ _ | .alloc _ _ | .landingPad _ => []
  | .load _ ptr _ => [ptr]
  | .store ptr value => [ptr,value]
  | .element _ ptr _ _ => [ptr]
  | .binary _ _ left right => [left,right]
  | .unary _ _ operand => [operand]
  | .compare _ _ left right => [left,right]
  | .cast _ source _ _ => [source]
  | .call _ site => site.uses

def hasSideEffects : Instr → Bool
  | .store .. | .call .. | .landingPad .. => true
  | _ => false

def isAlloc : Instr → Bool
  | .alloc .. => true
  | _ => false

def isCall : Instr → Bool
  | .call .. => true
  | _ => false

end Instr

namespace Terminator

def successors : Terminator → List BlockId
  | .branch target => [target]
  | .condBranch _ onTrue onFalse => [onTrue,onFalse]
  | .invoke _ _ normal unwind => [normal,unwind]
  | .ret _ | .unreachable => []

def uses : Terminator → List Register
  | .condBranch condition _ _ => [condition]
  | .ret value => value.toList
  | .invoke _ site _ _ => site.uses
  | .branch _ | .unreachable => []

def dest? : Terminator → Option Register
  | .invoke dest _ _ _ => dest
  | _ => none

def isInvoke : Terminator → Bool
  | .invoke .. => true
  | _ => false

end Terminator

end BlockLowering
