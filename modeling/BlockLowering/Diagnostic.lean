import BlockLowering.Instr
/-!
What validation can find wrong with a function, and how it is said.
-/
namespace BlockLowering

inductive EdgeFault where
  | missingTarget
  | intoEntry
  deriving DecidableEq, Repr

def EdgeFault.message : EdgeFault → String
  | .missingTarget => "successor does not exist"
  | .intoEntry => "the entry block cannot be a branch target"

inductive PhiFault where
  | notPredecessor (source : BlockId)
  | repeatedEdge (source : BlockId)
  | missingEdge (source : BlockId)
  deriving DecidableEq, Repr

def PhiFault.message : PhiFault → String
  | .notPredecessor source => s!"incoming edge from non-predecessor {source}"
  | .repeatedEdge source => s!"duplicate incoming edge from {source}"
  | .missingEdge source => s!"no incoming value from predecessor {source}"

inductive SignatureFault where
  | returnValue (present : Bool) (result : NativeType)
  | argumentCount (signature : Signature) (count : Nat)
  deriving DecidableEq, Repr

def SignatureFault.message : SignatureFault → String
  | .returnValue present result =>
    let what := if present then "with a value" else "without a value"
    s!"return {what} in a function returning {result}"
  | .argumentCount signature count => s!"call to {signature} passes {count} arguments"

inductive Fault where
  | undefinedRegister (register : Register)
  | useNotDominated (register : Register)
  | multipleDefinitions (register : Register)
  | missingTerminator
  | invalidControlFlow (target : BlockId) (reason : EdgeFault)
  | invalidPhi (phi : Register) (reason : PhiFault)
  | signatureMismatch (reason : SignatureFault)
  deriving DecidableEq, Repr

namespace Fault

def kindName : Fault → String
  | .undefinedRegister _ => "UndefinedRegister"
  | .useNotDominated _ => "UseNotDominated"
  | .multipleDefinitions _ => "MultipleDefinitions"
  | .missingTerminator => "MissingTerminator"
  | .invalidControlFlow .. => "InvalidControlFlow"
  | .invalidPhi .. => "InvalidPhiNode"
  | .signatureMismatch _ => "SignatureMismatch"

def message : Fault → String
  | .undefinedRegister register => s!"register {register} is never defined"
  | .useNotDominated register => s!"use of {register} is not dominated by its definition"
  | .multipleDefinitions register => s!"register {register} is defined more than once"
  | .missingTerminator => "block has no terminator"
  | .invalidControlFlow target reason => s!"invalid edge to {target}: {reason.message}"
  | .invalidPhi phi reason => s!"phi {phi}: {reason.message}"
  | .signatureMismatch reason => reason.message

end Fault

structure Diagnostic where
  fault : Fault
  procedure : ProcId
  block : Option BlockId
  deriving DecidableEq, Repr

def Diagnostic.message (d : Diagnostic) : String :=
  match d.block with
  | some block => s!"{block}: {d.fault.message}"
  | none => d.fault.message

end BlockLowering
