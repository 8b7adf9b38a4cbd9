import BlockLowering.Error
import BlockLowering.Module
/-!
Construction of a module at a cursor, the function and the block that code is appended to. Nothing is
appended to a block that has a terminator. An operation that fails keeps the register it has taken and
changes nothing else.
-/
namespace BlockLowering

structure Builder where
  output : Module
  current : Option ProcId
  cursor : Option BlockId
  /-- Whether new blocks keep the label they are given. -/
  emitLabels : Bool
  deriving DecidableEq

namespace Builder

def new (name : String) : Builder := ⟨.new name,none,none,true⟩

def procedure? (b : Builder) : Option Procedure := b.current.bind b.output.procedures.get?

def block? (b : Builder) (id : BlockId) : Option Block := b.procedure?.bind fun p => p.graph.block? id

/-- Whether nothing can be appended to a block, because it is terminated or missing. -/
def blockIsTerminated (b : Builder) (id : BlockId) : Bool := ((b.block? id).map Block.isTerminated).getD true

/-- Whether nothing can be appended at the cursor. -/
def isTerminated (b : Builder) : Bool :=
  match b.cursor with
  | some id => b.blockIsTerminated id
  | none => true

def registerType? (b : Builder) (register : Register) : Option NativeType :=
  b.procedure?.bind fun p => p.registerTypes.get? register

def modifyProcedure (b : Builder) (f : Procedure → Procedure) : Builder :=
  match b.current with
  | some id => { b with output := b.output.modifyProcedure id f }
  | none => b

end Builder

/-- Steps of construction. The state survives a failure. -/
abbrev Build := ExceptT Error (StateM Builder)

namespace Build

def breach {α : Type} (b : Breach) : Build α := throw (.internal b)

def modifyProcedure (f : Procedure → Procedure) : Build Unit := modify fun b => b.modifyProcedure f

def procedure : Build Procedure := do
  match (← get).procedure? with
  | some p => return p
  | none => breach .noProcedure

def declareProcedure (name : String) (header : Header) : Build ProcId := do
  let b ← get
  let (id, output) := b.output.takeProcedureId
  set { b with output := output.addProcedure (.new id name header) }
  return id

def startProcedure (name : String) (header : Header) : Build ProcId := do
  let id ← declareProcedure name header
  modify fun b => { b with current := some id, cursor := some .first }
  return id

def beginProcedure (id : ProcId) : Build Unit := do
  match (← get).output.procedures.get? id with
  | some p => modify fun b => { b with current := some id, cursor := some p.graph.entry }
  | none => breach (.procedureUndeclared id)

def finishProcedure : Build Unit := modify fun b => { b with current := none, cursor := none }

def newBlock : Build BlockId := do
  let p ← procedure
  modifyProcedure fun p => { p with graph := p.graph.createBlock.2 }
  return p.graph.createBlock.1

def labelledBlock (label : String) : Build BlockId := do
  let id ← newBlock
  if (← get).emitLabels then
    modifyProcedure fun p => p.modifyBlock id fun b => { b with label := some label }
  return id

def switchTo (block : BlockId) : Build Unit := modify fun b => { b with cursor := some block }

def insertionBlock : Build BlockId := do
  match (← get).cursor with
  | some id => return id
  | none => breach .noInsertionBlock

/-- The block at the cursor, which has to exist and to lack a terminator. -/
def openBlock : Build BlockId := do
  let id ← insertionBlock
  let p ← procedure
  match p.graph.block? id with
  | none => breach (.noBlock id)
  | some block => if block.isTerminated then throw (.terminatedBlock p.name id) else return id

def allocRegister (type : NativeType) : Build Register := do
  let p ← procedure
  modifyProcedure fun p => (p.allocRegister type).2
  return (p.allocRegister type).1

def append (instr : Instr) : Build Unit := do
  let id ← openBlock
  modifyProcedure fun p => p.modifyBlock id fun b => b.append instr

def define (type : NativeType) (instr : Register → Instr) : Build Register := do
  let dest ← allocRegister type
  append (instr dest)
  return dest

def typedConst (value : Literal) (type : NativeType) : Build Register :=
  define type fun dest => .const dest value

def const (value : Literal) : Build Register := typedConst value value.type

/-- A stack slot, after those at the head of the entry block, where it precedes every use. -/
def alloc (type : NativeType) : Build Register := do
  let dest ← allocRegister .ptr
  let p ← procedure
  if p.graph.hasBlock p.graph.entry then
    modifyProcedure fun p => p.modifyBlock p.graph.entry fun b => b.addAlloc (.alloc dest type)
    return dest
  else breach .noEntryBlock

def load (ptr : Register) (type : NativeType) : Build Register :=
  define type fun dest => .load dest ptr type

def store (ptr value : Register) : Build Unit := append (.store ptr value)

def element (ptr : Register) (indices : List Nat) (type : NativeType) : Build Register :=
  define .ptr fun dest => .element dest ptr indices type

/-- A binary operation of the type of its left operand, or else of its right one. -/
def binary (op : BinaryOp) (left right : Register) : Build Register := do
  let b ← get
  let type := ((b.registerType? left).or (b.registerType? right)).getD .i32
  define type fun dest => .binary dest op left right

def unary (op : UnaryOp) (operand : Register) : Build Register := do
  let type := ((← get).registerType? operand).getD .i32
  define type fun dest => .unary dest op operand

def compare (op : CompareOp) (left right : Register) : Build Register :=
  define .bool fun dest => .compare dest op left right

def cast (source : Register) (kind : CastKind) (type : NativeType) : Build Register :=
  define type fun dest => .cast dest source kind type

def bitcast (source : Register) (type : NativeType) : Build Register := cast source .bitcast type

def resultRegister (signature : Signature) : Build (Option Register) := do
  if signature.returnsVoid then return none else return some (← allocRegister signature.result)

def call (site : CallSite) : Build (Option Register) := do
  let dest ← resultRegister site.signature
  append (.call dest site)
  return dest

def landingPad : Build Register := define .ptr .landingPad

/-- End the block at the cursor and record the edges to its successors. -/
def terminate (t : Terminator) : Build Unit := do
  let id ← openBlock
  modifyProcedure fun p =>
    (p.modifyBlock id fun b => { b with terminator := some t }).modifyGraph fun g =>
      t.successors.foldl (fun g target => g.connect id target) g

def branch (target : BlockId) : Build Unit := terminate (.branch target)

def condBranch (condition : Register) (onTrue onFalse : BlockId) : Build Unit :=
  terminate (.condBranch condition onTrue onFalse)

def ret (value : Option Register) : Build Unit := terminate (.ret value)

def invoke (site : CallSite) (normal unwind : BlockId) : Build (Option Register) := do
  let dest ← resultRegister site.signature
  terminate (.invoke dest site normal unwind)
  return dest

def unreachable : Build Unit := terminate .unreachable

def phi (block : BlockId) (type : NativeType) : Build Register := do
  let dest ← allocRegister type
  let p ← procedure
  if p.graph.hasBlock block then
    modifyProcedure fun p => p.modifyBlock block fun b => b.addPhi ⟨dest,[],type⟩
    return dest
  else breach (.noBlock block)

/-- The phis with an edge added to the first one that defines a register. -/
def withIncoming (dest : Register) (edge : BlockId × Register) : List Phi → List Phi
  | [] => []
  | phi :: rest =>
    if phi.dest = dest then { phi with incoming := phi.incoming ++ [edge] } :: rest
    else phi :: withIncoming dest edge rest

def addIncoming (block : BlockId) (dest : Register) (source : BlockId) (value : Register) : Build Unit := do
  let p ← procedure
  let phis := ((p.graph.block? block).map Block.phis).getD []
  if phis.any fun phi => phi.dest = dest then
    modifyProcedure fun p => p.modifyBlock block fun b =>
      { b with phis := withIncoming dest (source, value) b.phis }
  else breach (.noPhi dest block)

def int (value : Int) (type : NativeType) : Build Register :=
  match type with
  | .i8 => const (.i8 (.ofInt value))
  | .i16 => const (.i16 (.ofInt value))
  | .i32 => const (.i32 (.ofInt value))
  | .i64 => const (.i64 (.ofInt value))
  | other => throw (.typeMismatch .integer (.inl other) .unknown)

def bool (value : Bool) : Build Register := const (.bool value)

def null : Build Register := const .null

end Build

end BlockLowering
