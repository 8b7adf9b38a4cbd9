import BlockLowering.Diagnostic
import BlockLowering.Graph.Dominators
import BlockLowering.Module
/-!
Validation of finished functions, over the blocks that the entry reaches: every block has a terminator
and existing successors, every register has one definition, which dominates its uses, every phi has
one edge for each predecessor, and returns and calls fit their signatures.
-/
namespace BlockLowering

inductive Site where
  | parameter
  | phi (block : BlockId)
  | instr (block : BlockId) (index : Nat)
  /-- The result of an invoke, defined on the edge to `normal` only. -/
  | invoke (normal : BlockId)
  deriving DecidableEq, Repr

structure Definition where
  register : Register
  site : Site
  deriving DecidableEq, Repr

def Terminator.definition? : Terminator → Option Definition
  | .invoke (some dest) _ normal _ => some ⟨dest,.invoke normal⟩
  | _ => none

def Block.definitions (id : BlockId) (b : Block) : List Definition :=
  b.phis.map (fun phi => ⟨phi.dest,.phi id⟩) ++
    b.instrs.zipIdx.filterMap (fun entry => entry.1.dest?.map fun dest => ⟨dest,.instr id entry.2⟩) ++
    (b.terminator.bind Terminator.definition?).toList

structure Validator where
  procedure : Procedure
  tree : DominatorTree
  blocks : List (BlockId × Block)
  definitions : List Definition

namespace Validator

def new (p : Procedure) : Validator :=
  let tree := DominatorTree.compute p.graph
  let blocks := p.graph.blocks.entries.filter fun e => tree.isReachable e.1
  { procedure := p, tree, blocks
    definitions :=
      p.header.parameters.map (fun param => ⟨param.register,.parameter⟩) ++
        blocks.flatMap fun e => e.2.definitions e.1 }

def report (v : Validator) (block : Option BlockId) (fault : Fault) : Diagnostic :=
  ⟨fault,v.procedure.id,block⟩

/-- The site of a register; of several definitions the last one counts. -/
def site? (v : Validator) (register : Register) : Option Site :=
  (v.definitions.reverse.find? fun d => d.register = register).map Definition.site

def predecessors (v : Validator) (block : BlockId) : List BlockId :=
  (v.blocks.filter fun e => block ∈ e.2.successors).map Prod.fst

/-- A report for each definition of a register that was defined before. -/
def repeated (v : Validator) (block : Option BlockId) (earlier : List Register) : List Definition → List Diagnostic
  | [] => []
  | d :: rest =>
    (if d.register ∈ earlier then [v.report block (.multipleDefinitions d.register)] else []) ++
      v.repeated block (d.register :: earlier) rest

def edgeFaults (v : Validator) (block target : BlockId) : List Diagnostic :=
  if !v.procedure.graph.hasBlock target then
    [v.report (some block) (.invalidControlFlow target .missingTarget)]
  else if target = v.procedure.graph.entry then
    [v.report (some block) (.invalidControlFlow target .intoEntry)]
  else []

/-- Repeated definitions, missing terminators and bad edges, block by block; `earlier` holds the
    registers defined before. -/
def shapeFaults (v : Validator) (earlier : List Register) : List (BlockId × Block) → List Diagnostic
  | [] => []
  | (id, b) :: rest =>
    let definitions := b.definitions id
    v.repeated (some id) earlier definitions ++
      (if b.isTerminated then [] else [v.report (some id) .missingTerminator]) ++
      b.successors.flatMap (v.edgeFaults id) ++
      v.shapeFaults (earlier ++ definitions.map Definition.register) rest

/-- Whether a site is available to the instruction at `index` of a block. -/
def availableAt (v : Validator) (block : BlockId) (index : Nat) : Site → Bool
  | .parameter => true
  | .phi source => v.tree.dominates source block
  | .instr source position =>
    if source = block then position < index else v.tree.dominates source block
  | .invoke normal => v.tree.dominates normal block

/-- Whether a site is available on the edge from `pred` to `block`. -/
def availableOn (v : Validator) (pred block : BlockId) : Site → Bool
  | .parameter => true
  | .phi source | .instr source _ => v.tree.dominates source pred
  | .invoke normal => normal = block || v.tree.dominates normal pred

/-- What is wrong with a use that needs its site to pass a test. -/
def useFaults (v : Validator) (block : BlockId) (available : Site → Bool) (register : Register) : List Diagnostic :=
  match v.site? register with
  | none => [v.report (some block) (.undefinedRegister register)]
  | some site =>
    if available site then [] else [v.report (some block) (.useNotDominated register)]

/-- What is wrong with the incoming edges of a phi; `seen` holds the sources of the earlier ones.
    Edges from unreachable blocks do not count. -/
def incomingFaults (v : Validator) (block : BlockId) (phi : Register) (preds seen : List BlockId) :
    List (BlockId × Register) → List Diagnostic
  | [] => (preds.filter fun pred => pred ∉ seen).map fun pred =>
      v.report (some block) (.invalidPhi phi (.missingEdge pred))
  | (source, value) :: rest =>
    if !v.tree.isReachable source then v.incomingFaults block phi preds seen rest
    else
      (if source ∈ preds then [] else [v.report (some block) (.invalidPhi phi (.notPredecessor source))]) ++
        (if source ∈ seen then [v.report (some block) (.invalidPhi phi (.repeatedEdge source))] else []) ++
        v.useFaults block (v.availableOn source block) value ++
        v.incomingFaults block phi preds (source :: seen) rest

def callFaults (v : Validator) (block : BlockId) (site : CallSite) : List Diagnostic :=
  if site.args.length = site.signature.params.length then []
  else [v.report (some block) (.signatureMismatch (.argumentCount site.signature site.args.length))]

def instrFaults (v : Validator) (block : BlockId) (index : Nat) (instr : Instr) : List Diagnostic :=
  instr.uses.flatMap (v.useFaults block (v.availableAt block index)) ++
    match instr with
    | .call _ site => v.callFaults block site
    | _ => []

def terminatorFaults (v : Validator) (block : BlockId) (index : Nat) (terminator : Terminator) : List Diagnostic :=
  terminator.uses.flatMap (v.useFaults block (v.availableAt block index)) ++
    match terminator with
    | .invoke _ site _ _ => v.callFaults block site
    | .ret value =>
      let result := v.procedure.header.result
      if result.isVoid = value.isNone then []
      else [v.report (some block) (.signatureMismatch (.returnValue value.isSome result))]
    | _ => []

def blockFaults (v : Validator) (id : BlockId) (b : Block) : List Diagnostic :=
  let preds := v.predecessors id
  b.phis.flatMap (fun phi => v.incomingFaults id phi.dest preds [] phi.incoming) ++
    b.instrs.zipIdx.flatMap (fun entry => v.instrFaults id entry.2 entry.1) ++
    b.terminator.toList.flatMap (v.terminatorFaults id b.instrs.length)

def faults (v : Validator) : List Diagnostic :=
  let parameters := v.procedure.header.parameters.map fun param => Definition.mk param.register .parameter
  v.repeated none [] parameters ++
    v.shapeFaults (parameters.map Definition.register) v.blocks ++
    v.blocks.flatMap fun e => v.blockFaults e.1 e.2

end Validator

/-- Everything that is wrong with a function; nothing for a valid one. -/
def Procedure.validate (p : Procedure) : List Diagnostic := (Validator.new p).faults

def Module.validate (m : Module) : List Diagnostic := m.procedures.values.flatMap Procedure.validate

end BlockLowering
