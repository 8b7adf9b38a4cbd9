import BlockLowering.Pass.Step
import BlockLowering.Listing
import BlockLowering.Validation
/-!
Lowering of programs, in two rounds over the units: first every function with a body and every static
field gets its symbol, so that bodies may refer to each other in any order, and then the bodies follow
unit by unit. The static fields of a unit that no constant initializes are initialized by one function,
which a constructor of the module links into the list of initializers.
-/
namespace BlockLowering

def Procedure.verify (p : Procedure) : Except Error Unit :=
  match p.validate with
  | [] => .ok ()
  | diagnostics => .error (.verification p.name diagnostics p.listing)

namespace Lower

def declareFunction (id : FunctionId) : Lower Unit := do
  let decls := (← read).decls
  let function ← decls.getFunction id
  let proc ← build (Build.declareProcedure (decls.functionSymbol function) function.nativeHeader)
  modifySymbols fun symbols => { symbols with functions := symbols.functions.insert id proc }

def declareStaticField (id : FieldId) : Lower Unit := do
  let decls := (← read).decls
  let field ← decls.getField id
  let initial ← match field.constantInitializer with
    | some constant => literalOf constant
    | none => pure field.ty.storage.zero
  let linkage := if field.isExternal then Linkage.imported else .exported
  let global ← onModule fun m =>
    m.defineGlobal (decls.fieldSymbol field) field.ty.storage (some initial) true linkage
  modifySymbols fun symbols => { symbols with globals := symbols.globals.insert (.staticField id) global }

def declareUnit (unit : SourceUnit) : Lower Unit := do
  unit.functions.forM fun body => declareFunction body.function
  unit.staticFields.forM declareStaticField

/-- Check a function of the output; a report of what is wrong with it goes to the log first. -/
def verify (p : Procedure) : Lower Unit := do
  if !p.validate.isEmpty then
    log (.verificationFailed p.name (Error.diagnosticsText p.validate))
    if (← read).settings.dumpOnFailure then
      log (.procedureListing p.listing)
      log (.moduleListing (← get).builder.output.listing)
  p.verify

def outputProcedure (id : ProcId) : Lower Procedure := do
  match (← get).builder.output.procedures.get? id with
  | some p => return p
  | none => breach (.procedureVanished id)

def pruneProcedure (id : ProcId) : Lower Unit := do
  let p ← outputProcedure id
  modify fun s => { s with builder := { s.builder with
    output := s.builder.output.modifyProcedure id fun p => p.modifyGraph Graph.prune } }
  if 0 < p.graph.prunedCount then log (.prunedBlocks p.graph.prunedCount p.name)

/-- Leave a function; it is pruned and checked as the settings say. -/
def finishFunction (id : ProcId) : Lower Unit := do
  build Build.finishProcedure
  let _ ← outputProcedure id
  if (← read).settings.prune then pruneProcedure id
  if (← read).settings.verify then verify (← outputProcedure id)

def bindParameters (chain : Chain) : List (ParameterDecl × Register) → Lower Unit
  | [] => return
  | (parameter, register) :: rest => do
    declareVariable chain parameter.id (.value (.ofRegister register parameter.ty))
    bindParameters chain rest

/-- End a function whose body may have run off its end. -/
def closeFunction (returnsVoid : Bool) : Lower Unit := do
  if ← isTerminated then return
  else if returnsVoid then build (Build.ret none)
  else build Build.unreachable

def parameterRegisters (function : FunctionDecl) : Lower (List (ParameterDecl × Register)) := do
  let parameters := ((← get).builder.procedure?.map fun p => p.header.parameters).getD []
  if parameters.length < function.allParameters.length then breach (.parameterCount function.name)
  else return function.allParameters.zip (parameters.map Parameter.register)

def lowerFunction (body : FunctionBody) : Lower Unit := do
  let function ← (← read).decls.getFunction body.function
  let proc ← procedureOf body.function
  log (.loweringFunction function.name proc)
  build do
    Build.beginProcedure proc
    Build.modifyProcedure fun p => { p with location := body.body.location }
  resetScopes
  let bindings ← parameterRegisters function
  let receiver := function.dispatchReceiver.bind fun parameter =>
    bindings.head?.map fun binding => Value.ofRegister binding.2 parameter.ty
  withScope (.function (some function.id) function.returnsVoid receiver) [] fun chain => do
    bindParameters chain bindings
    let _ ← lowerExpr chain body.body
    closeFunction function.returnsVoid
  finishFunction proc

/-- The static fields of a unit that are initialized when the program runs. -/
def pendingInitializers : List FieldId → Lower (List (FieldId × Expr))
  | [] => return []
  | id :: rest => do
    let field ← (← read).decls.getField id
    let pending ← pendingInitializers rest
    match field.constantInitializer, field.initializer with
    | none, some initializer => return (id, initializer) :: pending
    | _, _ => return pending

/-- Initialize static fields in order and return, unless an initializer does not complete. -/
def lowerInitializers (chain : Chain) : List (FieldId × Expr) → Lower Unit
  | [] => build (Build.ret none)
  | (field, initializer) :: rest => do
    match ← eval lowerExpr chain initializer with
    | none => return
    | some value =>
      let register ← materialize value
      let global ← globalOf (.staticField field)
      build do
        let ptr ← Build.const (.global global)
        Build.store ptr register
      lowerInitializers chain rest

def initializerHeader : Header := ⟨[],.void⟩

/-- A node of the list of initializers: the function and the next node. -/
def initializerNode : NativeType := .struct "InitNode" [.ptr,.ptr]

def lowerInitializerFunction (unit : SourceUnit) (pending : List (FieldId × Expr)) : Lower ProcId := do
  let proc ← build (Build.startProcedure s!"{unit.name}$init_globals" initializerHeader)
  resetScopes
  withScope (.function none true none) [] fun chain => lowerInitializers chain pending
  finishFunction proc
  return proc

def lowerInitializerLink (unit : SourceUnit) (initializer : ProcId) : Lower ProcId := do
  let node ← onModule fun m =>
    m.defineGlobal s!"{unit.name}$init_node" initializerNode
      (some (.aggregate [.proc initializer,.null])) true .internal
  let proc ← build (Build.startProcedure s!"{unit.name}$init_ctor" initializerHeader)
  let ptr ← build (Build.const (.global node))
  let _ ← callPlain (← supportTarget .appendInitializer) [ptr]
  build (Build.ret none)
  finishFunction proc
  return proc

/-- The initialization of the static fields of a unit, if any is left to the running program. -/
def lowerUnitInitializers (unit : SourceUnit) : Lower Unit := do
  let pending ← pendingInitializers unit.staticFields
  if pending.isEmpty then return
  log (.loweringInitializers pending.length unit.name)
  let initializer ← lowerInitializerFunction unit pending
  let constructor ← lowerInitializerLink unit initializer
  onModule fun m => ((), m.addConstructor constructor)
  log (.registeredConstructor constructor unit.name)

/-- Lower the functions of a unit in order, then its initializers. -/
def lowerUnit (unit : SourceUnit) : Lower Unit := do
  log (.loweringUnit unit.name)
  unit.functions.forM lowerFunction
  lowerUnitInitializers unit

def lowerUnits (units : List SourceUnit) : Lower Module := do
  log (.declaringUnits units.length)
  units.forM declareUnit
  units.forM lowerUnit
  let m := (← get).builder.output
  log (.loweredModule m.name m.procedures.size m.externs.size m.globals.size m.constructors.length)
  return m

end Lower

/-- What a run gives: the module or the reason why there is none, and the log in order. -/
structure Outcome where
  result : Except Error Module
  log : List Event

/-- Lower units into a module, with a layout of the objects and the strings placed before. -/
def lowerProgram (environment : Environment) (strings : StringPool) (units : List SourceUnit) : Outcome :=
  let (result, state) := (Lower.lowerUnits units environment).run (State.start environment.settings strings)
  ⟨result,state.log.reverse⟩

def lowerModule (settings : Settings) (decls : Declarations) (units : List SourceUnit) : Outcome :=
  lowerProgram ⟨decls,settings,.ofDeclarations decls⟩ .empty units

end BlockLowering
