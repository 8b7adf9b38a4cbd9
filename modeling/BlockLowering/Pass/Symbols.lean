import BlockLowering.Pass.Scope
import BlockLowering.Support
/-!
The symbols that the code of a module refers to. A symbol is entered into the module when it is first
needed: as external, unless the module defines it.
-/
namespace BlockLowering

/-- The native header of a declared function: receivers first, then the value parameters. -/
def FunctionDecl.nativeHeader (f : FunctionDecl) : Header where
  parameters := f.allParameters.map fun p => Parameter.new p.name p.ty.storage
  result := if f.isConstructor then .void else f.returnType.returned

structure CallTarget where
  callee : Callee
  signature : Signature
  canThrow : Bool
  deriving DecidableEq

structure GlobalSpec where
  name : String
  type : NativeType
  initializer : Option Literal
  isMutable : Bool
  linkage : Linkage

/-- How the global for a role is entered; a static field is external unless its unit is lowered here. -/
def Environment.globalSpec (env : Environment) : GlobalRole → Except Error GlobalSpec
  | .staticField id => do
    let field ← env.decls.getField id
    return ⟨env.decls.fieldSymbol field,field.ty.storage,none,true,.imported⟩
  | .descriptor cls => do
    let decl ← env.decls.getClass cls
    let type ← env.layout.descriptorType cls
    return ⟨s!"{decl.name}$typeinfo",type,none,false,if decl.isExternal then .imported else .exported⟩
  | .singleton cls => do
    let decl ← env.decls.getClass cls
    if decl.isExternal then
      return ⟨s!"{decl.name}$instance",.ptr,none,true,.imported⟩
    else
      return ⟨s!"{decl.name}$instance",.ptr,some .null,true,.exported⟩
  | .unit => return ⟨unitSymbol,.ptr,none,false,.imported⟩

namespace Lower

def modifySymbols (f : Symbols → Symbols) : Lower Unit := modify fun s => { s with symbols := f s.symbols }

/-- The function of the output for a declared function; it is external unless it has a body here. -/
def procedureOf (id : FunctionId) : Lower ProcId := do
  match (← get).symbols.functions.get? id with
  | some proc => return proc
  | none =>
    let decls := (← read).decls
    let function ← decls.getFunction id
    let symbol := decls.functionSymbol function
    let proc ← onModule fun m => m.declareExtern symbol function.nativeHeader true
    log (.declaredExtern symbol proc)
    modifySymbols fun symbols => { symbols with functions := symbols.functions.insert id proc }
    return proc

def directTarget (id : FunctionId) : Lower CallTarget := do
  let function ← (← read).decls.getFunction id
  let proc ← procedureOf id
  return ⟨.direct proc,function.nativeHeader.signature,true⟩

def supportTarget (routine : SupportRoutine) : Lower CallTarget := do
  let proc ← onModule fun m => m.declareExtern routine.symbol routine.header routine.canThrow
  return ⟨.direct proc,routine.header.signature,routine.canThrow⟩

def globalOf (role : GlobalRole) : Lower GlobalId := do
  match (← get).symbols.globals.get? role with
  | some global => return global
  | none =>
    let spec ← (← read).globalSpec role
    let global ← onModule fun m => m.defineGlobal spec.name spec.type spec.initializer spec.isMutable spec.linkage
    modifySymbols fun symbols => { symbols with globals := symbols.globals.insert role global }
    return global

def descriptorAddress (cls : ClassId) : Lower Register := do
  let global ← globalOf (.descriptor cls)
  build (Build.const (.global global))

def materialize (value : Value) : Lower Register :=
  match value.form with
  | .register register => return register
  | .unit => do
    let global ← globalOf .unit
    build (Build.const (.global global))
  | .unreachable => breach .incompleteValue

/-- The literal of a constant; a string becomes static data. -/
def literalOf : Constant → Lower Literal
  | .null => return .null
  | .boolean value => return .bool value
  | .char unit => return .i16 unit.toInt16
  | .byte value => return .i8 value
  | .short value => return .i16 value
  | .int value => return .i32 value
  | .long value => return .i64 value
  | .float bits => return .f32 bits
  | .double bits => return .f64 bits
  | .string value => do
    let s ← get
    let (id, strings, output) := s.strings.intern s.builder.output value
    set { s with strings, builder := { s.builder with output } }
    return .data id

end Lower

end BlockLowering
