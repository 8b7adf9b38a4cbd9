import BlockLowering.Procedure
/-!
The unit of output: functions defined and declared, globals, static data and the functions to run
before the program starts. Defined and external functions share one supply of numbers.
-/
namespace BlockLowering

/-- A global variable; one without an initial value is defined elsewhere. -/
structure Global where
  id : GlobalId
  name : String
  type : NativeType
  initializer : Option Literal
  isMutable : Bool
  linkage : Linkage
  location : Location
  deriving DecidableEq

structure ExternProcedure where
  id : ProcId
  name : String
  header : Header
  canThrow : Bool
  deriving DecidableEq

inductive StaticContents where
  | string (value : String)
  | array (elementType : NativeType) (elements : List Literal)
  | aggregate (parts : List Literal)
  deriving DecidableEq

structure StaticDatum where
  id : DataId
  name : String
  type : NativeType
  contents : StaticContents
  deriving DecidableEq

structure Module where
  name : String
  procedures : Table ProcId Procedure
  externs : Table ProcId ExternProcedure
  globals : Table GlobalId Global
  data : Table DataId StaticDatum
  constructors : List ProcId
  nextProcedure : Nat
  nextGlobal : Nat
  nextDatum : Nat
  deriving DecidableEq

namespace Module

def new (name : String) : Module :=
  { name, procedures := {}, externs := {}, globals := {}, data := {}, constructors := []
    nextProcedure := 0, nextGlobal := 0, nextDatum := 0 }

def takeProcedureId (m : Module) : ProcId × Module :=
  (⟨m.nextProcedure⟩, { m with nextProcedure := m.nextProcedure + 1 })

/-- Enter a function under its own number, which the supply then moves past. -/
def addProcedure (m : Module) (p : Procedure) : Module :=
  { m with
    procedures := m.procedures.insert p.id p
    nextProcedure := max m.nextProcedure (p.id.index + 1) }

def modifyProcedure (m : Module) (id : ProcId) (f : Procedure → Procedure) : Module :=
  { m with procedures := m.procedures.modify id f }

def findExtern? (m : Module) (name : String) : Option ProcId :=
  (m.externs.values.find? fun e => e.name == name).map ExternProcedure.id

/-- The external function of a name, declared now unless it is declared already. -/
def declareExtern (m : Module) (name : String) (header : Header) (canThrow : Bool) : ProcId × Module :=
  match m.findExtern? name with
  | some id => (id, m)
  | none =>
    let (id, m) := m.takeProcedureId
    (id, { m with externs := m.externs.insert id ⟨id,name,header,canThrow⟩ })

def findProcedure? (m : Module) (name : String) : Option Procedure :=
  m.procedures.values.find? fun p => p.name == name

def takeGlobalId (m : Module) : GlobalId × Module :=
  (⟨m.nextGlobal⟩, { m with nextGlobal := m.nextGlobal + 1 })

/-- Enter a global under its own number, which the supply then moves past. -/
def addGlobal (m : Module) (g : Global) : Module :=
  { m with
    globals := m.globals.insert g.id g
    nextGlobal := max m.nextGlobal (g.id.index + 1) }

/-- Enter a new global; without an initial value it is only declared. -/
def defineGlobal (m : Module) (name : String) (type : NativeType) (initializer : Option Literal)
    (isMutable : Bool) (linkage : Linkage) : GlobalId × Module :=
  let (id, m) := m.takeGlobalId
  (id, m.addGlobal ⟨id,name,type,initializer,isMutable,linkage,.unknown⟩)

def findGlobal? (m : Module) (name : String) : Option GlobalId :=
  (m.globals.values.find? fun g => g.name == name).map Global.id

def addDatum (m : Module) (name : String) (type : NativeType) (contents : StaticContents) : DataId × Module :=
  let id : DataId := ⟨m.nextDatum⟩
  (id, { m with data := m.data.insert id ⟨id,name,type,contents⟩, nextDatum := m.nextDatum + 1 })

def addConstructor (m : Module) (id : ProcId) : Module :=
  { m with constructors := m.constructors ++ [id] }

/-- What takes a number from a module or enters something under one. -/
inductive Request where
  | takeProcedureId
  | addProcedure (p : Procedure)
  | declareExtern (name : String) (header : Header) (canThrow : Bool)
  | takeGlobalId
  | addGlobal (g : Global)
  | defineGlobal (name : String) (type : NativeType) (initializer : Option Literal) (isMutable : Bool) (linkage : Linkage)
  | addDatum (name : String) (type : NativeType) (contents : StaticContents)

/-- The number that a request is answered with, and the module behind it. -/
def serve (m : Module) : Request → Nat × Module
  | .takeProcedureId => m.takeProcedureId.map ProcId.index id
  | .addProcedure p => (p.id.index, m.addProcedure p)
  | .declareExtern name header canThrow => (m.declareExtern name header canThrow).map ProcId.index id
  | .takeGlobalId => m.takeGlobalId.map GlobalId.index id
  | .addGlobal g => (g.id.index, m.addGlobal g)
  | .defineGlobal name type initializer isMutable linkage =>
    (m.defineGlobal name type initializer isMutable linkage).map GlobalId.index id
  | .addDatum name type contents => (m.addDatum name type contents).map DataId.index id

/-- How many numbers of 32 bits there are. -/
def limit : Nat := 4294967296

/-- No counter has been moved past the numbers of 32 bits. -/
def fits (m : Module) : Bool := m.nextProcedure < limit && m.nextGlobal < limit && m.nextDatum < limit

/-- Counters have 32 bits: a request that moves one further fails. -/
def serve? (m : Module) (r : Request) : Option (Nat × Module) :=
  let answer := m.serve r
  if answer.2.fits then some answer else none

end Module

end BlockLowering
