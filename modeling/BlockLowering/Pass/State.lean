import BlockLowering.Builder
import BlockLowering.Layout
import BlockLowering.Pass.Event
import BlockLowering.Settings
import BlockLowering.StaticData
/-!
The state of a lowering run: the module under construction, the symbols that declarations have been
given, what the open scopes hold, and the log. The state survives a failure.
-/
namespace BlockLowering

inductive ValueForm where
  | register (register : Register)
  /-- The unit singleton, which needs no register until one is asked for. -/
  | unit
  /-- Nowhere: the expression does not complete. -/
  | unreachable
  deriving DecidableEq, Repr

structure Value where
  form : ValueForm
  ty : Ty
  deriving DecidableEq, Repr

namespace Value

def ofRegister (register : Register) (ty : Ty) : Value := ⟨.register register,ty⟩

def unit : Value := ⟨.unit,.unit⟩

def unreachable (ty : Ty) : Value := ⟨.unreachable,ty⟩

def isUnreachable (v : Value) : Bool := v.form = .unreachable

def withType (v : Value) (ty : Ty) : Value := { v with ty }

end Value

/-- A block where paths join, with the phi that merges their values unless its type has none. -/
structure Continuation where
  block : BlockId
  phi : Option Register
  ty : Ty
  deriving DecidableEq, Repr

def Continuation.value (k : Continuation) : Value :=
  match k.phi with
  | some phi => .ofRegister phi k.ty
  | none => Value.unit.withType k.ty

inductive Slot where
  /-- An immutable variable is its value. -/
  | value (value : Value)
  /-- A mutable variable has a stack slot. -/
  | stack (ptr : Register) (ty : Ty)
  deriving DecidableEq, Repr

structure ScopeState where
  slots : Table VarId Slot
  /-- The landing pad of a catching scope, once a call needs it. -/
  landingPad : Option BlockId
  /-- The block that receives exceptions, once something throws. -/
  handler : Option Continuation
  /-- For each exit through a finalizing scope the block that runs the finalizer. -/
  cleanups : Table Exit Continuation
  deriving DecidableEq

namespace ScopeState

def empty : ScopeState := ⟨{},none,none,{}⟩

instance : Inhabited ScopeState := ⟨empty⟩

end ScopeState

inductive GlobalRole where
  | staticField (id : FieldId)
  | descriptor (cls : ClassId)
  /-- The place of the instance of a singleton class. -/
  | singleton (cls : ClassId)
  | unit
  deriving DecidableEq

structure Symbols where
  functions : Table FunctionId ProcId
  globals : Table GlobalRole GlobalId
  deriving DecidableEq

def Symbols.empty : Symbols := ⟨{},{}⟩

structure Environment where
  decls : Declarations
  settings : Settings
  layout : Layout

structure State where
  builder : Builder
  symbols : Symbols
  /-- The open scopes by number, the first of which encloses every function. -/
  scopes : Array ScopeState
  strings : StringPool
  /-- The events so far, the last one first. -/
  log : List Event
  deriving DecidableEq

def State.start (settings : Settings) (strings : StringPool) : State where
  builder := { Builder.new settings.moduleName with emitLabels := settings.emitLabels }
  symbols := .empty
  scopes := #[.empty]
  strings := strings
  log := []

abbrev Lower := ReaderT Environment (ExceptT Error (StateM State))

namespace Lower

def build {α : Type} (step : Build α) : Lower α := fun _ => ExceptT.mk fun s =>
  let (result, builder) := step.run s.builder
  (result, { s with builder })

def onModule {α : Type} (f : Module → α × Module) : Lower α := fun _ => ExceptT.mk fun s =>
  let (result, output) := f s.builder.output
  (.ok result, { s with builder := { s.builder with output } })

def log (event : Event) : Lower Unit := modify fun s => { s with log := event :: s.log }

def breach {α : Type} (b : Breach) : Lower α := throw (.internal b)

def isTerminated : Lower Bool := do return (← get).builder.isTerminated

/-- The result of a call that has to have one. -/
def produced (product : Product) : Option Register → Lower Register
  | some register => pure register
  | none => breach (.noProduct product)

end Lower

end BlockLowering
