import BlockLowering.Procedure
/-!
The entry points of the support library that generated code calls.
-/
namespace BlockLowering

/-- An entry point of the support library. -/
inductive SupportRoutine where
  | allocInstance
  | allocArray
  | throwException
  /-- Entered from a landing pad with the exception record. -/
  | beginCatch
  | endCatch
  /-- Throws when the object is no instance. -/
  | checkCast
  | isInstance
  | lookupOpenMethod
  /-- Links a unit initializer into the list of the process. -/
  | appendInitializer
  | arraySize
  | arrayCopy
  | arrayElementAddress
  deriving DecidableEq, Repr

namespace SupportRoutine

def symbol : SupportRoutine → String
  | .allocInstance => "rt_alloc_instance"
  | .allocArray => "rt_alloc_array"
  | .throwException => "rt_throw_exception"
  | .beginCatch => "rt_begin_catch"
  | .endCatch => "rt_end_catch"
  | .checkCast => "rt_check_cast"
  | .isInstance => "rt_is_instance"
  | .lookupOpenMethod => "rt_lookup_open_method"
  | .appendInitializer => "rt_append_to_initializers_tail"
  | .arraySize => "rt_array_size"
  | .arrayCopy => "rt_array_copy"
  | .arrayElementAddress => "rt_array_element_address"

def parameters : SupportRoutine → List (String × NativeType)
  | .allocInstance => [("type_info", .ptr)]
  | .allocArray => [("element_size", .i32),("length", .i32)]
  | .throwException => [("exception", .ptr)]
  | .beginCatch => [("record", .ptr)]
  | .endCatch => []
  | .checkCast => [("object", .ptr),("type_info", .ptr)]
  | .isInstance => [("object", .ptr),("type_info", .ptr)]
  | .lookupOpenMethod => [("type_info", .ptr),("hash", .i64)]
  | .appendInitializer => [("node", .ptr)]
  | .arraySize => [("array", .ptr)]
  | .arrayCopy =>
    [("source", .ptr),("source_index", .i32),("destination", .ptr),("destination_index", .i32),
      ("count", .i32)]
  | .arrayElementAddress => [("array", .ptr),("index", .i32)]

def result : SupportRoutine → NativeType
  | .allocInstance | .allocArray | .beginCatch | .lookupOpenMethod | .arrayElementAddress => .ptr
  | .isInstance => .bool
  | .arraySize => .i32
  | .throwException | .endCatch | .checkCast | .appendInitializer | .arrayCopy => .void

def header (r : SupportRoutine) : Header :=
  ⟨r.parameters.map fun p => Parameter.new p.1 p.2,r.result⟩

def canThrow : SupportRoutine → Bool
  | .throwException | .checkCast => true
  | _ => false

end SupportRoutine

def unitSymbol : String := "rt_unit_instance"

end BlockLowering
