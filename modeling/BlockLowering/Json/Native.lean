import BlockLowering.Json.Decode
import BlockLowering.Native
/-!
The JSON form of native types and literals. A number that is no finite one is written as null; an
exact form gives the bits of a float in hexadecimal digits and is only read.
-/
namespace BlockLowering

namespace NativeType

mutual

def toJson : NativeType → Json
  | .void => .str "Void"
  | .bool => .str "Bool"
  | .i8 => .str "I8"
  | .i16 => .str "I16"
  | .i32 => .str "I32"
  | .i64 => .str "I64"
  | .f32 => .str "F32"
  | .f64 => .str "F64"
  | .ptr => .str "Ptr"
  | .function params result =>
    .tagged "Function" (.obj [("params", .arr (toJsons params)),("return_type", result.toJson)])
  | .struct name fields =>
    .tagged "Struct" (.obj [("name", .str name),("fields", .arr (toJsons fields))])

def toJsons : List NativeType → List Json
  | [] => []
  | type :: rest => type.toJson :: toJsons rest

end

def simpleNames : List (String × NativeType) :=
  [("Void", .void),("Bool", .bool),("I8", .i8),("I16", .i16),("I32", .i32),("I64", .i64),
    ("F32", .f32),("F64", .f64),("Ptr", .ptr)]

def readStep (read : Json → Option NativeType) (document : Json) : Option NativeType := do
  let (tag, contents) ← document.variant?
  match tag with
  | "Function" =>
    let some [params,result] := contents.fields? ["params","return_type"] | none
    return .function (← params.list? read) (← read result)
  | "Struct" =>
    let some [name,fields] := contents.namedFields? ["name","fields"] | none
    return .struct (← name.string?) (← fields.list? read)
  | tag => contents.plain? (← simpleNames.lookup tag)

def ofJson? (document : Json) : Option NativeType := document.readTree readStep

end NativeType

namespace Signature

def toJson (s : Signature) : Json :=
  .obj [("params", .list NativeType.toJson s.params),("return_type", s.result.toJson)]

def ofJson? (document : Json) : Option Signature := do
  let some [params,result] := document.fields? ["params","return_type"] | none
  return ⟨← params.list? NativeType.ofJson?,← NativeType.ofJson? result⟩

end Signature

/-- A float as a number, or null if it is no finite one. -/
def Json.float (f : Binary.Format) (bits : Nat) : Json := .option .decimal (Binary.toDecimal? f bits)

/-- The number that hexadecimal digits give, if it has at most the given number of bits. -/
def Json.hexadecimal? (bits : Nat) (document : Json) : Option Nat := do
  let text ← document.string?
  let digits := match text.toList with
    | '+' :: rest => rest
    | cs => cs
  if digits.isEmpty then none
  let digits ← digits.mapM hexDigit?
  let n := digits.foldl (fun n digit => n * 16 + digit) 0
  if n < Nat.pow 2 bits then some n else none

namespace Literal

mutual

def toJson : Literal → Json
  | .undef => .str "Undef"
  | .null => .str "Null"
  | .bool value => .tagged "Bool" (.bool value)
  | .i8 value => .tagged "I8" (.int value.toInt)
  | .i16 value => .tagged "I16" (.int value.toInt)
  | .i32 value => .tagged "I32" (.int value.toInt)
  | .i64 value => .tagged "I64" (.int value.toInt)
  | .f32 bits => .tagged "F32" (.float Binary.single bits.toNat)
  | .f64 bits => .tagged "F64" (.float Binary.double bits.toNat)
  | .proc id => .tagged "Function" (.nat id.index)
  | .global id => .tagged "Global" (.nat id.index)
  | .data id => .tagged "Constant" (.nat id.index)
  | .aggregate parts => .tagged "Aggregate" (.arr (toJsons parts))

def toJsons : List Literal → List Json
  | [] => []
  | literal :: rest => literal.toJson :: toJsons rest

end

def readStep (read : Json → Option Literal) (document : Json) : Option Literal := do
  let (tag, contents) ← document.variant?
  match tag with
  | "Undef" => contents.plain? .undef
  | "Null" => contents.plain? .null
  | "Bool" => return .bool (← contents.bool?)
  | "I8" => return .i8 (.ofInt (← contents.signed? 8))
  | "I16" => return .i16 (.ofInt (← contents.signed? 16))
  | "I32" => return .i32 (.ofInt (← contents.signed? 32))
  | "I64" => return .i64 (.ofInt (← contents.signed? 64))
  | "F32" => return .f32 (.ofNat (← contents.single?))
  | "F64" => return .f64 (.ofNat (← contents.double?))
  | "Function" => return .proc (← contents.id? ProcId.mk)
  | "Global" => return .global (← contents.id? GlobalId.mk)
  | "Constant" => return .data (← contents.id? DataId.mk)
  | "Aggregate" => return .aggregate (← contents.list? read)
  | _ => none

def ofJson? (document : Json) : Option Literal := document.readTree readStep

/-- Read one level of a literal, where a float may be given by its bits. -/
def readExactStep (read : Json → Option Literal) (document : Json) : Option Literal :=
  match document with
  | .obj [("F32bits", bits)] => do return .f32 (.ofNat (← bits.hexadecimal? 32))
  | .obj [("F64bits", bits)] => do return .f64 (.ofNat (← bits.hexadecimal? 64))
  | _ => readStep read document

def ofExactJson? (document : Json) : Option Literal := document.readTree readExactStep

end Literal

end BlockLowering
