import BlockLowering.Native
/-!
Static types of the source language and the native types that hold their values. Every reference is a
pointer; a merge of type `Unit` or `Nothing` carries no value at all.
-/
namespace BlockLowering

structure ClassId where
  index : Nat
  deriving DecidableEq, Repr

instance : ToString ClassId := ⟨fun id => s!"class{id.index}"⟩

inductive Primitive where
  | boolean
  | char
  | byte
  | short
  | int
  | long
  | float
  | double
  deriving DecidableEq, Repr

namespace Primitive

def name : Primitive → String
  | .boolean => "Boolean"
  | .char => "Char"
  | .byte => "Byte"
  | .short => "Short"
  | .int => "Int"
  | .long => "Long"
  | .float => "Float"
  | .double => "Double"

def all : List Primitive := [.boolean,.char,.byte,.short,.int,.long,.float,.double]

def native : Primitive → NativeType
  | .boolean => .bool
  | .byte => .i8
  | .char | .short => .i16
  | .int => .i32
  | .long => .i64
  | .float => .f32
  | .double => .f64

def isFloating : Primitive → Bool
  | .float | .double => true
  | _ => false

end Primitive

inductive Ty where
  /-- The type of the unit singleton. -/
  | unit
  /-- The empty type, or with `nullable` the type of null alone. -/
  | nothing (nullable : Bool)
  | primitive (kind : Primitive)
  /-- The top of the reference types. -/
  | any (nullable : Bool)
  | reference (cls : ClassId) (nullable : Bool)
  deriving DecidableEq, Repr

namespace Ty

def int : Ty := .primitive .int
def long : Ty := .primitive .long
def boolean : Ty := .primitive .boolean

/-- The type of an expression that does not complete. -/
def never : Ty := .nothing false

/-- The type of exception objects inside the pass. -/
def object : Ty := .any false

def isUnit : Ty → Bool
  | .unit => true
  | _ => false

def isNever : Ty → Bool
  | .nothing false => true
  | _ => false

def isAny : Ty → Bool
  | .any _ => true
  | _ => false

def isNullable : Ty → Bool
  | .nothing nullable | .any nullable | .reference _ nullable => nullable
  | .unit | .primitive _ => false

def primitive? : Ty → Option Primitive
  | .primitive kind => some kind
  | _ => none

def class? : Ty → Option ClassId
  | .reference cls _ => some cls
  | _ => none

/-- Whether a merge point of this type carries no value. -/
def isValueless (t : Ty) : Bool := t.isUnit || t.isNever

/-- The native type of variables, fields, parameters and merged values. -/
def storage : Ty → NativeType
  | .primitive kind => kind.native
  | _ => .ptr

/-- The native type that a function returns. -/
def returned (t : Ty) : NativeType := if t.isValueless then .void else t.storage

def baseName : Ty → String
  | .unit => "Unit"
  | .nothing _ => "Nothing"
  | .primitive kind => kind.name
  | .any _ => "Any"
  | .reference cls _ => toString cls

def text (t : Ty) : String := t.baseName ++ (if t.isNullable then "?" else "")

instance : ToString Ty := ⟨text⟩

end Ty

end BlockLowering
