import BlockLowering.Decimal.Shortest
/-!
Native types and the literals of these types. Object references are opaque pointers, every primitive
has a fixed width, and floating-point literals are kept as bit patterns.
-/
namespace BlockLowering

inductive NativeType where
  | void
  | bool
  | i8
  | i16
  | i32
  | i64
  | f32
  | f64
  | ptr
  | function (params : List NativeType) (result : NativeType)
  | struct (name : String) (fields : List NativeType)
  deriving Repr, Inhabited

namespace NativeType

mutual

def decEq (a b : NativeType) : Decidable (a = b) := by
  cases a <;> cases b
  case function.function ps r qs s =>
    exact match decEqList ps qs, decEq r s with
      | isTrue sameParams, isTrue sameResult => isTrue (by rw [sameParams,sameResult])
      | isFalse other, _ => isFalse (by rintro ⟨⟩; exact other rfl)
      | _, isFalse other => isFalse (by rintro ⟨⟩; exact other rfl)
  case struct.struct m ps n qs =>
    exact match decEqList ps qs, instDecidableEqString m n with
      | isTrue sameFields, isTrue sameName => isTrue (by rw [sameFields,sameName])
      | isFalse other, _ => isFalse (by rintro ⟨⟩; exact other rfl)
      | _, isFalse other => isFalse (by rintro ⟨⟩; exact other rfl)
  all_goals first | exact isTrue rfl | exact isFalse (by rintro ⟨⟩)
termination_by structural a

def decEqList (as bs : List NativeType) : Decidable (as = bs) := by
  cases as <;> cases bs
  case cons.cons a as b bs =>
    exact match decEq a b, decEqList as bs with
      | isTrue sameHead, isTrue sameTail => isTrue (by rw [sameHead,sameTail])
      | isFalse other, _ => isFalse (by rintro ⟨⟩; exact other rfl)
      | _, isFalse other => isFalse (by rintro ⟨⟩; exact other rfl)
  all_goals first | exact isTrue rfl | exact isFalse (by rintro ⟨⟩)
termination_by structural as

end

instance : DecidableEq NativeType := decEq

def isVoid : NativeType → Bool
  | .void => true
  | _ => false

def isInteger : NativeType → Bool
  | .i8 | .i16 | .i32 | .i64 => true
  | _ => false

def isFloat : NativeType → Bool
  | .f32 | .f64 => true
  | _ => false

def bitWidth? : NativeType → Option Nat
  | .bool => some 1
  | .i8 => some 8
  | .i16 => some 16
  | .i32 => some 32
  | .i64 => some 64
  | _ => none

mutual

/-- The size in bytes, without padding; a pointer takes eight. -/
def size : NativeType → Nat
  | .void => 0
  | .bool | .i8 => 1
  | .i16 => 2
  | .i32 | .f32 => 4
  | .i64 | .f64 | .ptr | .function .. => 8
  | .struct _ fields => sizeSum fields

def sizeSum : List NativeType → Nat
  | [] => 0
  | field :: rest => field.size + sizeSum rest

end

mutual

def text : NativeType → String
  | .void => "void"
  | .bool => "bool"
  | .i8 => "i8"
  | .i16 => "i16"
  | .i32 => "i32"
  | .i64 => "i64"
  | .f32 => "f32"
  | .f64 => "f64"
  | .ptr => "ptr"
  | .function params result => "fn(" ++ ", ".intercalate (texts params) ++ ") -> " ++ result.text
  | .struct name fields => "struct " ++ name ++ " \x7b" ++ ", ".intercalate (texts fields) ++ "\x7d"

def texts : List NativeType → List String
  | [] => []
  | type :: rest => type.text :: texts rest

end

instance : ToString NativeType := ⟨text⟩

end NativeType

structure Signature where
  params : List NativeType
  result : NativeType
  deriving DecidableEq, Repr, Inhabited

namespace Signature

def type (s : Signature) : NativeType := .function s.params s.result

def returnsVoid (s : Signature) : Bool := s.result.isVoid

instance : ToString Signature := ⟨fun s => s.type.text⟩

end Signature

structure ProcId where
  index : Nat
  deriving DecidableEq, Repr

instance : ToString ProcId := ⟨fun id => s!"fn{id.index}"⟩

structure GlobalId where
  index : Nat
  deriving DecidableEq, Repr

instance : ToString GlobalId := ⟨fun id => s!"g{id.index}"⟩

structure DataId where
  index : Nat
  deriving DecidableEq, Repr

instance : ToString DataId := ⟨fun id => s!"c{id.index}"⟩

inductive Literal where
  /-- A value that no run may look at. -/
  | undef
  | null
  | bool (value : Bool)
  | i8 (value : Int8)
  | i16 (value : Int16)
  | i32 (value : Int32)
  | i64 (value : Int64)
  | f32 (bits : UInt32)
  | f64 (bits : UInt64)
  | proc (id : ProcId)
  | global (id : GlobalId)
  | data (id : DataId)
  | aggregate (parts : List Literal)
  deriving Inhabited

namespace Literal

mutual

/-- The native type of a literal; what has no value of its own passes for a pointer. -/
def type : Literal → NativeType
  | .undef | .null | .proc _ | .global _ | .data _ => .ptr
  | .bool _ => .bool
  | .i8 _ => .i8
  | .i16 _ => .i16
  | .i32 _ => .i32
  | .i64 _ => .i64
  | .f32 _ => .f32
  | .f64 _ => .f64
  | .aggregate parts => .struct "" (types parts)

def types : List Literal → List NativeType
  | [] => []
  | literal :: rest => literal.type :: types rest

end

mutual

def text : Literal → String
  | .undef => "undef"
  | .null => "null"
  | .bool b => if b then "true" else "false"
  | .i8 v => s!"{v.toInt}i8"
  | .i16 v => s!"{v.toInt}i16"
  | .i32 v => s!"{v.toInt}"
  | .i64 v => s!"{v.toInt}i64"
  | .f32 bits => Binary.text Binary.single bits.toNat ++ "f32"
  | .f64 bits => Binary.text Binary.double bits.toNat ++ "f64"
  | .proc id => s!"@{id}"
  | .global id => s!"@{id}"
  | .data id => s!"@{id}"
  | .aggregate parts => "\x7b" ++ ", ".intercalate (texts parts) ++ "\x7d"

def texts : List Literal → List String
  | [] => []
  | literal :: rest => literal.text :: texts rest

end

instance : ToString Literal := ⟨text⟩

mutual

/-- Equality of literals is decided part by part; two patterns that are no number are equal when
    their bits are. -/
def decEq (a b : Literal) : Decidable (a = b) := by
  cases a <;> cases b
  case aggregate.aggregate ps qs =>
    exact match decEqList ps qs with
      | isTrue same => isTrue (by rw [same])
      | isFalse other => isFalse (by rintro ⟨⟩; exact other rfl)
  all_goals
    first
    | exact isTrue rfl
    | rename_i x y
      exact if same : x = y then isTrue (by rw [same]) else isFalse (by rintro ⟨⟩; exact same rfl)
    | exact isFalse (by rintro ⟨⟩)
termination_by structural a

def decEqList (as bs : List Literal) : Decidable (as = bs) := by
  cases as <;> cases bs
  case cons.cons a as b bs =>
    exact match decEq a b, decEqList as bs with
      | isTrue sameHead, isTrue sameTail => isTrue (by rw [sameHead,sameTail])
      | isFalse other, _ => isFalse (by rintro ⟨⟩; exact other rfl)
      | _, isFalse other => isFalse (by rintro ⟨⟩; exact other rfl)
  all_goals first | exact isTrue rfl | exact isFalse (by rintro ⟨⟩)
termination_by structural as

end

instance : DecidableEq Literal := decEq

end Literal

mutual

def NativeType.zero : NativeType → Literal
  | .void => .undef
  | .bool => .bool false
  | .i8 => .i8 0
  | .i16 => .i16 0
  | .i32 => .i32 0
  | .i64 => .i64 0
  | .f32 => .f32 0
  | .f64 => .f64 0
  | .ptr | .function .. => .null
  | .struct _ fields => .aggregate (NativeType.zeros fields)

def NativeType.zeros : List NativeType → List Literal
  | [] => []
  | type :: rest => type.zero :: NativeType.zeros rest

end

end BlockLowering
