import BlockLowering.Decimal.Basic
/-!
JSON documents. The members of an object keep their order, and a number is either a whole number or a
decimal, by the way it is written.
-/
namespace BlockLowering

inductive Json where
  | null
  | bool (value : Bool)
  | int (value : Int)
  | decimal (value : Decimal)
  | str (value : String)
  | arr (items : List Json)
  | obj (members : List (String × Json))
  deriving Repr, Inhabited

namespace Json

def list {α : Type} (encode : α → Json) (items : List α) : Json := .arr (items.map encode)

def option {α : Type} (encode : α → Json) : Option α → Json
  | none => .null
  | some value => encode value

def nat (n : Nat) : Json := .int n

/-- An object with one member, the form of a constructor with contents. -/
def tagged (tag : String) (contents : Json) : Json := .obj [(tag, contents)]

def named {α : Type} [DecidableEq α] (names : List (String × α)) (value : α) : Json :=
  option (fun entry => .str entry.1) (names.find? fun entry => entry.2 = value)

/-- The members after one is set: in the place of an older one of that name, or else at the end. -/
def setMember (name : String) (value : Json) : List (String × Json) → List (String × Json)
  | [] => [(name, value)]
  | m :: rest => if m.1 = name then (name, value) :: rest else m :: setMember name value rest

def member? (name : String) : Json → Option Json
  | .obj members => members.lookup name
  | _ => none

def hexDigit? (c : Char) : Option Nat :=
  if '0' ≤ c ∧ c ≤ '9' then some (c.toNat - '0'.toNat)
  else if 'a' ≤ c ∧ c ≤ 'f' then some (c.toNat - 'a'.toNat + 10)
  else if 'A' ≤ c ∧ c ≤ 'F' then some (c.toNat - 'A'.toNat + 10)
  else none

end Json

end BlockLowering
