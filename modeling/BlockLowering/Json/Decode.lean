import BlockLowering.Json.Basic
import BlockLowering.Decimal.Binary
/-!
Readers from JSON documents to values. A reader fails without a reason: the documents are written by
programs, and all that matters is whether one has the expected form.
-/
namespace BlockLowering.Json
variable {α : Type}

def bool? : Json → Option Bool
  | .bool b => some b
  | _ => none

def string? : Json → Option String
  | .str s => some s
  | _ => none

def intWithin? (least greatest : Int) : Json → Option Int
  | .int n => if least ≤ n ∧ n ≤ greatest then some n else none
  | _ => none

def signed? (bits : Nat) : Json → Option Int :=
  intWithin? (-Int.pow 2 (bits - 1)) (Int.pow 2 (bits - 1) - 1)

def unsigned? (bits : Nat) (document : Json) : Option Nat :=
  (intWithin? 0 (Int.pow 2 bits - 1) document).map Int.toNat

def double? : Json → Option Nat
  | .int n => some (Binary.ofFraction Binary.double (n < 0) n.natAbs 1)
  | .decimal d => some (Binary.ofDecimal Binary.double d)
  | _ => none

/-- A number as a single-precision pattern, rounded by way of double precision. -/
def single? (document : Json) : Option Nat :=
  document.double?.map (Binary.convert Binary.double Binary.single)

def list? (read : Json → Option α) : Json → Option (List α)
  | .arr items => items.mapM read
  | _ => none

def option? (read : Json → Option α) : Json → Option (Option α)
  | .null => some none
  | document => (read document).map some

def pair? {β : Type} (first : Json → Option α) (second : Json → Option β) : Json → Option (α × β)
  | .arr [a,b] => do return (← first a, ← second b)
  | _ => none

/-- The named members of an object in the given order. A missing one counts as null and others are
    ignored. -/
def namedFields? (names : List String) : Json → Option (List Json)
  | .obj members => some (names.map fun name => (members.lookup name).getD .null)
  | _ => none

/-- The fields of a record in the given order: the named members of an object, or the items of an
    array that lists the fields exactly. The named contents of a constructor are no record of their own
    and have no such array form. -/
def fields? (names : List String) : Json → Option (List Json)
  | .arr items => if items.length = names.length then some items else none
  | document => document.namedFields? names

/-- The constructor that a document names, with its contents; those of a bare name are null. -/
def variant? : Json → Option (String × Json)
  | .str tag => some (tag, .null)
  | .obj [(tag, contents)] => some (tag, contents)
  | _ => none

def plain? (value : α) : Json → Option α
  | .null => some value
  | _ => none

def named? (names : List (String × α)) (document : Json) : Option α := do
  let (tag, contents) ← document.variant?
  let value ← names.lookup tag
  contents.plain? value

/-- An identity, which is a number of 32 bits. -/
def id? (make : Nat → α) (document : Json) : Option α := (document.unsigned? 32).map make

/-- A decimal number of 32 bits written without a sign or leading zeros. -/
def indexText? (text : String) : Option Nat :=
  let cs := text.toList
  if cs.isEmpty ∨ ¬ cs.all Char.isDigit ∨ (1 < cs.length ∧ cs.head? = some '0') then none
  else
    let n := cs.foldl (fun n c => n * 10 + (c.toNat - '0'.toNat)) 0
    if n < Nat.pow 2 32 then some n else none

/-- The members of an object whose names are numbers. -/
def indexed? (read : Json → Option α) : Json → Option (List (Nat × α))
  | .obj members => members.mapM fun m => do return (← indexText? m.1, ← read m.2)
  | _ => none

mutual

def depth : Json → Nat
  | .arr items => itemsDepth items + 1
  | .obj members => membersDepth members + 1
  | .null | .bool _ | .int _ | .decimal _ | .str _ => 1

def itemsDepth : List Json → Nat
  | [] => 0
  | item :: rest => max item.depth (itemsDepth rest)

def membersDepth : List (String × Json) → Nat
  | [] => 0
  | (_, value) :: rest => max value.depth (membersDepth rest)

end

/-- Read a tree to a depth; the step reads one level and is given the reader for the parts. -/
def readWithin {α : Type} (step : (Json → Option α) → Json → Option α) : Nat → Json → Option α
  | 0, _ => none
  | depth + 1, document => step (readWithin step depth) document

/-- Read a tree, whose parts are nested less deeply than the whole. -/
def readTree {α : Type} (step : (Json → Option α) → Json → Option α) (document : Json) : Option α :=
  readWithin step document.depth document

end BlockLowering.Json
