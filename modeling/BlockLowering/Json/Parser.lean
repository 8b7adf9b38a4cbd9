import BlockLowering.Json.Basic
import BlockLowering.Decimal.Binary
/-!
Reading JSON text. A text is refused when anything follows the document, when a string holds a bare
control character or half of a surrogate pair, and when a number is past the range of double
precision. Of two members with one name the later value stands in the earlier place.
-/
namespace BlockLowering.Json

def isBlank (c : Char) : Bool := c == ' ' || c == '\n' || c == '\t' || c == '\r'

def skipBlanks (cs : List Char) : List Char := cs.dropWhile isBlank

def codeUnit? (a b c d : Char) : Option Nat := do
  let a ← hexDigit? a
  let b ← hexDigit? b
  let c ← hexDigit? c
  let d ← hexDigit? d
  return ((a * 16 + b) * 16 + c) * 16 + d

def isHighSurrogate (unit : Nat) : Bool := 0xD800 ≤ unit && unit < 0xDC00

def isLowSurrogate (unit : Nat) : Bool := 0xDC00 ≤ unit && unit < 0xE000

def simpleEscape? : Char → Option Char
  | '"' => some '"'
  | '\\' => some '\\'
  | '/' => some '/'
  | 'b' => some '\x08'
  | 'f' => some '\x0c'
  | 'n' => some '\n'
  | 'r' => some '\r'
  | 't' => some '\t'
  | _ => none

/-- The rest of a string after its opening quote; `done` holds the characters read so far, last
    first. -/
def stringRest (done : List Char) : List Char → Option (String × List Char)
  | [] => none
  | '"' :: rest => some (String.ofList done.reverse, rest)
  | '\\' :: 'u' :: a :: b :: c :: d :: rest =>
    match codeUnit? a b c d with
    | none => none
    | some unit =>
      if isHighSurrogate unit then
        match rest with
        | '\\' :: 'u' :: e :: f :: g :: h :: after =>
          match codeUnit? e f g h with
          | none => none
          | some low =>
            if isLowSurrogate low then
              stringRest (Char.ofNat (0x10000 + (unit - 0xD800) * 0x400 + (low - 0xDC00)) :: done) after
            else none
        | _ => none
      else if isLowSurrogate unit then none
      else stringRest (Char.ofNat unit :: done) rest
  | '\\' :: c :: rest =>
    match simpleEscape? c with
    | none => none
    | some plain => stringRest (plain :: done) rest
  | c :: rest => if c.toNat < 0x20 then none else stringRest (c :: done) rest

def digits (cs : List Char) : List Char × List Char := cs.span Char.isDigit

def digitsValue (start : Nat) (ds : List Char) : Nat :=
  ds.foldl (fun n d => n * 10 + (d.toNat - '0'.toNat)) start

def fraction? : List Char → Option (Option (List Char) × List Char)
  | '.' :: rest =>
    match digits rest with
    | ([], _) => none
    | (ds, after) => some (some ds, after)
  | rest => some (none, rest)

def signedDigits? (cs : List Char) : Option (Int × List Char) :=
  let (negative, cs) := match cs with
    | '-' :: rest => (true, rest)
    | '+' :: rest => (false, rest)
    | rest => (false, rest)
  match digits cs with
  | ([], _) => none
  | (ds, after) =>
    let n : Int := digitsValue 0 ds
    some (if negative then -n else n, after)

def exponent? : List Char → Option (Option Int × List Char)
  | c :: rest =>
    if c == 'e' || c == 'E' then (signedDigits? rest).map fun r => (some r.1, r.2)
    else some (none, c :: rest)
  | [] => some (none, [])

/-- A decimal that double precision can hold. -/
def bounded? (d : Decimal) : Option Decimal :=
  if Binary.ofDecimal Binary.double { d with negative := false } < Binary.double.infinity then some d
  else none

/-- A number. A whole number has neither fraction nor exponent, and is not a negative zero. -/
def number? (cs : List Char) : Option (Json × List Char) := do
  let (negative, cs) := match cs with
    | '-' :: rest => (true, rest)
    | rest => (false, rest)
  let (whole, cs) := digits cs
  if whole.isEmpty ∨ (1 < whole.length ∧ whole.head? = some '0') then none
  let (fraction, cs) ← fraction? cs
  let (exponent, cs) ← exponent? cs
  let places := fraction.getD []
  let value := digitsValue (digitsValue 0 whole) places
  let d ← bounded? ⟨negative,value,exponent.getD 0 - places.length⟩
  if fraction.isNone ∧ exponent.isNone ∧ ¬ (negative ∧ value = 0) then
    return (.int (if negative then -value else value), cs)
  else
    return (.decimal d, cs)

mutual

def value? : Nat → List Char → Option (Json × List Char)
  | 0, _ => none
  | _, 'n' :: 'u' :: 'l' :: 'l' :: rest => some (.null, rest)
  | _, 't' :: 'r' :: 'u' :: 'e' :: rest => some (.bool true, rest)
  | _, 'f' :: 'a' :: 'l' :: 's' :: 'e' :: rest => some (.bool false, rest)
  | _, '"' :: rest => (stringRest [] rest).map fun r => (.str r.1, r.2)
  | fuel + 1, '[' :: rest =>
    match skipBlanks rest with
    | ']' :: after => some (.arr [], after)
    | items => items? fuel [] items
  | fuel + 1, '\x7b' :: rest =>
    match skipBlanks rest with
    | '\x7d' :: after => some (.obj [], after)
    | members => members? fuel [] members
  | _, cs => number? cs

/-- The items of an array up to its closing bracket; `done` holds the earlier ones, last first. -/
def items? : Nat → List Json → List Char → Option (Json × List Char)
  | 0, _, _ => none
  | fuel + 1, done, cs =>
    match value? fuel cs with
    | none => none
    | some (item, rest) =>
      match skipBlanks rest with
      | ',' :: after => items? fuel (item :: done) (skipBlanks after)
      | ']' :: after => some (.arr (item :: done).reverse, after)
      | _ => none

/-- The members of an object up to its closing brace; `done` holds the earlier ones. -/
def members? : Nat → List (String × Json) → List Char → Option (Json × List Char)
  | 0, _, _ => none
  | fuel + 1, done, cs =>
    match cs with
    | '"' :: rest =>
      match stringRest [] rest with
      | none => none
      | some (name, rest) =>
        match skipBlanks rest with
        | ':' :: rest =>
          match value? fuel (skipBlanks rest) with
          | none => none
          | some (value, rest) =>
            let done := setMember name value done
            match skipBlanks rest with
            | ',' :: after => members? fuel done (skipBlanks after)
            | '\x7d' :: after => some (.obj done, after)
            | _ => none
        | _ => none
    | _ => none

end

/-- Read a whole text as one document. Every step of the reader takes a character, so twice the
    length of the text bounds the depth of its calls. -/
def parse? (text : String) : Option Json :=
  let cs := text.toList
  match value? (2 * cs.length + 2) (skipBlanks cs) with
  | some (document, rest) => if (skipBlanks rest).isEmpty then some document else none
  | none => none

end BlockLowering.Json
