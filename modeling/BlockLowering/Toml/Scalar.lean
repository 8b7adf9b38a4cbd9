import BlockLowering.Decimal.Binary
/-!
The scalars of TOML documents: strings, numbers, dates and times. Each reader takes the text at the
head of a character list and returns what follows.
-/
namespace BlockLowering.Toml

def isBlank (c : Char) : Bool := c == ' ' || c == '\t'

def skipBlanks (cs : List Char) : List Char := cs.dropWhile isBlank

/-- The characters that may stand in comments and strings: a tab, and all but the controls. -/
def isPlain (c : Char) : Bool := c == '\t' || (0x20 ≤ c.toNat && c.toNat != 0x7f)

def newline? : List Char → Option (List Char)
  | '\n' :: rest => some rest
  | '\r' :: '\n' :: rest => some rest
  | _ => none

/-! ### Strings -/

def hexDigit? (c : Char) : Option Nat :=
  if '0' ≤ c ∧ c ≤ '9' then some (c.toNat - '0'.toNat)
  else if 'a' ≤ c ∧ c ≤ 'f' then some (c.toNat - 'a'.toNat + 10)
  else if 'A' ≤ c ∧ c ≤ 'F' then some (c.toNat - 'A'.toNat + 10)
  else none

def codePoint? (ds : List Char) : Option Char := do
  let ns ← ds.mapM hexDigit?
  let n := ns.foldl (fun n d => n * 16 + d) 0
  if n.isValidChar then some (Char.ofNat n) else none

def escape? : List Char → Option (Char × List Char)
  | 'b' :: rest => some ('\x08', rest)
  | 't' :: rest => some ('\t', rest)
  | 'n' :: rest => some ('\n', rest)
  | 'f' :: rest => some ('\x0c', rest)
  | 'r' :: rest => some ('\r', rest)
  | '"' :: rest => some ('"', rest)
  | '\\' :: rest => some ('\\', rest)
  | 'u' :: a :: b :: c :: d :: rest => (codePoint? [a,b,c,d]).map fun p => (p, rest)
  | 'U' :: a :: b :: c :: d :: e :: f :: g :: h :: rest =>
    (codePoint? [a,b,c,d,e,f,g,h]).map fun p => (p, rest)
  | _ => none

def skipLines : Nat → List Char → List Char
  | 0, cs => cs
  | fuel + 1, cs =>
    match newline? (skipBlanks cs) with
    | some rest => skipLines fuel rest
    | none => skipBlanks cs

/-- What follows a backslash at the end of a line and the blank text after it. -/
def continuation? (cs : List Char) : Option (List Char) :=
  (newline? (skipBlanks cs)).map fun rest => skipLines rest.length rest

def basicRest? : Nat → List Char → List Char → Option (String × List Char)
  | 0, _, _ => none
  | _, done, '"' :: rest => some (String.ofList done.reverse, rest)
  | fuel + 1, done, '\\' :: rest => do
    let (c, rest) ← escape? rest
    basicRest? fuel (c :: done) rest
  | fuel + 1, done, c :: rest => if isPlain c then basicRest? fuel (c :: done) rest else none
  | _, _, [] => none

/-- The rest of a basic string over several lines; up to two quotes may stand before its end. -/
def longBasicRest? : Nat → List Char → List Char → Option (String × List Char)
  | 0, _, _ => none
  | _, done, '"' :: '"' :: '"' :: '"' :: '"' :: rest => some (String.ofList ('"' :: '"' :: done).reverse, rest)
  | _, done, '"' :: '"' :: '"' :: '"' :: rest => some (String.ofList ('"' :: done).reverse, rest)
  | _, done, '"' :: '"' :: '"' :: rest => some (String.ofList done.reverse, rest)
  | fuel + 1, done, '\\' :: rest =>
    match continuation? rest with
    | some rest => longBasicRest? fuel done rest
    | none => do
      let (c, rest) ← escape? rest
      longBasicRest? fuel (c :: done) rest
  | fuel + 1, done, c :: rest =>
    match newline? (c :: rest) with
    | some rest => longBasicRest? fuel ('\n' :: done) rest
    | none => if isPlain c then longBasicRest? fuel (c :: done) rest else none
  | _, _, [] => none

def literalRest? (done : List Char) : List Char → Option (String × List Char)
  | '\x27' :: rest => some (String.ofList done.reverse, rest)
  | c :: rest => if isPlain c then literalRest? (c :: done) rest else none
  | [] => none

def longLiteralRest? : Nat → List Char → List Char → Option (String × List Char)
  | 0, _, _ => none
  | _, done, '\x27' :: '\x27' :: '\x27' :: '\x27' :: '\x27' :: rest =>
    some (String.ofList ('\x27' :: '\x27' :: done).reverse, rest)
  | _, done, '\x27' :: '\x27' :: '\x27' :: '\x27' :: rest => some (String.ofList ('\x27' :: done).reverse, rest)
  | _, done, '\x27' :: '\x27' :: '\x27' :: rest => some (String.ofList done.reverse, rest)
  | fuel + 1, done, c :: rest =>
    match newline? (c :: rest) with
    | some rest => longLiteralRest? fuel ('\n' :: done) rest
    | none => if isPlain c then longLiteralRest? fuel (c :: done) rest else none
  | _, _, [] => none

/-- A line end right after the opening of a long string does not belong to it. -/
def dropFirstNewline (cs : List Char) : List Char := (newline? cs).getD cs

def shortString? : List Char → Option (String × List Char)
  | '"' :: rest => basicRest? (rest.length + 1) [] rest
  | '\x27' :: rest => literalRest? [] rest
  | _ => none

def string? : List Char → Option (String × List Char)
  | '"' :: '"' :: '"' :: rest =>
    let body := dropFirstNewline rest
    longBasicRest? (body.length + 1) [] body
  | '\x27' :: '\x27' :: '\x27' :: rest =>
    let body := dropFirstNewline rest
    longLiteralRest? (body.length + 1) [] body
  | cs => shortString? cs

/-! ### Numbers -/

/-- The digits of a run in which single underscores may stand between digits. -/
def digitRun? (isDigit : Char → Bool) : List Char → Option (List Char)
  | [] => none
  | [d] => if isDigit d then some [d] else none
  | d :: '_' :: rest => if isDigit d then (digitRun? isDigit rest).map (d :: ·) else none
  | d :: rest => if isDigit d then (digitRun? isDigit rest).map (d :: ·) else none

def digitsValue (base : Nat) (ds : List Char) : Nat :=
  ds.foldl (fun n d => n * base + (hexDigit? d).getD 0) 0

def splitSign : List Char → Option Bool × List Char
  | '+' :: rest => (some false, rest)
  | '-' :: rest => (some true, rest)
  | rest => (none, rest)

def wholeDigits? (cs : List Char) : Option (List Char) := do
  let ds ← digitRun? Char.isDigit cs
  if 1 < ds.length ∧ ds.head? = some '0' then none else some ds

def isBased (base : Nat) (isDigit : Char → Bool) (cs : List Char) : Bool :=
  match digitRun? isDigit cs with
  | some ds => digitsValue base ds < Nat.pow 2 63
  | none => false

def isInteger : List Char → Bool
  | '0' :: 'x' :: rest => isBased 16 (fun c => (hexDigit? c).isSome) rest
  | '0' :: 'o' :: rest => isBased 8 (fun c => '0' ≤ c && c ≤ '7') rest
  | '0' :: 'b' :: rest => isBased 2 (fun c => c == '0' || c == '1') rest
  | cs =>
    let (sign, rest) := splitSign cs
    match wholeDigits? rest with
    | some ds => digitsValue 10 ds < Nat.pow 2 63 + (if sign = some true then 1 else 0)
    | none => false

def exponentValue? (cs : List Char) : Option Int :=
  let (sign, rest) := splitSign cs
  (digitRun? Char.isDigit rest).map fun ds =>
    let n : Int := digitsValue 10 ds
    if sign = some true then -n else n

/-- Whether a text is a float with a fraction or an exponent that does not overflow upwards. -/
def isDecimalFloat (cs : List Char) : Bool :=
  let (sign, rest) := splitSign cs
  let (mantissa, exponent) := rest.span fun c => c != 'e' && c != 'E'
  let (whole, fraction) := mantissa.span fun c => c != '.'
  let value? : Option Decimal := do
    let ds ← wholeDigits? whole
    let fs ← match fraction with
      | [] => if exponent.isEmpty then none else some []
      | _ :: places => digitRun? Char.isDigit places
    let e ← match exponent with
      | [] => some 0
      | _ :: digits => exponentValue? digits
    return ⟨false,digitsValue 10 (ds ++ fs),e - fs.length⟩
  match value? with
  | some d => sign = some true || Binary.ofDecimal Binary.double d < Binary.double.infinity
  | none => false

def isFloat (cs : List Char) : Bool :=
  let bare := (splitSign cs).2
  bare == "inf".toList || bare == "nan".toList || isDecimalFloat cs

/-! ### Dates and times -/

def twoDigits? (a b : Char) : Option Nat :=
  if a.isDigit && b.isDigit then some (digitsValue 10 [a,b]) else none

def isLeapYear (year : Nat) : Bool := year % 4 = 0 ∧ (year % 100 ≠ 0 ∨ year % 400 = 0)

def daysIn (year month : Nat) : Nat :=
  if month = 2 then (if isLeapYear year then 29 else 28)
  else if month = 4 ∨ month = 6 ∨ month = 9 ∨ month = 11 then 30
  else 31

def date? : List Char → Option (List Char)
  | a :: b :: c :: d :: '-' :: e :: f :: '-' :: g :: h :: rest => do
    let century ← twoDigits? a b
    let year ← twoDigits? c d
    let month ← twoDigits? e f
    let day ← twoDigits? g h
    if 1 ≤ month ∧ month ≤ 12 ∧ 1 ≤ day ∧ day ≤ daysIn (century * 100 + year) month then some rest
    else none
  | _ => none

def secondFraction? : List Char → Option (List Char)
  | '.' :: rest =>
    match rest.span Char.isDigit with
    | ([], _) => none
    | (_, after) => some after
  | rest => some rest

/-- What follows a time of the day; a minute may have a leap second. -/
def time? : List Char → Option (List Char)
  | a :: b :: ':' :: c :: d :: ':' :: e :: f :: rest => do
    let hour ← twoDigits? a b
    let minute ← twoDigits? c d
    let second ← twoDigits? e f
    if hour ≤ 23 ∧ minute ≤ 59 ∧ second ≤ 60 then secondFraction? rest else none
  | _ => none

def isOffset : List Char → Bool
  | [] => true
  | ['Z'] | ['z'] => true
  | [sign,a,b,':',c,d] =>
    (sign == '+' || sign == '-') &&
      match twoDigits? a b, twoDigits? c d with
      | some hour, some minute => hour ≤ 23 && minute ≤ 59
      | _, _ => false
  | _ => false

def isMoment (cs : List Char) : Bool :=
  match date? cs with
  | some [] => true
  | some (mark :: rest) =>
    (mark == 'T' || mark == 't' || mark == ' ') && ((time? rest).map isOffset).getD false
  | none => time? cs == some []

def isWordChar (c : Char) : Bool := c.isAlphanum || c == '+' || c == '-' || c == '_' || c == '.' || c == ':'

/-- The number, date or time at the head of a text; a blank may divide a date from its time. -/
def word (cs : List Char) : List Char × List Char :=
  let (first, rest) := cs.span isWordChar
  match rest with
  | ' ' :: a :: b :: ':' :: _ =>
    if date? first = some [] ∧ a.isDigit ∧ b.isDigit then
      let (second, rest) := (rest.drop 1).span isWordChar
      (first ++ ' ' :: second, rest)
    else (first, rest)
  | _ => (first, rest)

def isNumberOrMoment (cs : List Char) : Bool := isInteger cs || isFloat cs || isMoment cs

end BlockLowering.Toml
