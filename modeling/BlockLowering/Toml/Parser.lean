import BlockLowering.Toml.Document
import BlockLowering.Toml.Scalar
/-!
Reading TOML documents. The result is the root table; a document that breaks the grammar or defines
something twice has none.
-/
namespace BlockLowering.Toml

/-- The depth from which on nested values, and the length from which on dotted keys, are refused. -/
def nestingLimit : Nat := 80

def comment? : List Char → Option (List Char)
  | '#' :: rest => some (rest.dropWhile isPlain)
  | _ => none

/-- What follows blanks, perhaps a comment, and the end of the line or of the text. -/
def lineEnd? (cs : List Char) : Option (List Char) :=
  let cs := skipBlanks cs
  let cs := (comment? cs).getD cs
  if cs.isEmpty then some [] else newline? cs

def skipSpace : Nat → List Char → List Char
  | 0, cs => cs
  | fuel + 1, cs =>
    let cs := skipBlanks cs
    match newline? ((comment? cs).getD cs) with
    | some rest => skipSpace fuel rest
    | none => (comment? cs).getD cs

def keyPart? (cs : List Char) : Option (String × List Char) :=
  match cs.span fun c => c.isAlphanum || c == '_' || c == '-' with
  | ([], _) => shortString? cs
  | (bare, rest) => some (String.ofList bare, rest)

def key? : Nat → List Char → Option (List String × List Char)
  | 0, _ => none
  | fuel + 1, cs => do
    let (part, rest) ← keyPart? (skipBlanks cs)
    match skipBlanks rest with
    | '.' :: after =>
      let (parts, rest) ← key? fuel after
      return (part :: parts, rest)
    | rest => return ([part], rest)

def dottedKey? (cs : List Char) : Option (List String × String × List Char) := do
  let (parts, rest) ← key? (nestingLimit - 1) cs
  let last ← parts.getLast?
  return (parts.dropLast, last, rest)

mutual

/-- A value at the head of a text, inside `depth` arrays and inline tables. -/
def value? : Nat → Nat → List Char → Option (Value × List Char)
  | 0, _, _ => none
  | _, _, 't' :: 'r' :: 'u' :: 'e' :: rest => some (.boolean true, rest)
  | _, _, 'f' :: 'a' :: 'l' :: 's' :: 'e' :: rest => some (.boolean false, rest)
  | fuel + 1, depth, '[' :: rest =>
    if depth + 1 < nestingLimit then items? fuel (depth + 1) rest else none
  | fuel + 1, depth, '\x7b' :: rest =>
    if depth + 1 < nestingLimit then
      match skipBlanks rest with
      | '\x7d' :: after => some (.other, after)
      | pairs => pairs? fuel (depth + 1) [] pairs
    else none
  | _, _, cs =>
    match string? cs with
    | some (s, rest) => some (.string s, rest)
    | none =>
      let (w, rest) := word cs
      if isNumberOrMoment w then some (.other, rest) else none

def items? : Nat → Nat → List Char → Option (Value × List Char)
  | 0, _, _ => none
  | fuel + 1, depth, cs =>
    match skipSpace cs.length cs with
    | ']' :: rest => some (.other, rest)
    | cs =>
      match value? fuel depth cs with
      | none => none
      | some (_, rest) =>
        match skipSpace rest.length rest with
        | ',' :: rest => items? fuel depth rest
        | ']' :: rest => some (.other, rest)
        | _ => none

def pairs? : Nat → Nat → Entries → List Char → Option (Value × List Char)
  | 0, _, _, _ => none
  | fuel + 1, depth, done, cs =>
    match dottedKey? cs with
    | some (path, key, '=' :: rest) =>
      match value? fuel depth (skipBlanks rest) with
      | none => none
      | some (v, rest) =>
        match done.insertValue key v path with
        | none => none
        | some done =>
          match skipBlanks rest with
          | ',' :: rest => pairs? fuel depth done rest
          | '\x7d' :: rest => some (.other, rest)
          | _ => none
    | _ => none

end

/-- A document under construction: the root table and the path of the header in force. -/
structure Draft where
  root : Entries
  path : List String

/-- The rest of a header after its opening brackets, entered by `enter`. -/
def header? (enter : String → Entries → Option Entries) (closing : List Char) (draft : Draft)
    (cs : List Char) : Option (Draft × List Char) := do
  let (path, key, rest) ← dottedKey? cs
  if closing.isPrefixOf rest then
    let rest ← lineEnd? (rest.drop closing.length)
    let root ← draft.root.descend (enter key) path
    return (⟨root,path ++ [key]⟩, rest)
  else none

def line? (draft : Draft) : List Char → Option (Draft × List Char)
  | '[' :: '[' :: rest => header? Entries.openRow [']',']'] draft rest
  | '[' :: rest => header? Entries.openTable [']'] draft rest
  | cs =>
    match lineEnd? cs with
    | some rest => some (draft, rest)
    | none => do
      let (path, key, rest) ← dottedKey? cs
      match rest with
      | '=' :: rest =>
        let (v, rest) ← value? (2 * rest.length + 2) 0 (skipBlanks rest)
        let rest ← lineEnd? rest
        let root ← draft.root.descend (Entries.insertValue key v path) draft.path
        return (⟨root,draft.path⟩, rest)
      | _ => none

/-- The lines of a document; every line takes a character. -/
def lines? : Nat → Draft → List Char → Option Entries
  | _, draft, [] => some draft.root
  | 0, _, _ => none
  | fuel + 1, draft, cs =>
    match line? draft (skipBlanks cs) with
    | some (draft, rest) => lines? fuel draft rest
    | none => none

/-- The root table of a document; a byte order mark may come first. -/
def parse? (text : String) : Option Entries :=
  let cs := match text.toList with
    | '\ufeff' :: rest => rest
    | cs => cs
  lines? (cs.length + 1) ⟨[],[]⟩ cs

end BlockLowering.Toml
