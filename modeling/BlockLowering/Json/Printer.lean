import BlockLowering.Json.Basic
/-!
Writing JSON text in ASCII alone: every other character is written as its UTF-16 code units.
-/
namespace BlockLowering.Json

def unitEscape (unit : Nat) : List Char :=
  let hex := Nat.toDigits 16 unit
  '\\' :: 'u' :: (List.replicate (4 - hex.length) '0' ++ hex)

def printChar (c : Char) : List Char :=
  if c = '"' then ['\\','"']
  else if c = '\\' then ['\\','\\']
  else if 0x20 ≤ c.toNat ∧ c.toNat < 0x7f then [c]
  else if c.toNat < 0x10000 then unitEscape c.toNat
  else
    let offset := c.toNat - 0x10000
    unitEscape (0xD800 + offset / 0x400) ++ unitEscape (0xDC00 + offset % 0x400)

def printString (s : String) : String :=
  "\"" ++ String.ofList (s.toList.flatMap printChar) ++ "\""

mutual

def print : Json → String
  | .null => "null"
  | .bool true => "true"
  | .bool false => "false"
  | .int n => toString n
  | .decimal d => d.text
  | .str s => printString s
  | .arr items => "[" ++ ",".intercalate (printItems items) ++ "]"
  | .obj members => "\x7b" ++ ",".intercalate (printMembers members) ++ "\x7d"

def printItems : List Json → List String
  | [] => []
  | item :: rest => item.print :: printItems rest

def printMembers : List (String × Json) → List String
  | [] => []
  | (name, value) :: rest => (printString name ++ ":" ++ value.print) :: printMembers rest

end

end BlockLowering.Json
