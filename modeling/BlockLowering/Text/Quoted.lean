import BlockLowering.Text.Printable
/-!
Quoted text: the characters between double quotes, with an escape for each character that would not
read back from the page.
-/
namespace BlockLowering.Text

/-- A character named by its code point. -/
def codePointEscape (c : Char) : List Char :=
  ['\\','u','\x7b'] ++ Nat.toDigits 16 c.toNat ++ ['\x7d']

/-- How one character stands inside a quoted text. -/
def quotedChar : Char → List Char
  | '"' => ['\\','"']
  | '\\' => ['\\','\\']
  | '\n' => ['\\','n']
  | '\r' => ['\\','r']
  | '\t' => ['\\','t']
  | '\x00' => ['\\','0']
  | c => if isPrintable c then [c] else codePointEscape c

def quoted (s : String) : String :=
  String.ofList ('"' :: s.toList.flatMap quotedChar ++ ['"'])

end BlockLowering.Text
