/-!
A rotate-and-multiply hash of texts. The bytes are taken in little-endian words, eight bytes while
eight remain, then four, then one by one, and a last word marks the end of the text.
-/
namespace BlockLowering.Text

def hashFactor : UInt64 := 0x517cc1b727220a95

def mixWord (hash word : UInt64) : UInt64 :=
  (((hash <<< 5) ||| (hash >>> 59)) ^^^ word) * hashFactor

/-- The word whose bytes are given lowest first. -/
def littleEndian (bytes : List UInt8) : UInt64 :=
  bytes.foldr (fun byte word => (word <<< 8) ||| byte.toUInt64) 0

/-- The words of a byte sequence, widest first. -/
def words : List UInt8 → List UInt64
  | a :: b :: c :: d :: e :: f :: g :: h :: rest => littleEndian [a,b,c,d,e,f,g,h] :: words rest
  | a :: b :: c :: d :: rest => littleEndian [a,b,c,d] :: rest.map UInt8.toUInt64
  | rest => rest.map UInt8.toUInt64

def endMark : UInt64 := 0xff

def wordHash (s : String) : UInt64 :=
  (words s.toUTF8.toList ++ [endMark]).foldl mixWord 0

end BlockLowering.Text
