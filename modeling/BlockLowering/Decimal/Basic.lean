/-!
Signed decimals `± digits · 10 ^ exponent` and their positional text. The sign stands apart from the
digits, so that a negative zero keeps it.
-/
namespace BlockLowering

/-- The number `digits · 10 ^ exponent`, negated when `negative`. -/
structure Decimal where
  negative : Bool
  digits : Nat
  exponent : Int
  deriving DecidableEq, Repr

namespace Decimal

/-- Whole part and fraction of a digit text whose last `places` digits follow the point. -/
def pointAt (text : List Char) (places : Nat) : List Char :=
  if text.length ≤ places then
    '0' :: '.' :: (List.replicate (places - text.length) '0' ++ text)
  else
    text.take (text.length - places) ++ '.' :: text.drop (text.length - places)

/-- The magnitude written without an exponent and without a point after a whole number. -/
def magnitudeText (d : Decimal) : List Char :=
  let text := (Nat.toDigits 10 d.digits)
  if d.digits = 0 then ['0']
  else if 0 ≤ d.exponent then text ++ List.replicate d.exponent.toNat '0'
  else pointAt text (-d.exponent).toNat

/-- Positional text, with a minus sign for every negative number, zero included. -/
def text (d : Decimal) : String :=
  String.ofList (if d.negative then '-' :: d.magnitudeText else d.magnitudeText)

end Decimal

end BlockLowering
