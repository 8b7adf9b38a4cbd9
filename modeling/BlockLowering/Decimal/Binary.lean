import BlockLowering.Decimal.Basic
/-!
Binary floating-point numbers as bit patterns. A pattern decodes to `± significand · 2 ^ exponent`, an
infinity or no number at all, and every fraction is rounded to the nearest pattern, a tie going to
the even one.
-/
namespace BlockLowering.Binary

/-- An interchange format: the stored bits of the significand and the bits of the exponent. -/
structure Format where
  fractionBits : Nat
  exponentBits : Nat
  deriving DecidableEq, Repr

def single : Format := ⟨23,8⟩

def double : Format := ⟨52,11⟩

namespace Format

/-- The exponent field of infinities and of patterns that are no number. -/
def topField (f : Format) : Nat := Nat.pow 2 f.exponentBits - 1

/-- The power of two that the last bit of a subnormal number stands for. -/
def leastExponent (f : Format) : Int := 2 - Int.pow 2 (f.exponentBits - 1) - f.fractionBits

def infinity (f : Format) : Nat := f.topField * Nat.pow 2 f.fractionBits

def signBit (f : Format) : Nat := Nat.pow 2 (f.fractionBits + f.exponentBits)

end Format

inductive Reading where
  | notANumber
  | infinite (negative : Bool)
  | finite (negative : Bool) (significand : Nat) (exponent : Int)
  deriving DecidableEq, Repr

def read (f : Format) (bits : Nat) : Reading :=
  let negative := f.signBit ≤ bits
  let magnitude := bits % f.signBit
  let fraction := magnitude % Nat.pow 2 f.fractionBits
  let field := magnitude / Nat.pow 2 f.fractionBits
  if field = f.topField then
    if fraction = 0 then .infinite negative else .notANumber
  else if field = 0 then .finite negative fraction f.leastExponent
  else .finite negative (Nat.pow 2 f.fractionBits + fraction) (f.leastExponent + (field - 1 : Nat))

/-- The quotient rounded to the nearest whole number, a tie going to the even one. -/
def roundedQuotient (numerator denominator : Nat) : Nat :=
  let floor := numerator / denominator
  let twice := 2 * (numerator % denominator)
  if twice < denominator then floor
  else if denominator < twice then floor + 1
  else floor + floor % 2

/-- `numerator / denominator · 2 ^ (-exponent)` rounded to a whole number. -/
def scaled (numerator denominator : Nat) (exponent : Int) : Nat :=
  if 0 ≤ exponent then roundedQuotient numerator (denominator * Nat.pow 2 exponent.toNat)
  else roundedQuotient (numerator * Nat.pow 2 (-exponent).toNat) denominator

/-- The exponent for which the quotient has one more bit than the stored significand, unless that
    is below the least one of the format. -/
def fittingExponent (f : Format) (numerator denominator : Nat) : Int :=
  let guess : Int := numerator.log2 - denominator.log2 - (f.fractionBits + 1 : Nat)
  let reached : Bool :=
    if 0 ≤ guess then denominator * Nat.pow 2 (guess.toNat + f.fractionBits + 1) ≤ numerator
    else denominator * Nat.pow 2 (f.fractionBits + 1) ≤ numerator * Nat.pow 2 (-guess).toNat
  max f.leastExponent (if reached then guess + 1 else guess)

/-- The pattern nearest to a fraction; a magnitude past the largest finite one becomes infinite. -/
def ofFraction (f : Format) (negative : Bool) (numerator denominator : Nat) : Nat :=
  let magnitude :=
    if numerator = 0 then 0
    else
      let exponent := fittingExponent f numerator denominator
      let significand := scaled numerator denominator exponent
      min f.infinity ((exponent - f.leastExponent).toNat * Nat.pow 2 f.fractionBits + significand)
  if negative then f.signBit + magnitude else magnitude

/-- Decimal magnitudes from `10 ^ 400` up are infinite and those below `10 ^ (-400)` vanish in every
    format used here, so exponents past these bounds need not be expanded. -/
def decimalReach : Nat := 400

def ofDecimal (f : Format) (d : Decimal) : Nat :=
  let leading : Int := (Nat.toDigits 10 d.digits).length + d.exponent
  if d.digits = 0 ∨ leading < -decimalReach then ofFraction f d.negative 0 1
  else if leading > decimalReach then (if d.negative then f.signBit else 0) + f.infinity
  else if 0 ≤ d.exponent then ofFraction f d.negative (d.digits * Nat.pow 10 d.exponent.toNat) 1
  else ofFraction f d.negative d.digits (Nat.pow 10 (-d.exponent).toNat)

/-- The pattern of one format for a pattern of another, rounded; what is no number becomes the
    quiet pattern with an empty payload. -/
def convert (source target : Format) (bits : Nat) : Nat :=
  match read source bits with
  | .notANumber => target.infinity + Nat.pow 2 (target.fractionBits - 1)
  | .infinite negative => (if negative then target.signBit else 0) + target.infinity
  | .finite negative significand exponent =>
    if 0 ≤ exponent then ofFraction target negative (significand * Nat.pow 2 exponent.toNat) 1
    else ofFraction target negative significand (Nat.pow 2 (-exponent).toNat)

end BlockLowering.Binary
