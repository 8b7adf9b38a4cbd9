import BlockLowering.Decimal.Binary
/-!
The shortest decimal that reads back as a given binary number. On each decimal grid, from coarse to
fine, the two neighbours of the number are tried; the first grid on which one of them rounds back
gives the digits, the nearer neighbour first and the upper one in a tie.
-/
namespace BlockLowering.Binary

/-- The reals that round to a binary number, in units of a quarter of its last bit, with the number
    itself at `4 · significand`. Both ends belong to it exactly when `closed`. -/
structure Basin where
  lower : Nat
  centre : Nat
  upper : Nat
  closed : Bool
  deriving Repr

/-- The basin of a positive number; below a power of two the patterns lie twice as dense. -/
def basin (f : Format) (significand : Nat) (exponent : Int) : Basin where
  lower :=
    if significand = Nat.pow 2 f.fractionBits ∧ f.leastExponent < exponent then 4 * significand - 1
    else 4 * significand - 2
  centre := 4 * significand
  upper := 4 * significand + 2
  closed := significand % 2 = 0

namespace Basin

def scale (b : Basin) (factor : Nat) : Basin :=
  ⟨b.lower * factor,b.centre * factor,b.upper * factor,b.closed⟩

def contains (b : Basin) (x : Nat) : Bool :=
  if b.closed then b.lower ≤ x ∧ x ≤ b.upper else b.lower < x ∧ x < b.upper

/-- The multiple of `unit` chosen for the basin, if one of the neighbours of its centre lies in it. -/
def neighbour? (b : Basin) (unit : Nat) : Option Nat :=
  let below := b.centre / unit
  let rest := b.centre % unit
  let downFits := below ≠ 0 ∧ b.contains (below * unit)
  let upFits := b.contains ((below + 1) * unit)
  if downFits ∧ (¬ upFits ∨ 2 * rest < unit) then some below
  else if upFits then some (below + 1)
  else none

end Basin

/-- Try the grids `10 ^ exponent`, then the next finer ones; `unit` is the length of the first in
    the basin's units. A grid finer than the unit refines the basin instead. -/
def searchGrids (b : Basin) (unit : Nat) (exponent : Int) : Nat → Option (Nat × Int)
  | 0 => none
  | steps + 1 =>
    match b.neighbour? unit with
    | some digits => some (digits, exponent)
    | none =>
      if unit % 10 = 0 then searchGrids b (unit / 10) (exponent - 1) steps
      else searchGrids (b.scale 10) unit (exponent - 1) steps

/-- A number of a supported format has at most this many decimal places after its first digit. -/
def gridSteps : Nat := 800

/-- The shortest decimal that rounds to `significand · 2 ^ exponent`. -/
def shortest (f : Format) (negative : Bool) (significand : Nat) (exponent : Int) : Decimal :=
  let quarter := exponent - 2
  let b := (basin f significand exponent).scale (Nat.pow 2 quarter.toNat)
  let one := Nat.pow 2 (-quarter).toNat
  let places := (Nat.toDigits 10 (b.upper / one)).length
  match searchGrids b (one * Nat.pow 10 places) places gridSteps with
  | some (digits, grid) => ⟨negative,digits,grid⟩
  | none => ⟨negative,0,0⟩

def toDecimal? (f : Format) (bits : Nat) : Option Decimal :=
  match read f bits with
  | .finite negative significand exponent =>
    some (if significand = 0 then ⟨negative,0,0⟩ else shortest f negative significand exponent)
  | _ => none

def text (f : Format) (bits : Nat) : String :=
  match read f bits with
  | .notANumber => "NaN"
  | .infinite negative => if negative then "-inf" else "inf"
  | .finite .. => ((toDecimal? f bits).map Decimal.text).getD ""

end BlockLowering.Binary
