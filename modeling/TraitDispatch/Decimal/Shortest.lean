/- The fewest decimal digits that read back to a double.

   A double is a significand times a power of two, and stands for all reals that round to it:
   those up to half a step away, ends included when the significand is even. Of the grids of
   powers of ten the coarsest that has a point in this interval is taken, and on it the point
   nearest to the double. -/
namespace TraitDispatch.Decimal

/-- The positive value `significand · 2 ^ exponent`. Below a power of two the next double is
    only half as far away as above it. -/
structure Binary where
  significand : Nat
  exponent : Int
  narrowBelow : Bool

def Binary.ofBits (bits : Nat) : Binary :=
  let fraction := bits % Nat.pow 2 52
  let field : Nat := bits / Nat.pow 2 52 % Nat.pow 2 11
  if field = 0 then ⟨fraction, -1074, false⟩
  else ⟨Nat.pow 2 52 + fraction, (field : Int) - 1075, fraction == 0 && field > 1⟩

def Binary.onGrid (x : Binary) (power : Int) : Option Nat :=
  let quarter := Nat.pow 2 (x.exponent - 2).toNat * Nat.pow 10 (-power).toNat
  let unit := Nat.pow 2 (2 - x.exponent).toNat * Nat.pow 10 power.toNat
  let exact := 4 * x.significand * quarter
  let low := (4 * x.significand - if x.narrowBelow then 1 else 2) * quarter
  let high := (4 * x.significand + 2) * quarter
  let readsBack (point : Nat) : Bool :=
    if x.significand % 2 = 0 then low ≤ point * unit && point * unit ≤ high
    else low < point * unit && point * unit < high
  let below := exact / unit
  match readsBack below, readsBack (below + 1) with
  | true, true => some (if 2 * exact < (2 * below + 1) * unit then below else below + 1)
  | true, false => some below
  | false, true => some (below + 1)
  | false, false => none

def Binary.topPower (x : Binary) : Int :=
  (x.exponent + x.significand.log2 + 1) * 30103 / 100000 + 2

/-- The digits as one number, and the power of ten of its last digit. Seventeen digits always
    suffice, and the search starts at most four places above the first. -/
def Binary.shortest (x : Binary) : Nat × Int :=
  let grids := (List.range 22).map fun (step : Nat) => x.topPower - step
  (grids.findSome? fun power => (x.onGrid power).map (·, power)).getD (0, 0)

end TraitDispatch.Decimal
