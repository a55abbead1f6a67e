import TraitDispatch.Decimal.Shortest
import TraitDispatch.Form

/- Numbers are written without an exponent, at any magnitude, and whole numbers without a point. -/
namespace TraitDispatch

/-- The number `digits · 10 ^ power`. -/
def Decimal.positional (digits : Nat) (power : Int) : String :=
  let written := (Nat.toDigits 10 digits)
  let places := (-power).toNat
  if places = 0 then
    String.ofList (written ++ List.replicate power.toNat '0')
  else
    let padded := List.replicate (places + 1 - written.length) '0' ++ written
    let whole := padded.length - places
    String.ofList (padded.take whole ++ '.' :: padded.drop whole)

namespace Number

def negative (n : Number) : Bool := n.bits.toNat ≥ Nat.pow 2 63

def magnitude (n : Number) : Nat := n.bits.toNat % Nat.pow 2 63

def text (n : Number) : String :=
  let infinite := 2047 * Nat.pow 2 52
  if n.magnitude > infinite then "NaN"
  else
    let sign := if n.negative then "-" else ""
    if n.magnitude = infinite then sign ++ "inf"
    else if n.magnitude = 0 then sign ++ "0"
    else
      let (digits, power) := (Decimal.Binary.ofBits n.magnitude).shortest
      sign ++ Decimal.positional digits power

end Number
end TraitDispatch
