import Concordance.Decimal.Binary
/-!
Doubles with a set number of decimal places. The exact binary value is rounded; a half goes to the
even neighbour.
-/
namespace Concordance.Decimal

def sign (negative : Bool) : String := if negative then "-" else ""

def infinityText (negative : Bool) : String := sign negative ++ "inf"

/-- Digits with a point before the last `places` of them. -/
def pointed (digits : String) (places : Nat) : String :=
  let padded := List.replicate (places + 1 - digits.length) '0' ++ digits.toList
  let whole := padded.length - places
  String.ofList (padded.take whole) ++
    if places = 0 then "" else "." ++ String.ofList (padded.drop whole)

/-- A double with `places` digits after the point. -/
def fixed (places : Nat) (x : Float) : String :=
  match Binary.ofFloat x with
  | .nan => "NaN"
  | .infinite negative => infinityText negative
  | .finite negative mantissa exponent =>
    let units := ((Quotient.scaled mantissa 2 exponent).mul ⟨Nat.pow 10 places, 1⟩).round
    sign negative ++ pointed (toString units) places

end Concordance.Decimal
