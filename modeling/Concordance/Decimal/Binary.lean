/-!
The value of a double as a mantissa times a power of two, and exact rounding of quotients.
-/
namespace Concordance.Decimal

/-- What a double stands for. A finite one is `mantissa * 2 ^ exponent`, with a sign that zero has
too. -/
inductive Binary where
  | nan
  | infinite (negative : Bool)
  | finite (negative : Bool) (mantissa : Nat) (exponent : Int)
  deriving DecidableEq, Repr

def Binary.ofFloat (x : Float) : Binary :=
  let bits := x.toBits.toNat
  let negative := 1 <<< 63 ≤ bits
  let exponent : Nat := (bits >>> 52) % (1 <<< 11)
  let fraction := bits % (1 <<< 52)
  if exponent = (1 <<< 11) - 1 then
    if fraction = 0 then .infinite negative else .nan
  else if exponent = 0 then .finite negative fraction (-1074)
  else .finite negative ((1 <<< 52) + fraction) ((exponent : Int) - 1075)

/-- A non-negative rational number as a quotient. -/
structure Quotient where
  numerator : Nat
  denominator : Nat
  deriving DecidableEq, Repr

namespace Quotient

/-- `mantissa * base ^ exponent`. -/
def scaled (mantissa base : Nat) (exponent : Int) : Quotient :=
  ⟨mantissa * base.pow exponent.toNat, base.pow (-exponent).toNat⟩

def mul (a b : Quotient) : Quotient :=
  ⟨a.numerator * b.numerator, a.denominator * b.denominator⟩

/-- The nearest natural number; a half goes to the even neighbour. -/
def round (q : Quotient) : Nat :=
  let below := q.numerator / q.denominator
  let rest := 2 * (q.numerator % q.denominator)
  if q.denominator < rest || (q.denominator == rest && below % 2 == 1) then below + 1 else below

end Quotient
end Concordance.Decimal
