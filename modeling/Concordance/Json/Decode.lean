import Concordance.Decimal.Digits
import Concordance.Json.Read
/-!
Taking typed data out of JSON values. A record is an object with fields of known names, or an array
with the fields in order; unknown fields are passed over, and a known one may stand there only once.
-/
namespace Concordance.Json

/-! ## Numbers -/

/-- Reads digits onto a number as long as it stays below 2 ^ 64: the number, how many digits were
read, and the first digit that was not, with all behind it. -/
def accumulate (n : Nat) : List Char → Nat × Nat × List Char
  | [] => (n, 0, [])
  | d :: digits =>
    let more := 10 * n + (d.toNat - '0'.toNat)
    if more < UInt64.size then
      let (n, read, rest) := accumulate more digits
      (n, read + 1, rest)
    else (n, 0, d :: digits)

/-- A power of ten with an exponent up to 308. -/
def powerOfTen (exponent : Nat) : Float := Float.ofScientific 1 false exponent

/-- `x` divided by a power of ten, in steps of at most 308 places. -/
def divideByPower (x : Float) (exponent : Nat) : Float :=
  if exponent ≤ 308 then x / powerOfTen exponent
  else if x == 0.0 then x
  else divideByPower (x / powerOfTen 308) (exponent - 308)
termination_by exponent

/-- `x` times a power of ten; there is none where that is too large for a double. -/
def multiplyByPower? (x : Float) (exponent : Nat) : Option Float :=
  if exponent ≤ 308 then
    let y := x * powerOfTen exponent
    if y.isInf then none else some y
  else if x == 0.0 then some x
  else none

/-- The double of a number: its leading digits as far as they fit into 64 bits, scaled by a power of
ten. Each of these steps rounds, so that long numbers may miss the nearest double. -/
def Number.toFloat? (n : Number) : Option Float := do
  let (leading, _, restWhole) := accumulate 0 n.whole
  let (leading, readFraction, _) := accumulate leading n.fraction
  let (negativeExponent, digits) := n.exponent.getD (false, [])
  let given : Int := Decimal.natOfDigits digits
  let exponent := restWhole.length - readFraction + if negativeExponent then -given else given
  let x := leading.toFloat
  let y ←
    if exponent < 0 then some (divideByPower x exponent.natAbs)
    else multiplyByPower? x exponent.natAbs
  return if n.negative then -y else y

namespace Value

/-- A number written as a natural number below `bound`. -/
def natBelow? (bound : Nat) : Value → Option Nat
  | number form => do
    let n ← Number.ofForm? form
    let value := Decimal.natOfDigits n.whole
    if n.integral && !n.negative && value < bound then some value else none
  | _ => none

/-- A number of any form, as a double. -/
def toFloat? : Value → Option Float
  | number form => do (← Number.ofForm? form).toFloat?
  | _ => none

def bool? : Value → Option Bool
  | bool b => some b
  | _ => none

def text? : Value → Option String
  | string text => text
  | _ => none

/-- The values of the named fields of a record, in the order of the names. A field that is missing
has no value. -/
def fields? (names : List String) : Value → Option (List (Option Value))
  | array items =>
    if items.length ≤ names.length then
      some ((items.map some) ++ List.replicate (names.length - items.length) none)
    else none
  | object fields =>
    if fields.all (·.1.isSome) then
      names.mapM fun name =>
        match fields.filter (·.1 == some name) with
        | [] => some none
        | [(_, value)] => some (some value)
        | _ => none
    else none
  | _ => none

end Value
end Concordance.Json
