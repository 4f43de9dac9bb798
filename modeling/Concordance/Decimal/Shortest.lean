import Concordance.Decimal.Places
/-!
The fewest decimal digits that read back to a double. Every double stands for an interval of real
numbers, those that round to it. The digits are the coarsest decimal grid with a point in that
interval, and on it the point nearest to the double.
-/
namespace Concordance.Decimal

/-- Which of two equally near grid points is taken. -/
inductive Tie where
  | upper
  | even
  deriving DecidableEq, Repr

/-- `digits * 10 ^ exponent`. -/
structure Scaled where
  digits : Nat
  exponent : Int
  deriving DecidableEq, Repr

/-- The reals that round to a positive double lie between `low` and `high`, in quarters of its last
binary place; the ends belong to them where the mantissa is even. Below a power of two the next
double is only half as far. -/
structure Interval where
  low : Nat
  value : Nat
  high : Nat
  closed : Bool
  deriving DecidableEq, Repr

def Interval.of (mantissa : Nat) (exponent : Int) : Interval :=
  let narrow := mantissa = 1 <<< 52 ∧ -1074 < exponent
  { low := 4 * mantissa - if narrow then 1 else 2
    value := 4 * mantissa
    high := 4 * mantissa + 2
    closed := mantissa % 2 = 0 }

/-- The point of the grid of step `10 ^ step` in the interval, in units of `2 ^ exponent`, that is
nearest to its value. -/
def Interval.gridPoint? (tie : Tie) (i : Interval) (exponent step : Int) : Option Nat :=
  let unit := (Quotient.scaled 1 2 exponent).mul (Quotient.scaled 1 10 (-step))
  let inside (d : Nat) : Bool :=
    let point := d * unit.denominator
    let low := i.low * unit.numerator
    let high := i.high * unit.numerator
    if i.closed then low ≤ point && point ≤ high else low < point && point < high
  let scaled := i.value * unit.numerator
  let below := scaled / unit.denominator
  let rest := 2 * (scaled % unit.denominator)
  let above := below + 1
  match inside below, inside above with
  | true, true =>
    if rest < unit.denominator then some below
    else if unit.denominator < rest then some above
    else if tie = .even && below % 2 = 0 then some below
    else some above
  | true, false => some below
  | false, true => some above
  | false, false => none

/-- Moves trailing zeros of the digits into the exponent, at most `n` of them. -/
def Scaled.trim : Nat → Scaled → Scaled
  | 0, s => s
  | n + 1, s => if s.digits % 10 = 0 then trim n ⟨s.digits / 10, s.exponent + 1⟩ else s

/-- The exponent of the highest decimal digit of a positive quotient. -/
def magnitude (q : Quotient) : Int :=
  let guess : Int := (toString q.numerator).length - (toString q.denominator).length
  let power := Quotient.scaled 1 10 guess
  if power.numerator * q.denominator ≤ q.numerator * power.denominator then guess else guess - 1

/-- The fewest digits of a positive double. Seventeen always suffice. -/
def shortest (tie : Tie) (mantissa : Nat) (exponent : Int) : Scaled :=
  let i := Interval.of mantissa exponent
  let top := magnitude (Quotient.scaled mantissa 2 exponent)
  let found := (List.range 17).findSome? fun (n : Nat) =>
    (i.gridPoint? tie (exponent - 2) (top - n)).map fun d => Scaled.mk d (top - n)
  (found.getD ⟨0, 0⟩).trim 17

/-- How shortest digits are laid out. -/
structure Layout where
  tie : Tie
  /-- Whether no exponent is written when the point stands this many places behind the first
  digit. -/
  positional : Int → Bool
  /-- What follows a whole number written without an exponent. -/
  wholeSuffix : String

/-- Digits with the point `point` places behind the first of them. -/
def Layout.place (layout : Layout) (digits : String) (point : Int) : String :=
  let zeros (n : Int) : String := String.ofList (List.replicate n.toNat '0')
  let size : Int := digits.length
  if layout.positional point then
    if size ≤ point then digits ++ zeros (point - size) ++ layout.wholeSuffix
    else if 0 < point then pointed digits (size - point).toNat
    else "0." ++ zeros (-point) ++ digits
  else pointed digits (digits.length - 1) ++ "e" ++ toString (point - 1)

def Layout.write (layout : Layout) (x : Float) : String :=
  match Binary.ofFloat x with
  | .nan => "NaN"
  | .infinite negative => infinityText negative
  | .finite negative 0 _ => sign negative ++ "0" ++ layout.wholeSuffix
  | .finite negative mantissa exponent =>
    let s := shortest layout.tie mantissa exponent
    let digits := toString s.digits
    sign negative ++ layout.place digits (digits.length + s.exponent)

/-- No exponent, however long the number gets; a whole number has no point. -/
def plain : Layout where
  tie := .upper
  positional := fun _ => true
  wholeSuffix := ""

end Concordance.Decimal
