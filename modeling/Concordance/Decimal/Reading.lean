import Concordance.Decimal.Digits
/-!
Reading doubles. A number is an optional sign, digits with an optional point, and an optional
exponent; `inf`, `infinity` and `nan` are read in any case. The nearest double is taken.
-/
namespace Concordance.Decimal

/-- The nearest double to `digits * 10 ^ exponent`. Beyond a thousand places from the point every
number is too large or too small for a double. -/
def nearest (digits : Nat) (exponent : Int) : Float :=
  let top := (toString digits).length + exponent
  if digits = 0 || top < -1000 then 0.0
  else if 1000 < top then Float.ofScientific 1 false 1000
  else Float.ofScientific digits (exponent < 0) exponent.natAbs

/-- A sign, if there is one, and what follows it: whether it is a minus, and the rest. -/
def splitSign : List Char → Bool × List Char
  | '-' :: rest => (true, rest)
  | '+' :: rest => (false, rest)
  | rest => (false, rest)

/-- Reads an exponent: nothing, or an `e` with a signed number. -/
def exponent? : List Char → Option Int
  | [] => some 0
  | e :: rest =>
    let (negative, digits) := splitSign rest
    if (e = 'e' || e = 'E') && !digits.isEmpty && digits.all Char.isDigit then
      some (if negative then -(natOfDigits digits) else natOfDigits digits)
    else none

def unsigned? (text : List Char) : Option Float :=
  let whole := text.takeWhile Char.isDigit
  let (fraction, rest) := match text.dropWhile Char.isDigit with
    | '.' :: rest => (rest.takeWhile Char.isDigit, rest.dropWhile Char.isDigit)
    | rest => ([], rest)
  if whole.isEmpty && fraction.isEmpty then none
  else do
    let exponent ← exponent? rest
    return nearest (natOfDigits (whole ++ fraction)) (exponent - fraction.length)

def float? (text : String) : Option Float := do
  let (negative, rest) := splitSign text.toList
  let x ← match String.ofList (rest.map Char.toLower) with
    | "inf" | "infinity" => some (1.0 / 0.0)
    | "nan" => some (0.0 / 0.0)
    | _ => unsigned? rest
  return if negative then -x else x

end Concordance.Decimal
