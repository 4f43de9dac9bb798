/-!
Natural numbers and their decimal digits.
-/
namespace Concordance.Decimal

/-- The number that a list of decimal digits spells. -/
def natOfDigits (digits : List Char) : Nat :=
  digits.foldl (fun n c => 10 * n + (c.toNat - '0'.toNat)) 0

/-- A number without the plus sign that it may begin with. -/
def withoutPlus : List Char → List Char
  | '+' :: rest => rest
  | text => text

/-- Reads an unsigned number: one or more ASCII digits, after a plus sign or none, that spell a
number below `bound`. -/
def natBelow? (bound : Nat) (text : String) : Option Nat :=
  let digits := withoutPlus text.toList
  if digits.isEmpty || !digits.all Char.isDigit then none
  else
    let n := natOfDigits digits
    if n < bound then some n else none

end Concordance.Decimal
