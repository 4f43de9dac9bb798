/-!
The pieces of equal length of a word, its grams.
-/
namespace Concordance

/-- The pieces of `n` neighbouring elements, by their start. -/
def slices {α : Type} (n : Nat) : List α → List (List α)
  | [] => []
  | x :: xs =>
    let piece := (x :: xs).take n
    if piece.length = n then piece :: slices n xs else []

/-- The elements of a list, each at its first place only. -/
def firsts {α : Type} [DecidableEq α] : List α → List α
  | [] => []
  | x :: xs => x :: (firsts xs).filter (· ≠ x)

/-- The distinct grams of `n` characters of a word, in the order of their first places. There are
none of no characters. -/
def grams (n : Nat) (word : String) : List (List Char) :=
  if n = 0 then [] else firsts (slices n word.toList)

end Concordance
