/-!
Cutting a list into pieces.
-/
namespace Concordance

/-- The pieces of a list between the elements that `cut` marks. Neighbouring marks, and marks at
either end, leave empty pieces. -/
def pieces {α : Type} (cut : α → Bool) (list : List α) : List (List α) :=
  list.foldr (fun a ps => if cut a then [] :: ps else (a :: ps.headD []) :: ps.tail) [[]]

end Concordance
