import Std.Data.TreeSet
/-!
Lists in order: ascending lists without repeats, as the written form of finite sets, and lists
sorted by a comparison.
-/
namespace Concordance

/-- The members of a list, each once, ascending. -/
def ascending {α : Type} [Ord α] (xs : List α) : List α :=
  (Std.TreeSet.ofList xs).toList

/-- The elements of a list, sorted by a comparison. Those that compare equal stay as they stand. -/
def inOrder {α : Type} (cmp : α → α → Ordering) (xs : List α) : List α :=
  xs.mergeSort fun a b => (cmp a b).isLE

end Concordance
