/-!
Search by bisection in a sorted array.
-/
namespace Concordance

/-- The place of an element that `probe` calls equal to the one looked for, where `probe` says of
each element how it compares with that one, and the elements stand in ascending order. -/
def bisectPlace {α : Type} (probe : α → Ordering) (xs : Array α) : Option (Fin xs.size) :=
  go 0 xs.size (Nat.le_refl _)
where
  /-- The search among the elements from `low` up to `high`. -/
  go (low high : Nat) (bound : high ≤ xs.size) : Option (Fin xs.size) :=
    if h : low < high then
      let middle := (low + high) / 2
      have inside : middle < xs.size := by omega
      match probe xs[middle] with
      | .eq => some ⟨middle, inside⟩
      | .lt => go (middle + 1) high bound
      | .gt => go low middle (by omega)
    else none
  termination_by high - low

/-- The element at that place. -/
def bisect {α : Type} (probe : α → Ordering) (xs : Array α) : Option α :=
  (bisectPlace probe xs).map (xs[·])

end Concordance
