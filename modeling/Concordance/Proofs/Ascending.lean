import Concordance.Ascending
import Concordance.Document
/-!
Ascending lists without repeats as finite sets: `mem_ascending` says what `ascending` holds,
`ascending_ascending` in which order, and `Ascending.ext` that nothing else tells two such lists
apart. Sorting by a comparison that calls only equal elements equal gives the one rearrangement that
is in order (`eq_inOrder`), whatever the order before (`inOrder_congr`).
-/
namespace Concordance

/-- The elements stand in ascending order, none of them twice. -/
abbrev Ascending {α : Type} [LT α] (xs : List α) : Prop := xs.Pairwise (· < ·)

section
variable {α : Type} [Ord α] [Std.TransOrd α]

theorem mem_ascending [Std.LawfulEqOrd α] {x : α} {xs : List α} : x ∈ ascending xs ↔ x ∈ xs := by
  classical
  rw [ascending, Std.TreeSet.mem_toList, Std.TreeSet.mem_ofList, List.contains_iff_mem]

theorem ascending_pairwise (xs : List α) : (ascending xs).Pairwise (compare · · = .lt) :=
  Std.TreeSet.ordered_toList

theorem nodup_ascending (xs : List α) : (ascending xs).Nodup := by
  apply (ascending_pairwise xs).imp
  intro a b hlt he
  exact absurd hlt (by simp [he])

end

theorem ascending_ascending (ds : List DocId) : Ascending (ascending ds) :=
  (ascending_pairwise ds).imp Std.compare_eq_lt.mp

namespace Ascending
variable {a b : DocId} {as bs : List DocId}

theorem not_mem_of_lt (hb : Ascending (b :: bs)) (h : a < b) : a ∉ b :: bs := by
  intro hm
  rcases List.mem_cons.mp hm with rfl | hm
  · exact UInt32.lt_irrefl a h
  · exact UInt32.lt_irrefl a (UInt32.lt_trans h ((List.pairwise_cons.mp hb).1 a hm))

theorem head_not_mem (ha : Ascending (a :: as)) : a ∉ as :=
  fun hm => UInt32.lt_irrefl a ((List.pairwise_cons.mp ha).1 a hm)

theorem nodup (ha : Ascending as) : as.Nodup :=
  ha.imp fun h => UInt32.ne_of_lt h

/-- Ascending lists with the same members are the same. -/
theorem ext (ha : Ascending as) (hb : Ascending bs) (h : ∀ d, d ∈ as ↔ d ∈ bs) : as = bs := by
  have hp : as.Perm bs := (List.perm_ext_iff_of_nodup ha.nodup hb.nodup).mpr h
  refine hp.eq_of_pairwise ?_ ha hb
  intro x y _ _ hxy hyx
  exact absurd (UInt32.lt_trans hxy hyx) (UInt32.lt_irrefl x)

end Ascending

/-- What is put in ascending order are the members alone, however often and wherever they stand. -/
theorem ascending_congr {as bs : List DocId} (h : ∀ d, d ∈ as ↔ d ∈ bs) :
    ascending as = ascending bs :=
  (ascending_ascending as).ext (ascending_ascending bs) fun d => by
    rw [mem_ascending, mem_ascending, h]

/-! ## Sorting -/

section
variable {α : Type} {cmp : α → α → Ordering} {xs ys : List α}

theorem inOrder_perm (xs : List α) : (inOrder cmp xs).Perm xs := List.mergeSort_perm xs _

variable [Std.TransCmp cmp]

theorem inOrder_pairwise (xs : List α) : (inOrder cmp xs).Pairwise fun a b => (cmp a b).isLE := by
  apply List.pairwise_mergeSort
  · intro a b c hab hbc
    exact Std.TransCmp.isLE_trans hab hbc
  · intro a b
    have hswap : cmp b a = (cmp a b).swap := Std.OrientedCmp.eq_swap
    rw [hswap]
    cases cmp a b <;> rfl

/-- Without ties, nothing but the sorted list has the same elements in this order. -/
theorem eq_inOrder_of_no_ties (hperm : ys.Perm xs) (hsorted : ys.Pairwise fun a b => (cmp a b).isLE)
    (hties : ∀ a ∈ ys, ∀ b ∈ ys, cmp a b = .eq → a = b) : ys = inOrder cmp xs := by
  have hsame : ys.Perm (inOrder cmp xs) := hperm.trans (inOrder_perm xs).symm
  refine hsame.eq_of_pairwise ?_ hsorted (inOrder_pairwise xs)
  intro a b ha hb hab hba
  exact hties a ha b (hsame.mem_iff.mpr hb) (Std.OrientedCmp.isLE_antisymm hab hba)

theorem eq_inOrder_of_lt (hperm : ys.Perm xs) (hsorted : ys.Pairwise (cmp · · = .lt)) :
    ys = inOrder cmp xs := by
  apply eq_inOrder_of_no_ties hperm
  · apply hsorted.imp
    intro a b hlt
    rw [hlt]
    rfl
  · refine List.Pairwise.forall_of_forall_of_flip (fun _ _ _ => rfl) (hsorted.imp ?_)
      (hsorted.imp ?_)
    · intro a b hlt heq
      rw [hlt] at heq
      cases heq
    · intro a b hlt heq
      rw [Std.OrientedCmp.eq_comm.mp heq] at hlt
      cases hlt

variable [Std.LawfulEqCmp cmp]

/-- Nothing but the sorted list has the same elements in this order. -/
theorem eq_inOrder (hperm : ys.Perm xs) (hsorted : ys.Pairwise fun a b => (cmp a b).isLE) :
    ys = inOrder cmp xs := by
  apply eq_inOrder_of_no_ties hperm hsorted
  intro a _ b _ heq
  exact Std.LawfulEqCmp.compare_eq_iff_eq.mp heq

theorem inOrder_congr (h : ys.Perm xs) : inOrder cmp ys = inOrder cmp xs :=
  eq_inOrder ((inOrder_perm ys).trans h) (inOrder_pairwise ys)

/-- Leaving elements out before sorting is leaving them out afterwards. -/
theorem inOrder_filter (p : α → Bool) (xs : List α) :
    (inOrder cmp xs).filter p = inOrder cmp (xs.filter p) :=
  eq_inOrder ((inOrder_perm xs).filter p) ((inOrder_pairwise xs).filter p)

end
end Concordance
