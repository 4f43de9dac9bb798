import Concordance.Bisect
/-!
Bisection answers only with elements of the array that the probe accepts (`mem_of_bisect`,
`probe_of_bisect`), whatever the probe says. Where the elements stand in the strict order of their
keys, it finds the place of every one of them (`bisectPlace_key_eq_some_iff`) and so the element
(`bisect_key_eq_some_iff`).
-/
namespace Concordance
variable {α : Type} {probe : α → Ordering} {xs : Array α} {x : α}

theorem probe_of_bisectPlace_go {low high : Nat} {bound : high ≤ xs.size} {i : Nat}
    {hi : i < xs.size} (h : bisectPlace.go probe xs low high bound = some ⟨i, hi⟩) :
    probe xs[i] = .eq := by
  fun_induction bisectPlace.go probe xs low high bound with
  | case1 low high bound _ middle inside heq =>
    obtain rfl : middle = i := Fin.mk.inj (Option.some.inj h)
    exact heq
  | case2 low high bound _ middle _ _ ih => exact ih h
  | case3 low high bound _ middle _ _ ih => exact ih h
  | case4 => cases h

theorem probe_of_bisectPlace {i : Nat} {hi : i < xs.size}
    (h : bisectPlace probe xs = some ⟨i, hi⟩) : probe xs[i] = .eq := probe_of_bisectPlace_go h

theorem mem_of_bisect (h : bisect probe xs = some x) : x ∈ xs := by
  obtain ⟨⟨i, hi⟩, _, rfl⟩ := Option.map_eq_some_iff.mp h
  exact Array.getElem_mem hi

theorem probe_of_bisect (h : bisect probe xs = some x) : probe x = .eq := by
  obtain ⟨⟨i, hi⟩, hplace, rfl⟩ := Option.map_eq_some_iff.mp h
  exact probe_of_bisectPlace hplace

section
variable {κ : Type} [Ord κ] {key : α → κ}

/-- The elements stand in the strict order of their keys. -/
def SortedBy (key : α → κ) (xs : Array α) : Prop :=
  (xs.toList.map key).Pairwise (compare · · = .lt)

theorem SortedBy.compare_lt (h : SortedBy key xs) {i j : Nat} (hi : i < xs.size) (hj : j < xs.size)
    (hij : i < j) : compare (key xs[i]) (key xs[j]) = .lt := by
  have hpair := List.pairwise_iff_getElem.mp (List.pairwise_map.mp h) i j hi hj hij
  rwa [Array.getElem_toList, Array.getElem_toList] at hpair

variable [Std.LawfulEqOrd κ] [Std.OrientedOrd κ]

theorem SortedBy.index_cases (h : SortedBy key xs) {i j : Nat} (hi : i < xs.size)
    (hj : j < xs.size) :
    match compare (key xs[i]) (key xs[j]) with
    | .lt => i < j
    | .eq => i = j
    | .gt => j < i := by
  rcases Nat.lt_trichotomy i j with hij | rfl | hij
  · rw [h.compare_lt hi hj hij]
    exact hij
  · rw [Std.LawfulEqOrd.compare_eq_iff_eq.mpr rfl]
  · have hgt : compare (key xs[i]) (key xs[j]) = .gt :=
      Std.OrientedCmp.gt_of_lt (h.compare_lt hj hi hij)
    rw [hgt]
    exact hij

/-- The search never loses an element that stands between its bounds. -/
theorem bisectPlace_go_getElem (h : SortedBy key xs) {i : Nat} (hi : i < xs.size) {low high : Nat}
    {bound : high ≤ xs.size} (hlow : low ≤ i) (hhigh : i < high) :
    bisectPlace.go (fun y => compare (key y) (key xs[i])) xs low high bound = some ⟨i, hi⟩ := by
  fun_induction bisectPlace.go (fun y => compare (key y) (key xs[i])) xs low high bound with
  | case1 low high bound _ middle hm heq =>
    have hcase := h.index_cases hm hi
    simp only [heq] at hcase
    simp only [hcase]
  | case2 low high bound _ middle hm hlt ih =>
    have hcase := h.index_cases hm hi
    simp only [hlt] at hcase
    exact ih (by omega) hhigh
  | case3 low high bound _ middle hm hgt ih =>
    have hcase := h.index_cases hm hi
    simp only [hgt] at hcase
    exact ih hlow hcase
  | case4 => omega

theorem bisectPlace_key_eq_some_iff (h : SortedBy key xs) {k : κ} {i : Nat} (hi : i < xs.size) :
    bisectPlace (fun y => compare (key y) k) xs = some ⟨i, hi⟩ ↔ key xs[i] = k := by
  constructor
  · intro hplace
    exact Std.LawfulEqOrd.compare_eq_iff_eq.mp (probe_of_bisectPlace hplace)
  · rintro rfl
    exact bisectPlace_go_getElem h hi (Nat.zero_le i) hi

/-- Among elements sorted by their keys, the one with a given key is found. -/
theorem bisect_key_eq_some_iff (h : SortedBy key xs) {k : κ} :
    bisect (fun y => compare (key y) k) xs = some x ↔ x ∈ xs ∧ key x = k := by
  constructor
  · intro hx
    have hkey := probe_of_bisect hx
    exact ⟨mem_of_bisect hx, Std.LawfulEqOrd.compare_eq_iff_eq.mp hkey⟩
  · rintro ⟨hx, rfl⟩
    obtain ⟨i, hi, rfl⟩ := Array.mem_iff_getElem.mp hx
    have hplace : bisectPlace (fun y => compare (key y) (key xs[i])) xs = some ⟨i, hi⟩ :=
      (bisectPlace_key_eq_some_iff h hi).mpr rfl
    exact Option.map_eq_some_iff.mpr ⟨⟨i, hi⟩, hplace, rfl⟩

end
end Concordance
