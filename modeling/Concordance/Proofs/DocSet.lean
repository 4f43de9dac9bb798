import Concordance.DocSet
import Concordance.Proofs.Ascending
/-!
The merges of ascending lists are the operations of sets: each keeps the order, and its members
are those in both lists (`mem_inter`), in one of them (`mem_union`, `mem_unionAll`), or in the
first alone (`mem_diff`); `merges_exact` says all of this at once. Union holds for any lists; the
other two drop what they have walked past, and so need the order.
-/
namespace Concordance.DocSet
variable {d : DocId} {as bs : List DocId} {sets : List (List DocId)}

/-! ## Intersection -/

theorem inter_sublist (as bs : List DocId) : (inter as bs).Sublist as := by
  fun_induction inter as bs with
  | case1 a as b bs _ ih => exact ih.cons a
  | case2 a as b bs _ _ ih => exact ih
  | case3 a as b bs _ _ ih => exact ih.cons_cons a
  | case4 => exact List.Sublist.refl _
  | case5 => exact List.nil_sublist _

theorem inter_ascending (ha : Ascending as) (bs : List DocId) : Ascending (inter as bs) :=
  ha.sublist (inter_sublist as bs)

theorem mem_inter (ha : Ascending as) (hb : Ascending bs) :
    d ∈ inter as bs ↔ d ∈ as ∧ d ∈ bs := by
  fun_induction inter as bs with
  | case1 a as b bs h ih =>
    rw [ih ha.tail hb, List.mem_cons (l := as), or_and_right, or_iff_right]
    rintro ⟨rfl, hm⟩
    exact hb.not_mem_of_lt h hm
  | case2 a as b bs _ h ih =>
    rw [ih ha hb.tail, List.mem_cons (a := d) (b := b), and_or_left, or_iff_right]
    rintro ⟨hm, rfl⟩
    exact ha.not_mem_of_lt h hm
  | case3 a as b bs h h' ih =>
    obtain rfl : a = b := UInt32.le_antisymm (UInt32.not_lt.mp h') (UInt32.not_lt.mp h)
    rw [List.mem_cons, ih ha.tail hb.tail, List.mem_cons, List.mem_cons, or_and_left]
  | case4 => simp
  | case5 => simp

/-! ## Union -/

theorem mem_union : d ∈ union as bs ↔ d ∈ as ∨ d ∈ bs := by
  fun_induction union as bs with
  | case1 a as b bs _ ih => rw [List.mem_cons, ih, List.mem_cons (l := as), or_assoc]
  | case2 a as b bs _ _ ih => rw [List.mem_cons, ih, List.mem_cons (l := bs), or_left_comm]
  | case3 a as b bs h h' ih =>
    obtain rfl : a = b := UInt32.le_antisymm (UInt32.not_lt.mp h') (UInt32.not_lt.mp h)
    rw [List.mem_cons, ih, List.mem_cons, List.mem_cons, or_or_distrib_left]
  | case4 => simp
  | case5 => simp

theorem union_ascending (ha : Ascending as) (hb : Ascending bs) : Ascending (union as bs) := by
  fun_induction union as bs with
  | case1 a as b bs h ih =>
    -- the smaller head stands before all of the rest
    have hm : ∀ d ∈ union as (b :: bs), a < d := by
      intro d hd
      rcases mem_union.mp hd with hd | hd
      · exact (List.pairwise_cons.mp ha).1 d hd
      · rcases List.mem_cons.mp hd with rfl | hd
        · exact h
        · exact UInt32.lt_trans h ((List.pairwise_cons.mp hb).1 d hd)
    exact List.pairwise_cons.mpr ⟨hm, ih ha.tail hb⟩
  | case2 a as b bs _ h ih =>
    have hm : ∀ d ∈ union (a :: as) bs, b < d := by
      intro d hd
      rcases mem_union.mp hd with hd | hd
      · rcases List.mem_cons.mp hd with rfl | hd
        · exact h
        · exact UInt32.lt_trans h ((List.pairwise_cons.mp ha).1 d hd)
      · exact (List.pairwise_cons.mp hb).1 d hd
    exact List.pairwise_cons.mpr ⟨hm, ih ha hb.tail⟩
  | case3 a as b bs h h' ih =>
    obtain rfl : a = b := UInt32.le_antisymm (UInt32.not_lt.mp h') (UInt32.not_lt.mp h)
    have hm : ∀ d ∈ union as bs, a < d := by
      intro d hd
      rcases mem_union.mp hd with hd | hd
      · exact (List.pairwise_cons.mp ha).1 d hd
      · exact (List.pairwise_cons.mp hb).1 d hd
    exact List.pairwise_cons.mpr ⟨hm, ih ha.tail hb.tail⟩
  | case4 => exact hb
  | case5 => exact ha

theorem mem_foldl_union (acc : List DocId) :
    d ∈ sets.foldl union acc ↔ d ∈ acc ∨ ∃ s ∈ sets, d ∈ s := by
  induction sets generalizing acc with
  | nil => simp
  | cons s sets ih =>
    rw [List.foldl_cons, ih, mem_union, or_assoc]
    simp

theorem foldl_union_ascending {acc : List DocId} (hacc : Ascending acc)
    (h : ∀ s ∈ sets, Ascending s) : Ascending (sets.foldl union acc) := by
  induction sets generalizing acc with
  | nil => exact hacc
  | cons s sets ih =>
    exact ih (union_ascending hacc (h s List.mem_cons_self))
      (fun t ht => h t (List.mem_cons_of_mem s ht))

theorem mem_unionAll : d ∈ unionAll sets ↔ ∃ s ∈ sets, d ∈ s := by
  rw [unionAll, mem_foldl_union]
  simp

theorem unionAll_ascending (h : ∀ s ∈ sets, Ascending s) : Ascending (unionAll sets) :=
  foldl_union_ascending List.Pairwise.nil h

/-! ## Difference -/

theorem diff_sublist (as bs : List DocId) : (diff as bs).Sublist as := by
  fun_induction diff as bs with
  | case1 a as b bs _ ih => exact ih.cons_cons a
  | case2 a as b bs _ _ ih => exact ih
  | case3 a as b bs _ _ ih => exact ih.cons a
  | case4 => exact List.Sublist.refl _
  | case5 => exact List.Sublist.refl _

theorem diff_ascending (ha : Ascending as) (bs : List DocId) : Ascending (diff as bs) :=
  ha.sublist (diff_sublist as bs)

theorem mem_diff (ha : Ascending as) (hb : Ascending bs) :
    d ∈ diff as bs ↔ d ∈ as ∧ d ∉ bs := by
  fun_induction diff as bs with
  | case1 a as b bs h ih =>
    have hn := hb.not_mem_of_lt h
    rw [List.mem_cons, ih ha.tail hb, List.mem_cons (l := as)]
    constructor
    · rintro (rfl | ⟨hm, hd⟩)
      · exact ⟨.inl rfl, hn⟩
      · exact ⟨.inr hm, hd⟩
    · rintro ⟨rfl | hm, hd⟩
      · exact .inl rfl
      · exact .inr ⟨hm, hd⟩
  | case2 a as b bs _ h ih =>
    -- the head of the second list is below all of the first, so that it takes nothing out
    have hn := ha.not_mem_of_lt h
    rw [ih ha hb.tail, List.mem_cons (a := d) (b := b), not_or]
    refine and_congr_right fun hm => (and_iff_right ?_).symm
    rintro rfl
    exact hn hm
  | case3 a as b bs h h' ih =>
    obtain rfl : a = b := UInt32.le_antisymm (UInt32.not_lt.mp h') (UInt32.not_lt.mp h)
    rw [ih ha.tail hb.tail, List.mem_cons, List.mem_cons, not_or]
    constructor
    · rintro ⟨hm, hn⟩
      refine ⟨.inr hm, ?_, hn⟩
      rintro rfl
      exact ha.head_not_mem hm
    · rintro ⟨rfl | hm, hne, hn⟩
      · exact absurd rfl hne
      · exact ⟨hm, hn⟩
  | case4 => simp
  | case5 => simp

/-! ## All operations -/

/-- Of ascending lists each merge is ascending again, and it holds exactly what is in both of them,
in at least one, in the first and not in the second, or in at least one of any number of lists. -/
theorem merges_exact (ha : Ascending as) (hb : Ascending bs) (hsets : ∀ s ∈ sets, Ascending s) :
    (Ascending (inter as bs) ∧ ∀ d, d ∈ inter as bs ↔ d ∈ as ∧ d ∈ bs) ∧
    (Ascending (union as bs) ∧ ∀ d, d ∈ union as bs ↔ d ∈ as ∨ d ∈ bs) ∧
    (Ascending (diff as bs) ∧ ∀ d, d ∈ diff as bs ↔ d ∈ as ∧ d ∉ bs) ∧
    (Ascending (unionAll sets) ∧ ∀ d, d ∈ unionAll sets ↔ ∃ s ∈ sets, d ∈ s) := by
  refine ⟨⟨inter_ascending ha bs, ?_⟩, ⟨union_ascending ha hb, ?_⟩, ⟨diff_ascending ha bs, ?_⟩,
    ⟨unionAll_ascending hsets, ?_⟩⟩
  · exact fun _ => mem_inter ha hb
  · exact fun _ => mem_union
  · exact fun _ => mem_diff ha hb
  · exact fun _ => mem_unionAll

/-- Two sets with the last document that there is, and a list of sets with an empty one in it. -/
def oddDocs : List DocId := [1, 5, 4294967295]

def highDocs : List DocId := [2, 5, 7, 4294967295]

def lowSets : List (List DocId) := [[3, 5], [], [0, 5]]

theorem merges_exact_last : Ascending oddDocs ∧ Ascending highDocs ∧
    (∀ s ∈ lowSets, Ascending s) ∧
    (∀ d, d ∈ inter oddDocs highDocs ↔ d ∈ oddDocs ∧ d ∈ highDocs) ∧
    7 ∈ union oddDocs highDocs ∧ 4294967295 ∉ diff oddDocs highDocs ∧
    Ascending (unionAll lowSets) ∧ 0 ∈ unionAll lowSets := by
  have ha : Ascending oddDocs := by decide
  have hb : Ascending highDocs := by decide
  have hsets : ∀ s ∈ lowSets, Ascending s := by decide
  obtain ⟨⟨-, hinter⟩, ⟨-, hunion⟩, ⟨-, hdiff⟩, hall, hsome⟩ := merges_exact ha hb hsets
  refine ⟨ha, hb, hsets, hinter, (hunion 7).mpr (by decide), ?_, hall, (hsome 0).mpr (by decide)⟩
  rw [hdiff]
  decide

end Concordance.DocSet
