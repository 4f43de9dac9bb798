import Concordance.Proofs.Index.Views
import Mathlib.Algebra.GroupWithZero.Nat
import Mathlib.Algebra.Order.BigOperators.Group.List
import Mathlib.Algebra.Order.Ring.Nat
import Mathlib.Data.List.Nodup
/-!
The sum of all lengths fits in its word. Which lengths an index may have is said without the builder
(`Measures`): each known document has one entry, with its registered length or else with the one
implied by a last position. What keeps the sum small is that no document has two entries. There are
no more documents than numbers of documents (`length_le_of_nodup`), each length is a word of half
the size, and so the sum stays below its bound in whatever order it is added up
(`totalLength_fits`). The bound leaves no room: there are documents that meet it
(`exists_lengthSum_eq`).
-/
namespace Concordance.Builder

variable {table : List (DocId × Length)} {calls : List Call} {order : TableOrder} {d : DocId}

/-! ## Sums -/

/-- The sum of the lengths as a number without bound. -/
def lengthSum (table : List (DocId × Length)) : Nat := (table.map (·.2.toNat)).sum

theorem lengthSum_cons (entry : DocId × Length) (table : List (DocId × Length)) :
    lengthSum (entry :: table) = entry.2.toNat + lengthSum table := by
  rw [lengthSum, List.map_cons, List.sum_cons, lengthSum]

/-- Adding up in a word is adding up, less what does not fit in. -/
theorem toNat_foldl_add (table : List (DocId × Length)) (total : UInt64) :
    (table.foldl (fun total entry => total + entry.2.toUInt64) total).toNat =
      (total.toNat + lengthSum table) % UInt64.size := by
  -- the sum so far is any number, so that one remainder is taken at the end
  induction table generalizing total with
  | nil => exact (Nat.mod_eq_of_lt total.toNat_lt_size).symm
  | cons entry table ih =>
    have hsize : 2 ^ 64 = UInt64.size := rfl
    rw [List.foldl_cons, ih, UInt64.toNat_add, UInt32.toNat_toUInt64, lengthSum_cons, hsize,
      Nat.mod_add_mod, Nat.add_assoc]

theorem toNat_totalLength (h : lengthSum table < UInt64.size) :
    (totalLength table).toNat = lengthSum table := by
  rw [totalLength, toNat_foldl_add, UInt64.toNat_zero, Nat.zero_add]
  exact Nat.mod_eq_of_lt h

theorem lengthSum_take_le (table : List (DocId × Length)) (k : Nat) :
    lengthSum (table.take k) ≤ lengthSum table := by
  have hsplit : lengthSum (table.take k) + lengthSum (table.drop k) = lengthSum table := by
    rw [lengthSum, lengthSum, ← List.sum_append, ← List.map_append, List.take_append_drop,
      lengthSum]
  omega

theorem lengthSum_le (table : List (DocId × Length)) :
    lengthSum table ≤ table.length * (UInt32.size - 1) := by
  have hle : ∀ n ∈ table.map (·.2.toNat), n ≤ UInt32.size - 1 := by
    intro n hn
    obtain ⟨entry, _, rfl⟩ := List.mem_map.mp hn
    have hlt := entry.2.toNat_lt_size
    omega
  have hsum := List.sum_le_card_nsmul _ _ hle
  rwa [List.length_map, Nat.nsmul_eq_mul] at hsum

theorem length_le_of_nodup {ds : List DocId} (h : ds.Nodup) : ds.length ≤ UInt32.size := by
  have hnodup : (ds.map UInt32.toNat).Nodup := h.map fun _ _ => UInt32.toNat_inj.mp
  have hsubset : ds.map UInt32.toNat ⊆ List.range UInt32.size := by
    intro n hn
    obtain ⟨d, _, rfl⟩ := List.mem_map.mp hn
    exact List.mem_range.mpr d.toNat_lt_size
  calc ds.length = (ds.map UInt32.toNat).length := (List.length_map _).symm
    _ ≤ (List.range UInt32.size).length := hnodup.length_le_of_subset hsubset
    _ = UInt32.size := List.length_range

/-! ## Tables of lengths -/

/-- The table gives each document of which the calls tell something one length: the one registered,
or else one more than the last position of one of its terms. Neither the choice of that term nor
the order of the documents is fixed. -/
structure Measures (calls : List Call) (table : List (DocId × Length)) : Prop where
  nodup_docs : (table.map (·.1)).Nodup
  mem_docs : ∀ d, d ∈ table.map (·.1) ↔
    (registered? calls d).isSome ∨ ∃ term p, Recorded calls ⟨term, d, p⟩
  length_eq : ∀ d n, (d, n) ∈ table →
    registered? calls d = some n ∨
      registered? calls d = none ∧ ∃ term p, IsLast calls term d p ∧ n = p + 1

theorem measures_lengthTable (calls : List Call) (order : TableOrder) :
    Measures calls ((ofCalls calls).lengthTable order) where
  nodup_docs := by
    have hsorted := (ofCalls calls).lengthTable_sortedBy order
    rw [SortedBy, List.toList_toArray] at hsorted
    apply hsorted.imp
    intro d d' hlt he
    exact absurd hlt (by simp [he])
  mem_docs := by
    intro d
    rw [mem_lengthTable_docs, mem_observedDocs_iff, ← Std.TreeMap.isSome_getElem?_iff_mem,
      getElem?_ofCalls]
  length_eq := by
    intro d n hm
    rw [mem_lengthTable, getElem?_ofCalls] at hm
    cases hr : registered? calls d with
    | some m => exact .inl (by rwa [hr, Option.some_or] at hm)
    | none =>
      rw [hr, Option.none_or] at hm
      obtain ⟨term, p, hp, hn⟩ := exists_endsAt_of_implied? hm
      exact .inr ⟨rfl, term, p, endsAt_ofCalls_iff.mp hp, hn⟩

namespace Measures

theorem lengthSum_le (h : Measures calls table) :
    lengthSum table ≤ UInt32.size * (UInt32.size - 1) := by
  have hlength := length_le_of_nodup h.nodup_docs
  rw [List.length_map] at hlength
  exact (Builder.lengthSum_le table).trans (Nat.mul_le_mul_right _ hlength)

theorem lengthSum_lt (h : Measures calls table) : lengthSum table < UInt64.size :=
  Nat.lt_of_le_of_lt h.lengthSum_le (by decide)

/-- The table is empty where there is nothing to index. -/
theorem length_eq_zero_iff (h : Measures calls table) :
    table.length = 0 ↔ (ofCalls calls).build order = .error .emptyCorpus := by
  rw [build_eq_error_iff, lengthTable_ofCalls_eq_nil_iff, List.length_eq_zero_iff,
    ← List.map_eq_nil_iff (f := Prod.fst), List.eq_nil_iff_forall_not_mem]
  apply forall_congr'
  intro d
  rw [h.mem_docs, not_or, Bool.not_eq_true, Option.isSome_eq_false_iff,
    Option.isNone_iff_eq_none]
  simp only [not_exists]

end Measures

/-! ## The greatest sum -/

theorem registered?_concat (calls : List Call) (call : Call) (d : DocId) :
    registered? (calls ++ [call]) d = (call.length? d).or (registered? calls d) := by
  rw [← getElem?_ofCalls, ofCalls, List.foldl_concat, getElem?_apply, ← ofCalls, getElem?_ofCalls]

/-- So many documents, each registered with the greatest length there is. -/
def longestCalls (n : Nat) : List Call :=
  (List.range n).map fun i => .setLength (.ofNat i) (.ofNat (UInt32.size - 1))

theorem not_recorded_longestCalls {n : Nat} (o : Observation) : ¬Recorded (longestCalls n) o := by
  rintro ⟨call, hm, hr⟩
  obtain ⟨i, _, rfl⟩ := List.mem_map.mp hm
  exact hr

theorem registered?_longestCalls {n : Nat} (hn : n ≤ UInt32.size) (d : DocId) :
    registered? (longestCalls n) d =
      if d.toNat < n then some (.ofNat (UInt32.size - 1)) else none := by
  induction n with
  | zero => simp [longestCalls, registered?]
  | succ n ih =>
    have hlast : UInt32.ofNat n = d ↔ d.toNat = n := by
      rw [← UInt32.toNat_inj, UInt32.toNat_ofNat_of_lt' hn, eq_comm]
    have hconcat : longestCalls (n + 1) =
        longestCalls n ++ [.setLength (.ofNat n) (.ofNat (UInt32.size - 1))] := by
      rw [longestCalls, List.range_succ, List.map_append, ← longestCalls]
      rfl
    rw [hconcat, registered?_concat, ih (Nat.le_of_succ_le hn), Call.length?]
    simp only [hlast]
    split
    · next heq =>
      have hlt : d.toNat < n + 1 := by omega
      rw [Option.some_or, if_pos hlt]
    · next hne =>
      have hiff : d.toNat < n + 1 ↔ d.toNat < n := by omega
      simp only [hiff, Option.none_or]

theorem lengthSum_longestCalls {n : Nat} (hn : n ≤ UInt32.size)
    (h : Measures (longestCalls n) table) : lengthSum table = n * (UInt32.size - 1) := by
  have hlengths : ∀ k ∈ table.map (·.2.toNat), k = UInt32.size - 1 := by
    intro k hk
    obtain ⟨⟨d, length⟩, hm, rfl⟩ := List.mem_map.mp hk
    rcases h.length_eq d length hm with hr | ⟨-, term, p, hlast, -⟩
    · rw [registered?_longestCalls hn] at hr
      split at hr
      · cases hr
        exact UInt32.toNat_ofNat_of_lt' (by decide)
      · cases hr
    · exact absurd hlast.recorded (not_recorded_longestCalls _)
  -- the documents are the numbers below `n`, each of them once
  have hdocs : ((table.map (·.1)).map UInt32.toNat).Perm (List.range n) := by
    have hnodup := h.nodup_docs.map (f := UInt32.toNat) fun _ _ => UInt32.toNat_inj.mp
    apply (List.perm_ext_iff_of_nodup hnodup List.nodup_range).mpr
    intro k
    simp only [List.mem_map (f := UInt32.toNat), h.mem_docs, registered?_longestCalls hn,
      not_recorded_longestCalls, List.mem_range]
    constructor
    · rintro ⟨d, hd, rfl⟩
      simpa using hd
    · intro hk
      have hsize := Nat.lt_of_lt_of_le hk hn
      have htoNat : (UInt32.ofNat k).toNat = k := UInt32.toNat_ofNat_of_lt' hsize
      exact ⟨.ofNat k, by simp [htoNat, hk], htoNat⟩
  have hlength : table.length = n := by
    have hperm := hdocs.length_eq
    rwa [List.length_map, List.length_map, List.length_range] at hperm
  rw [lengthSum, List.sum_eq_card_nsmul _ _ hlengths, List.length_map, hlength, Nat.nsmul_eq_mul]

/-- The bound is met where every number is the number of a document. -/
theorem exists_lengthSum_eq : ∃ calls, Fits calls ∧ ∀ order,
    lengthSum ((ofCalls calls).lengthTable order) = UInt32.size * (UInt32.size - 1) :=
  ⟨longestCalls UInt32.size, fun o ho => absurd ho (not_recorded_longestCalls o),
    fun order => lengthSum_longestCalls (Nat.le_refl _) (measures_lengthTable _ order)⟩

/-! ## The average length -/

theorem averageLength_of_build {b : Builder} {index : Index} (h : b.build order = .ok index) :
    index.averageLength =
      (totalLength (b.lengthTable order)).toFloat / (b.lengthTable order).length.toFloat := by
  simp only [build] at h
  split at h
  · cases h
  · cases h
    rfl

/-- Where no call records the last of all positions, one more than a recorded position is still a
length. Whatever lengths the documents get by the calls, and in whatever order these are added, no
sum on the way to the total is too large for its word. The total is divided by the number of
lengths, and this is never done with no document: then there is no index. -/
theorem totalLength_fits (calls : List Call) (hfits : Fits calls) :
    (∀ o, Recorded calls o → (o.position + 1).toNat = o.position.toNat + 1) ∧
    (∀ table, Measures calls table →
      lengthSum table < UInt64.size ∧
      (∀ k, (totalLength (table.take k)).toNat = lengthSum (table.take k)) ∧
      ∀ order, table.length = 0 ↔ (ofCalls calls).build order = .error .emptyCorpus) ∧
    ∀ order, Measures calls ((ofCalls calls).lengthTable order) ∧
      ∀ index, (ofCalls calls).build order = .ok index →
        0 < ((ofCalls calls).lengthTable order).length ∧
        index.averageLength = (totalLength ((ofCalls calls).lengthTable order)).toFloat /
          ((ofCalls calls).lengthTable order).length.toFloat := by
  refine ⟨fun o ho => toNat_add_one (hfits o ho), ?_, ?_⟩
  · intro table h
    refine ⟨h.lengthSum_lt, ?_, fun order => h.length_eq_zero_iff⟩
    intro k
    have hle := lengthSum_take_le table k
    exact toNat_totalLength (Nat.lt_of_le_of_lt hle h.lengthSum_lt)
  · intro order
    have hmeasures := measures_lengthTable calls order
    refine ⟨hmeasures, fun index hbuild => ⟨?_, averageLength_of_build hbuild⟩⟩
    apply Nat.pos_of_ne_zero
    intro hzero
    rw [hmeasures.length_eq_zero_iff.mp hzero] at hbuild
    cases hbuild

/-- Three documents, two of them as long as a document can be. The length of document 2 is implied
by its last position. -/
def longCalls : List Call :=
  [.setLength 9 4294967295, .add "cat" 2 4294967294, .addDocument 1 "a cat", .add "cat" 2 3]

theorem totalLength_fits_long : Fits longCalls ∧
    (ofCalls longCalls).lengthTable .byTerm = [(1, 2), (2, 4294967295), (9, 4294967295)] ∧
    (totalLength ((ofCalls longCalls).lengthTable .byTerm)).toNat = 8589934592 := by
  have hfits : Fits longCalls := fits_iff.mpr (by decide +kernel)
  have htable : (ofCalls longCalls).lengthTable .byTerm =
      [(1, 2), (2, 4294967295), (9, 4294967295)] := by decide +kernel
  obtain ⟨-, htables, hmeasures⟩ := totalLength_fits longCalls hfits
  obtain ⟨-, hsums, -⟩ := htables _ (hmeasures .byTerm).1
  have hall := hsums ((ofCalls longCalls).lengthTable .byTerm).length
  rw [List.take_length] at hall
  refine ⟨hfits, htable, hall.trans ?_⟩
  rw [htable]
  rfl

end Concordance.Builder
