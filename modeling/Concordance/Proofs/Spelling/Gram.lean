import Concordance.Spelling.Correction
import Mathlib.Data.List.Basic
/-!
The grams of a word are its pieces of one length (`mem_grams`). There are some unless they would
have no characters, or more than the word has (`exists_mem_grams_iff`), and the word holds each of
them (`holdsGram_of_mem_grams`). What is left of a list without its repeats keeps the order of the
first places (`firsts_pairwise`), and a slice is found first where its characters stand first
(`isFirstPlace_idxOf`), so that the grams come in the order in which they begin (`grams_exact`).
-/
namespace Concordance

section
variable {α : Type} {n : Nat} {xs piece : List α}

theorem take_prefix_iff (hlength : (xs.take n).length = n) :
    piece.length = n ∧ piece <+: xs ↔ piece = xs.take n := by
  constructor
  · intro h
    rw [← h.1]
    exact List.prefix_iff_eq_take.mp h.2
  · intro h
    rw [h]
    exact ⟨hlength, List.take_prefix n xs⟩

theorem mem_slices (hn : 0 < n) : piece ∈ slices n xs ↔ piece.length = n ∧ piece <:+: xs := by
  induction xs with
  | nil =>
    rw [slices, List.infix_nil]
    constructor
    · intro h
      exact absurd h List.not_mem_nil
    · intro h
      rw [h.2] at h
      exact absurd h.1 (Nat.ne_of_lt hn)
  | cons x xs ih =>
    rw [slices]
    split
    · next hlength =>
      rw [List.mem_cons, ih, List.infix_cons_iff, and_or_left, take_prefix_iff hlength]
    · next hlength =>
      -- too few elements are left for a piece
      rw [List.length_take] at hlength
      constructor
      · intro h
        exact absurd h List.not_mem_nil
      · intro h
        have hle := h.2.length_le
        omega

theorem mem_firsts [DecidableEq α] {x : α} : x ∈ firsts xs ↔ x ∈ xs := by
  induction xs with
  | nil => rfl
  | cons y xs ih =>
    rw [firsts, List.mem_cons, List.mem_cons, List.mem_filter, ih]
    by_cases h : x = y
    · simp [h]
    · simp [h]

/-! ## Order -/

/-- There is a slice for each place of a list, until too few elements are left. -/
theorem getElem?_slices (hn : 0 < n) {i : Nat} :
    (slices n xs)[i]? = some piece ↔ piece.length = n ∧ piece <+: xs.drop i := by
  induction xs generalizing i with
  | nil =>
    rw [slices, List.getElem?_nil, List.drop_nil, List.prefix_nil]
    constructor
    · intro h
      cases h
    · intro h
      rw [h.2] at h
      exact absurd h.1 (Nat.ne_of_lt hn)
  | cons x xs ih =>
    rw [slices]
    split
    · next hlength =>
      cases i with
      | zero =>
        rw [List.getElem?_cons_zero, Option.some.injEq, List.drop_zero, take_prefix_iff hlength]
        exact eq_comm
      | succ i => rw [List.getElem?_cons_succ, ih, List.drop_succ_cons]
    · next hlength =>
      rw [List.length_take] at hlength
      rw [List.getElem?_nil]
      constructor
      · intro h
        cases h
      · intro h
        -- what is left is too short for a piece of `n` elements
        have hle := h.2.length_le
        rw [List.length_drop, h.1] at hle
        omega

/-- What is left without repeats stands in the order of the first places. -/
theorem firsts_pairwise [DecidableEq α] [BEq α] [LawfulBEq α] (xs : List α) :
    (firsts xs).Pairwise fun a b => xs.idxOf a < xs.idxOf b := by
  induction xs with
  | nil => exact .nil
  | cons x xs ih =>
    have hplace : ∀ a ∈ (firsts xs).filter (· ≠ x), (x :: xs).idxOf a = xs.idxOf a + 1 := by
      intro a ha
      have hne : a ≠ x := by simpa using (List.mem_filter.mp ha).2
      exact List.idxOf_cons_ne xs hne.symm
    rw [firsts, List.pairwise_cons]
    constructor
    · intro b hb
      rw [hplace b hb, List.idxOf_cons_self]
      exact Nat.succ_pos _
    · refine (ih.filter _).imp_of_mem fun {a b} ha hb hlt => ?_
      rw [hplace a ha, hplace b hb]
      exact Nat.succ_lt_succ hlt

/-- The first place at which a piece stands in a list. -/
structure IsFirstPlace (piece xs : List α) (place : Nat) : Prop where
  stands : piece <+: xs.drop place
  first : ∀ earlier < place, ¬ piece <+: xs.drop earlier

theorem isFirstPlace_idxOf [BEq α] [LawfulBEq α] (hn : 0 < n) (h : piece ∈ slices n xs) :
    IsFirstPlace piece xs ((slices n xs).idxOf piece) := by
  obtain ⟨hlength, hstands⟩ := (getElem?_slices hn).mp (List.getElem?_idxOf h)
  refine ⟨hstands, fun earlier hlt hearlier => ?_⟩
  -- were it to stand earlier, it would be the slice found there
  obtain ⟨hbound, hfound⟩ :=
    List.getElem?_eq_some_iff.mp ((getElem?_slices hn).mpr ⟨hlength, hearlier⟩)
  have hne := List.not_of_lt_findIdx hlt
  rw [hfound, beq_self_eq_true] at hne
  cases hne

end

variable {n : Nat} {word : String} {gram : List Char}

theorem mem_grams : gram ∈ grams n word ↔ 0 < n ∧ gram.length = n ∧ gram <:+: word.toList := by
  unfold grams
  split
  · next h => simp [h]
  · next h =>
    have hn : 0 < n := Nat.pos_of_ne_zero h
    rw [mem_firsts, mem_slices hn, and_iff_right hn]

theorem exists_mem_grams_iff : (∃ gram, gram ∈ grams n word) ↔ 0 < n ∧ n ≤ word.length := by
  constructor
  · intro h
    obtain ⟨gram, hgram⟩ := h
    obtain ⟨hn, hlength, hinfix⟩ := mem_grams.mp hgram
    have hle := hinfix.length_le
    rw [hlength, String.length_toList] at hle
    exact ⟨hn, hle⟩
  · intro h
    have htake : (word.toList.take n).length = n := by
      rw [List.length_take, String.length_toList]
      exact Nat.min_eq_left h.2
    exact ⟨word.toList.take n, mem_grams.mpr ⟨h.1, htake, (List.take_prefix n _).isInfix⟩⟩

/-- A word has each of its pieces of one length once among its grams, in the order of the places at
which they begin first. It has none only where it is shorter than they are. -/
theorem grams_exact (word : String) (hn : 0 < n) :
    (grams n word).Nodup ∧
    (∀ gram, gram ∈ grams n word ↔ gram.length = n ∧ gram <:+: word.toList) ∧
    (∃ place : List Char → Nat,
      (∀ gram ∈ grams n word, IsFirstPlace gram word.toList (place gram)) ∧
      (grams n word).Pairwise fun a b => place a < place b) ∧
    (grams n word = [] ↔ word.length < n) := by
  have hgrams : grams n word = firsts (slices n word.toList) := if_neg (Nat.ne_of_gt hn)
  have hpairwise := firsts_pairwise (slices n word.toList)
  rw [← hgrams] at hpairwise
  refine ⟨?_, ?_, ⟨(slices n word.toList).idxOf, ?_, hpairwise⟩, ?_⟩
  · refine hpairwise.imp fun {a b} hlt heq => ?_
    rw [heq] at hlt
    exact Nat.lt_irrefl _ hlt
  · intro gram
    rw [mem_grams, and_iff_right hn]
  · intro gram hgram
    rw [hgrams, mem_firsts] at hgram
    exact isFirstPlace_idxOf hn hgram
  · rw [List.eq_nil_iff_forall_not_mem, ← not_exists, exists_mem_grams_iff, and_iff_right hn,
      Nat.not_le]

/-- Pieces that overlap with their own repeats, of characters with several bytes. -/
theorem grams_exact_overlapping : 0 < 3 ∧
    grams 3 "ésésés" = ["ésé".toList, "sés".toList] ∧ (grams 3 "ésésés").Nodup ∧
    ∃ place : List Char → Nat, IsFirstPlace "sés".toList "ésésés".toList (place "sés".toList) ∧
      place "ésé".toList < place "sés".toList := by
  obtain ⟨hnodup, -, ⟨place, hplace, hpairwise⟩, -⟩ := grams_exact "ésésés" (n := 3) (by decide)
  have hgrams : grams 3 "ésésés" = ["ésé".toList, "sés".toList] := by decide +kernel
  refine ⟨by decide, hgrams, hnodup, place, hplace _ ?_, ?_⟩
  · rw [hgrams]
    exact List.mem_cons_of_mem _ List.mem_cons_self
  · rw [hgrams] at hpairwise
    exact List.rel_of_pairwise_cons hpairwise List.mem_cons_self

/-- A term holds a gram where the gram is one of its pieces. -/
theorem holdsGram_iff (hgram : 0 < gram.length) :
    holdsGram gram word = true ↔ gram <:+: word.toList := by
  rw [holdsGram, List.contains_iff_mem, mem_slices hgram, and_iff_right rfl]

theorem holdsGram_of_mem_grams (h : gram ∈ grams n word) : holdsGram gram word = true := by
  obtain ⟨hn, hlength, hinfix⟩ := mem_grams.mp h
  rw [← hlength] at hn
  exact (holdsGram_iff hn).mpr hinfix

end Concordance
