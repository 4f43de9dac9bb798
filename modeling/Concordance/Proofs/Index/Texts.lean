import Concordance.Proofs.Index.Documents
import Mathlib.Algebra.GroupWithZero.Nat
import Mathlib.Data.List.Nodup
/-!
An index of whole texts keeps them. The words of a document are spread over the entries of the
index, but they can all be found again: to gather the places of a document from every entry
(`Index.occurrencesIn`) and to put them in order gives the words of its text with their positions.
None is missing and none stands there twice, since the entries have different terms, an entry has
one posting for a document, and the positions of a posting rise (`nodup_occurrencesIn`).
-/
namespace Concordance

open Builder (ofCalls)

variable {docs : List (DocId × String)} {order : TableOrder} {index : Index} {d : DocId}
  {term : Term} {text : String}

/-! ## In the order of positions -/

theorem occurrences_pairwise (h : (words text).length < UInt32.size) :
    (occurrences text).Pairwise fun o o' => compareOn Occurrence.position o o' = .lt := by
  have hrange := List.pairwise_lt_range (n := (words text).length)
  rw [← map_toNat_position_occurrences h, List.pairwise_map] at hrange
  apply hrange.imp
  intro o o' hlt
  exact Std.compare_eq_lt.mpr hlt

/-! ## The places of a document -/

namespace Index

def positionsIn (index : Index) (d : DocId) (term : Term) : List Position :=
  ((index.postings term).filter (·.doc = d)).flatMap (·.positions)

def termFrequency (index : Index) (d : DocId) (term : Term) : Nat :=
  (((index.postings term).filter (·.doc = d)).map (·.positions.length)).sum

/-- The places of a document, entry by entry. -/
def occurrencesIn (index : Index) (d : DocId) : List Occurrence :=
  index.vocabulary.flatMap fun term => (index.positionsIn d term).map fun p => ⟨term, p⟩

theorem length_positionsIn : (index.positionsIn d term).length = index.termFrequency d term := by
  rw [positionsIn, List.length_flatMap, termFrequency]

theorem length_occurrencesIn :
    (index.occurrencesIn d).length = (index.vocabulary.map (index.termFrequency d)).sum := by
  simp only [occurrencesIn, List.length_flatMap, List.length_map, length_positionsIn]

theorem mem_positionsIn {p : Position} :
    p ∈ index.positionsIn d term ↔ Listed (index.postings term) d p := by
  simp [positionsIn, Listed, and_assoc]

theorem mem_occurrencesIn (hbuild : (ofCalls (documentCalls docs)).build order = .ok index)
    {o : Occurrence} :
    o ∈ index.occurrencesIn d ↔ Listed (index.postings o.term) d o.position := by
  simp only [occurrencesIn, List.mem_flatMap, List.mem_map, mem_positionsIn]
  constructor
  · intro h
    obtain ⟨term, _, p, hp, rfl⟩ := h
    exact hp
  · intro hp
    have hobserved := (Builder.listed_postings_iff hbuild).mp hp
    have hterm := (Builder.mem_vocabulary hbuild).mpr ⟨d, o.position, hobserved⟩
    exact ⟨o.term, hterm, o.position, hp, rfl⟩

/-- An entry has one posting for a document. -/
theorem nodup_positionsIn (h : SortedPostings (index.postings term)) :
    (index.positionsIn d term).Nodup := by
  apply List.nodup_flatMap.mpr
  constructor
  · intro posting hm
    exact (h.positions_ascending posting (List.mem_of_mem_filter hm)).nodup
  · rw [List.pairwise_filter]
    apply (List.pairwise_map.mp h.docs_ascending).imp
    intro posting posting' hlt hd hd'
    rw [of_decide_eq_true hd, of_decide_eq_true hd'] at hlt
    exact absurd hlt (UInt32.lt_irrefl d)

theorem nodup_occurrencesIn (hbuild : (ofCalls (documentCalls docs)).build order = .ok index) :
    (index.occurrencesIn d).Nodup := by
  apply List.nodup_flatMap.mpr
  constructor
  · intro term _
    apply (nodup_positionsIn (Builder.postings_sorted hbuild term)).map
    intro p q he
    exact congrArg Occurrence.position he
  · apply (Builder.vocabulary_ascending hbuild).imp
    intro term term' hlt o ho ho'
    obtain ⟨p, -, rfl⟩ := List.mem_map.mp ho
    obtain ⟨q, -, he⟩ := List.mem_map.mp ho'
    have hterm : term' = term := congrArg Occurrence.term he
    exact absurd (hterm ▸ hlt) (String.lt_irrefl term)

/-- The places of a document are those of its words. -/
theorem occurrencesIn_perm (hids : (docs.map (·.1)).Nodup)
    (hbuild : (ofCalls (documentCalls docs)).build order = .ok index) (hdoc : (d, text) ∈ docs)
    (hlength : (words text).length < UInt32.size) :
    (index.occurrencesIn d).Perm (occurrences text) := by
  have hnodup : (occurrences text).Nodup := by
    apply (occurrences_pairwise hlength).imp
    intro o o' hlt he
    have hself : compareOn Occurrence.position o' o' = .eq := Std.ReflCmp.compare_self
    rw [he, hself] at hlt
    cases hlt
  apply (List.perm_ext_iff_of_nodup (nodup_occurrencesIn hbuild) hnodup).mpr
  intro o
  rw [mem_occurrencesIn hbuild, listed_document_iff hids hbuild hdoc]

end Index

/-- Documents with numbers of their own have an index, the same in whatever order they were added,
and it has lost nothing of them. Whatever is found for a document in the entries of the index is a
word of its text at its place. In the order of their positions the places are the words of the text,
from the first to the last, and their number is the length of the document and the sum of the
frequencies of all terms in it. Only where a text has so many words that 32 bits do not hold their
number is there no such order. -/
theorem build_keeps_texts (hids : (docs.map (·.1)).Nodup) (hne : docs ≠ []) :
    ∃ index, (∀ order, (ofCalls (documentCalls docs)).build order = .ok index) ∧
      (∀ others, others.Perm docs → ∀ order,
        (ofCalls (documentCalls others)).build order = .ok index) ∧
      ∀ d text, (d, text) ∈ docs →
        (∀ o, o ∈ index.occurrencesIn d ↔ o ∈ occurrences text) ∧
        ((words text).length < UInt32.size →
          (∀ found, found.Perm (index.occurrencesIn d) →
            inOrder (compareOn Occurrence.position) found = occurrences text) ∧
          (occurrences text).map (·.term) = words text ∧
          (occurrences text).map (·.position.toNat) = List.range (words text).length ∧
          (∃ n, index.docLength? d = some n ∧ n.toNat = (words text).length) ∧
          (index.vocabulary.map (index.termFrequency d)).sum = (words text).length) := by
  obtain ⟨index, hbuild⟩ := Builder.exists_build_ofCalls (not_silent_documentCalls hne) .byTerm
  have hbuilt : ∀ others, others.Perm docs → ∀ order,
      (ofCalls (documentCalls others)).build order = .ok index := fun others hothers order =>
    (build_documentCalls_perm hothers hids order .byTerm).trans hbuild
  refine ⟨index, hbuilt docs (.refl docs), hbuilt, ?_⟩
  · intro d text hdoc
    refine ⟨?_, ?_⟩
    · intro o
      rw [Index.mem_occurrencesIn hbuild, listed_document_iff hids hbuild hdoc]
    · intro hlength
      -- all that follows comes from this: what is found are the words at their places
      have hperm := Index.occurrencesIn_perm hids hbuild hdoc hlength
      refine ⟨?_, map_term_occurrences text, map_toNat_position_occurrences hlength, ?_, ?_⟩
      · intro found hfound
        exact (eq_inOrder_of_lt (hfound.trans hperm).symm (occurrences_pairwise hlength)).symm
      · exact ⟨_, docLength?_documentCalls hids hbuild hdoc, UInt32.toNat_ofNat_of_lt' hlength⟩
      · rw [← Index.length_occurrencesIn, hperm.length_eq, ← map_term_occurrences, List.length_map]

def catPages : List (DocId × String) := [(7, "The cat's cat, 2 cats"), (2, "a cat")]

theorem build_keeps_texts_cat : ∃ index,
    (∀ order, (ofCalls (documentCalls catPages)).build order = .ok index) ∧
    (∀ order, (ofCalls (documentCalls catPages.reverse)).build order = .ok index) ∧
    inOrder (compareOn Occurrence.position) (index.occurrencesIn 7) =
      [⟨"the", 0⟩, ⟨"cat's", 1⟩, ⟨"cat", 2⟩, ⟨"2", 3⟩, ⟨"cats", 4⟩] ∧
    (index.vocabulary.map (index.termFrequency 7)).sum = 5 := by
  have hids : (catPages.map (·.1)).Nodup := by decide
  have hwords : words "The cat's cat, 2 cats" = ["the", "cat's", "cat", "2", "cats"] := by
    decide +kernel
  obtain ⟨index, hbuild, hagain, hkept⟩ := build_keeps_texts hids (by decide)
  obtain ⟨-, hrest⟩ := hkept 7 "The cat's cat, 2 cats" (by decide)
  obtain ⟨horder, -, -, -, hsum⟩ := hrest (by rw [hwords]; decide)
  refine ⟨index, hbuild, hagain _ (List.reverse_perm catPages), ?_, ?_⟩
  · rw [horder _ (.refl _), occurrences, hwords]
    rfl
  · rw [hsum, hwords]
    rfl

end Concordance
