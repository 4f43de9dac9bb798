import Concordance.Proofs.Index.Lookup
import Mathlib.Data.Set.Card
/-!
The weights of an entry. They are kept beside its postings, and the weight for a document is read at
the place where bisection finds the document among the postings. Where the documents rise, that is
the weight listed for the document, and none where the document is not listed
(`weight?_eq_some_iff`, `weight?_eq_none_iff`). In the entries that a builder makes, each place has
the weight of its own posting (`weights_eq`), so that the weight for a document is that of the
distinct positions recorded for it (`weights_exact`).
-/
namespace Concordance

/-! ## Places -/

namespace PostingList
variable {l : PostingList} {d : DocId} {w : Float}

theorem mem_weights_iff : (d, w) ∈ l.weights ↔
    ∃ i, ∃ hi : i < l.postings.size, l.postings[i].doc = d ∧ l.tfWeights[i]? = some w := by
  rw [weights, List.mem_iff_getElem?]
  simp only [List.getElem?_zip_eq_some, docsOf, List.getElem?_map, Array.getElem?_toList,
    Option.map_eq_some_iff, Array.getElem?_eq_some_iff]
  constructor
  · rintro ⟨i, ⟨posting, ⟨hi, rfl⟩, hdoc⟩, hweight⟩
    exact ⟨i, hi, hdoc, hweight⟩
  · rintro ⟨i, hi, hdoc, hweight⟩
    exact ⟨i, ⟨l.postings[i], ⟨hi, rfl⟩, hdoc⟩, hweight⟩

theorem weight?_eq_some_iff (h : SortedBy Posting.doc l.postings) :
    l.weight? d = some w ↔ (d, w) ∈ l.weights := by
  rw [weight?, Option.map_eq_some_iff, mem_weights_iff]
  constructor
  · rintro ⟨⟨i, hi⟩, hplace, rfl⟩
    have hdoc := (bisectPlace_key_eq_some_iff h hi).mp hplace
    exact ⟨i, hi, hdoc, Array.getElem?_eq_getElem _⟩
  · rintro ⟨i, hi, hdoc, hweight⟩
    obtain ⟨_, hw⟩ := Array.getElem?_eq_some_iff.mp hweight
    exact ⟨⟨i, hi⟩, (bisectPlace_key_eq_some_iff h hi).mpr hdoc, hw⟩

theorem weight?_eq_none_iff (h : SortedBy Posting.doc l.postings) :
    l.weight? d = none ↔ d ∉ docsOf l.postings.toList := by
  rw [← map_fst_weights, List.mem_map, Option.eq_none_iff_forall_ne_some]
  simp only [ne_eq, weight?_eq_some_iff h]
  constructor
  · rintro hnone ⟨⟨doc, w⟩, hm, rfl⟩
    exact hnone w hm
  · intro hdoc w hm
    exact hdoc ⟨(d, w), hm, rfl⟩

theorem weights_ofPostings (term : Term) (ps : List Posting) :
    (ofPostings term ps).weights = ps.map fun p => (p.doc, tfWeight p.positions.length) := by
  rw [weights, ofPostings, docsOf]
  exact List.zip_map' ..

end PostingList

/-! ## Entries of an index -/

/-- The positions listed for a document are those of its posting, and none stands there twice. -/
theorem OrderedPostings.ncard_listed {ps : List Posting} (h : OrderedPostings ps)
    {posting : Posting} (hm : posting ∈ ps) :
    {p | Listed ps posting.doc p}.ncard = posting.positions.length := by
  have hset : {p | Listed ps posting.doc p} = ↑posting.positions.toFinset := by
    ext p
    simp [h.listed_iff hm]
  have hnodup := (h.positions_ascending posting hm).nodup
  rw [hset, Set.ncard_coe_finset, List.toFinset_card_of_nodup hnodup]

namespace Builder
variable {b : Builder} {l : PostingList}

theorem sortedBy_doc (hl : l ∈ b.postingLists) : SortedBy Posting.doc l.postings := by
  apply (postingLists_docs hl).1.imp
  intro d d' hlt
  exact Std.compare_eq_lt.mpr hlt

theorem weights_eq (hl : l ∈ b.postingLists) :
    l.weights = l.postings.toList.map fun p => (p.doc, tfWeight p.positions.length) := by
  obtain ⟨run, -, he⟩ := mem_postingLists.mp hl
  rw [he, PostingList.weights_ofPostings]
  rfl

end Builder

namespace Index
open Builder (Call ofCalls Recorded)
variable {order : TableOrder} {index : Index} {l : PostingList} {d : DocId} {calls : List Call}

theorem listed_entry_iff (h : (ofCalls calls).build order = .ok index)
    (hl : l ∈ (ofCalls calls).postingLists) {p : Position} :
    Listed l.postings.toList d p ↔ Recorded calls ⟨l.term, d, p⟩ := by
  have hfind : index.find? l.term = some l := (Builder.find?_eq_some_iff h).mpr ⟨hl, rfl⟩
  have hpostings : index.postings l.term = l.postings.toList := by rw [postings, hfind]
  rw [← hpostings, Builder.listed_postings_iff h, Builder.mem_ofCalls]

/-- In every entry of an index that has been built, the weight looked up for a document is the one
listed for it. It is the weight of the number of distinct positions that were recorded for the term
in that document. Where none was recorded, there is no weight. -/
theorem weights_exact (calls : List Call) (h : (ofCalls calls).build order = .ok index)
    (hl : l ∈ index.lists) (d : DocId) :
    (∀ w, l.weight? d = some w ↔ (d, w) ∈ l.weights) ∧
    (∀ w, (d, w) ∈ l.weights ↔ (∃ p, Recorded calls ⟨l.term, d, p⟩) ∧
      w = tfWeight {p | Recorded calls ⟨l.term, d, p⟩}.ncard) ∧
    (l.weight? d = none ↔ ∀ p, ¬Recorded calls ⟨l.term, d, p⟩) := by
  rw [(Builder.build_eq_ok h).1, List.mem_toArray] at hl
  have hsorted := Builder.sortedBy_doc hl
  have hpostings := Builder.postingLists_sortedPostings hl
  have hlisted : ∀ p, Listed l.postings.toList d p ↔ Recorded calls ⟨l.term, d, p⟩ :=
    fun p => listed_entry_iff h hl
  simp only [← hlisted]
  refine ⟨fun w => PostingList.weight?_eq_some_iff hsorted, ?_, ?_⟩
  · intro w
    rw [Builder.weights_eq hl, List.mem_map, ← hpostings.mem_docsOf, docsOf, List.mem_map]
    constructor
    · rintro ⟨posting, hm, he⟩
      obtain ⟨rfl, rfl⟩ := Prod.mk.inj he
      rw [hpostings.ncard_listed hm]
      exact ⟨⟨posting, hm, rfl⟩, rfl⟩
    · rintro ⟨⟨posting, hm, rfl⟩, rfl⟩
      rw [hpostings.ncard_listed hm]
      exact ⟨posting, hm, rfl⟩
  · rw [PostingList.weight?_eq_none_iff hsorted, hpostings.mem_docsOf, not_exists]

/-- In document 3 the same place is recorded twice. Document 9 has a length and no word. -/
def repeatedCalls : List Call :=
  [.add "cat" 3 5, .add "cat" 3 1, .addDocument 8 "a cat", .add "cat" 3 5, .setLength 9 2]

theorem weights_exact_repeated : ∃ index, (ofCalls repeatedCalls).build .byTerm = .ok index ∧
    ∃ l ∈ index.lists, l.term = "cat" ∧ l.weights = [(3, tfWeight 2), (8, tfWeight 1)] ∧
    l.weight? 3 = some (tfWeight 2) ∧
    tfWeight 2 = tfWeight {p | Recorded repeatedCalls ⟨l.term, 3, p⟩}.ncard ∧
    l.weight? 9 = none := by
  have hentry : ∃ l, (ofCalls repeatedCalls).postingLists[1]? = some l ∧ l.term = "cat" ∧
      l.weights = [(3, tfWeight 2), (8, tfWeight 1)] := ⟨_, rfl, rfl, rfl⟩
  obtain ⟨l, hcat, hterm, hweights⟩ := hentry
  have hknown : ¬Builder.Silent repeatedCalls := fun hsilent => absurd (hsilent 9).1 (by decide)
  obtain ⟨index, h⟩ := Builder.exists_build_ofCalls hknown .byTerm
  have hl : l ∈ index.lists := by
    rw [(Builder.build_eq_ok h).1, List.mem_toArray]
    exact List.mem_of_getElem? hcat
  obtain ⟨hsome, hmem, -⟩ := weights_exact repeatedCalls h hl 3
  have hlisted : (3, tfWeight 2) ∈ l.weights := by
    rw [hweights]
    exact List.mem_cons_self
  refine ⟨index, h, l, hl, hterm, hweights, (hsome _).mpr hlisted, ((hmem _).mp hlisted).2, ?_⟩
  obtain ⟨-, -, hnone⟩ := weights_exact repeatedCalls h hl 9
  apply hnone.mpr
  rintro p ⟨call, hm, hr⟩
  simp only [repeatedCalls, List.mem_cons, List.not_mem_nil, or_false] at hm
  rcases hm with rfl | rfl | rfl | rfl | rfl <;> simp [Call.Records] at hr

end Index
end Concordance
