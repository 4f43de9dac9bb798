import Concordance.Spelling.Correction
import Concordance.Proofs.Bisect
import Concordance.Proofs.DocSet
import Concordance.Proofs.Index.Views
/-!
What a sound index answers about a term, known or not: documents of the index in ascending order,
exact (`Sound.docs`) or corrected (`Sound.resolve`). The exact ones are those in which the term was
recorded (`mem_docs`).
-/
namespace Concordance.Index
variable {order : TableOrder} {index : Index} {term : Term}

theorem mem_lists_of_find? {l : PostingList} (h : index.find? term = some l) : l ∈ index.lists :=
  mem_of_bisect h

theorem docs_of_find? {l : PostingList} (h : index.find? term = some l) :
    index.docs term = docsOf l.postings.toList := by
  rw [docs, postings, h]

theorem docs_of_unknown (h : index.find? term = none) : index.docs term = [] := by
  rw [docs, postings, h]
  rfl

theorem docs_cases (index : Index) (term : Term) :
    index.docs term = [] ∨ ∃ l ∈ index.lists, index.docs term = docsOf l.postings.toList := by
  cases h : index.find? term with
  | none => exact .inl (docs_of_unknown h)
  | some l => exact .inr ⟨l, mem_lists_of_find? h, docs_of_find? h⟩

theorem mem_docs {calls : List Builder.Call} (h : (Builder.ofCalls calls).build order = .ok index)
    {d : DocId} : d ∈ index.docs term ↔ ∃ p, Builder.Recorded calls ⟨term, d, p⟩ := by
  rw [docs, (Builder.postings_sorted h term).mem_docsOf]
  simp only [Builder.listed_postings_iff h, Builder.mem_ofCalls]

theorem isSome_find?_iff {b : Builder} (h : b.build order = .ok index) :
    (index.find? term).isSome ↔ term ∈ index.vocabulary := by
  rw [Option.isSome_iff_exists, Builder.vocabulary_eq h, List.mem_map]
  simp only [Builder.find?_eq_some_iff h]

/-- A list of documents of the index, in ascending order. -/
structure Lists (index : Index) (ds : List DocId) : Prop where
  ascending : Ascending ds
  subset : ∀ d ∈ ds, d ∈ index.docIds

namespace Lists
variable {ds es : List DocId} {sets : List (List DocId)}

theorem nil : index.Lists [] := ⟨List.Pairwise.nil, fun _ h => absurd h List.not_mem_nil⟩

theorem sublist (h : index.Lists ds) (hs : es.Sublist ds) : index.Lists es :=
  ⟨h.ascending.sublist hs, fun d hd => h.subset d (hs.subset hd)⟩

theorem unionAll (h : ∀ s ∈ sets, index.Lists s) : index.Lists (DocSet.unionAll sets) := by
  refine ⟨DocSet.unionAll_ascending fun s hs => (h s hs).ascending, ?_⟩
  intro d hd
  obtain ⟨s, hs, hm⟩ := DocSet.mem_unionAll.mp hd
  exact (h s hs).subset d hm

end Lists

namespace Sound

theorem docIds (hi : index.Sound) : index.Lists index.docIds :=
  ⟨hi.docIds_ascending, fun _ h => h⟩

theorem docs (hi : index.Sound) (term : Term) : index.Lists (index.docs term) := by
  rcases index.docs_cases term with he | ⟨l, hl, he⟩
  · rw [he]
    exact Lists.nil
  · rw [he]
    exact ⟨hi.docs_ascending l hl, hi.docs_subset l hl⟩

theorem resolve (hi : index.Sound) (gramSize tolerance : Nat) (word : Term) :
    index.Lists (index.resolve gramSize tolerance word) := by
  apply Lists.unionAll
  intro s hs
  obtain ⟨term, _, rfl⟩ := List.mem_map.mp hs
  exact hi.docs term

end Sound
end Concordance.Index
