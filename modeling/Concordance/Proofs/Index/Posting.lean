import Concordance.Index.Posting
import Concordance.Proofs.Ascending
/-!
Lists of postings as sets of places. `Listed` says which places a list holds. What a merge asks of
its operands is their order (`OrderedPostings`); in a sorted list (`SortedPostings`) the documents
are moreover those with a place.
-/
namespace Concordance
variable {ps : List Posting} {d : DocId}

/-- Whether the place is listed. -/
def Listed (ps : List Posting) (d : DocId) (p : Position) : Prop :=
  ∃ posting ∈ ps, posting.doc = d ∧ p ∈ posting.positions

instance (p : Position) : Decidable (Listed ps d p) :=
  inferInstanceAs (Decidable (∃ posting ∈ ps, posting.doc = d ∧ p ∈ posting.positions))

/-- The documents rise, and in each of them so do the positions. -/
structure OrderedPostings (ps : List Posting) : Prop where
  docs_ascending : Ascending (docsOf ps)
  positions_ascending : ∀ posting ∈ ps, Ascending posting.positions

/-- Ordered postings, each of which holds one position at least. -/
structure SortedPostings (ps : List Posting) : Prop extends OrderedPostings ps where
  positions_ne_nil : ∀ posting ∈ ps, posting.positions ≠ []

/-- A document has one posting at most, so that its places are the positions of that posting. -/
theorem OrderedPostings.listed_iff (h : OrderedPostings ps) {posting : Posting}
    (hm : posting ∈ ps) {p : Position} : Listed ps posting.doc p ↔ p ∈ posting.positions := by
  constructor
  · rintro ⟨other, ho, hd, hp⟩
    have hdocs := List.pairwise_map.mp h.docs_ascending
    have hsame : ∀ ⦃x⦄, x ∈ ps → ∀ ⦃y⦄, y ∈ ps → x.doc = y.doc → x = y := by
      refine List.Pairwise.forall_of_forall_of_flip (fun _ _ _ => rfl) (hdocs.imp ?_) (hdocs.imp ?_)
      · exact fun hlt heq => absurd heq (UInt32.ne_of_lt hlt)
      · exact fun hlt heq => absurd heq.symm (UInt32.ne_of_lt hlt)
    rwa [hsame ho hm hd] at hp
  · intro hp
    exact ⟨posting, hm, rfl, hp⟩

namespace SortedPostings

theorem nil : SortedPostings [] :=
  ⟨⟨List.Pairwise.nil, fun _ h => absurd h List.not_mem_nil⟩,
    fun _ h => absurd h List.not_mem_nil⟩

theorem mem_docsOf (h : SortedPostings ps) : d ∈ docsOf ps ↔ ∃ p, Listed ps d p := by
  constructor
  · intro hd
    obtain ⟨posting, hm, rfl⟩ := List.mem_map.mp hd
    obtain ⟨p, hp⟩ := List.exists_mem_of_ne_nil _ (h.positions_ne_nil posting hm)
    exact ⟨p, posting, hm, rfl, hp⟩
  · rintro ⟨p, posting, hm, rfl, _⟩
    exact List.mem_map_of_mem hm

end SortedPostings

theorem PostingList.map_fst_weights (l : PostingList) :
    l.weights.map Prod.fst = docsOf l.postings.toList := by
  have hlength : (docsOf l.postings.toList).length ≤ l.tfWeights.toList.length := by
    simp [docsOf, l.size_tfWeights]
  rw [weights, List.map_fst_zip hlength]

end Concordance
