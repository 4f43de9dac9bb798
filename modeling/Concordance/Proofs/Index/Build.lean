import Concordance.Index.Builder
import Concordance.Proofs.Ascending
import Concordance.Proofs.Runs
/-!
What every built index satisfies, whatever its builder was told: the documents of each entry stand
in ascending order and are documents of the index (`build_sound`). The observations are one ordered
set, so both facts come down to the order of that set and to what its runs keep.
-/
namespace Concordance

/-! ## The order of observations -/

instance : Std.TransCmp Observation.order :=
  inferInstanceAs (Std.TransCmp (compareLex (compareOn Observation.term)
    (compareLex (compareOn Observation.doc) (compareOn Observation.position))))

def Place.before (a b : DocId × Position) : Prop := a.1 < b.1 ∨ a.1 = b.1 ∧ a.2 < b.2

theorem Observation.order_eq_lt {a b : Observation} : Observation.order a b = .lt ↔
    compare a.term b.term = .lt ∨
      a.term = b.term ∧ Place.before (a.doc, a.position) (b.doc, b.position) := by
  simp only [Observation.order, compareLex, compareOn, Ordering.then_eq_lt, Std.compare_eq_lt,
    Std.LawfulEqOrd.compare_eq_iff_eq, Place.before]

namespace Builder

/-- A call on a builder. -/
inductive Call where
  | add (term : Term) (doc : DocId) (position : Position)
  | setLength (doc : DocId) (length : Length)
  | addDocument (doc : DocId) (text : String)
  deriving DecidableEq, Repr

def Call.apply (b : Builder) : Call → Builder
  | .add term doc position => b.add term doc position
  | .setLength doc length => b.setLength doc length
  | .addDocument doc text => b.addDocument doc text

def ofCalls (calls : List Call) : Builder := calls.foldl Call.apply {}

variable {b : Builder}

/-! ## The entries of the index -/

/-- The observations as pairs of a term and a place, in their order. -/
def places (b : Builder) : List (Term × DocId × Position) :=
  b.observations.toList.map fun o => (o.term, o.doc, o.position)

theorem places_pairwise (b : Builder) : b.places.Pairwise fun p q =>
    compare p.1 q.1 = .lt ∨ p.1 = q.1 ∧ Place.before p.2 q.2 := by
  refine List.pairwise_map.mpr (List.Pairwise.imp ?_ Std.TreeSet.ordered_toList)
  intro o o' h
  exact Observation.order_eq_lt.mp h

theorem run_pairwise {term : Term} {run : List (DocId × Position)}
    (h : (term, run) ∈ runs b.places) : run.Pairwise Place.before := by
  have hp := b.places_pairwise.sublist (sublist_of_mem_runs h)
  refine (List.pairwise_map.mp hp).imp ?_
  intro p q hpq
  rcases hpq with hlt | ⟨_, hbefore⟩
  · exact absurd hlt (by simp)
  · exact hbefore

theorem mem_postingLists {l : PostingList} : l ∈ b.postingLists ↔
    ∃ run, (l.term, run) ∈ runs b.places ∧ l = .ofPostings l.term
      ((runs run).map fun (doc, positions) => Posting.mk doc positions) := by
  rw [postingLists, List.mem_map]
  constructor
  · rintro ⟨⟨term, run⟩, h, rfl⟩
    exact ⟨run, h, rfl⟩
  · rintro ⟨run, h, he⟩
    exact ⟨(l.term, run), h, he.symm⟩

/-- The postings of an entry are the places of its term, gathered by document. -/
theorem postings_of_mem_postingLists {l : PostingList} (hl : l ∈ b.postingLists) :
    ∃ run, (l.term, run) ∈ runs b.places ∧
      l.postings.toList = (runs run).map fun (doc, positions) => Posting.mk doc positions := by
  obtain ⟨run, hrun, he⟩ := mem_postingLists.mp hl
  exact ⟨run, hrun, congrArg (·.postings.toList) he⟩

theorem docsOf_map_mk (rs : List (DocId × List Position)) :
    docsOf (rs.map fun (doc, positions) => Posting.mk doc positions) = rs.map (·.1) := by
  simp [docsOf, List.map_map, Function.comp_def]

theorem postingLists_docs {l : PostingList} (hl : l ∈ b.postingLists) :
    Ascending (docsOf l.postings.toList) ∧
      ∀ d ∈ docsOf l.postings.toList, d ∈ b.observedDocs := by
  obtain ⟨run, hrun, he⟩ := postings_of_mem_postingLists hl
  rw [he, docsOf_map_mk]
  constructor
  · exact runs_pairwise (fun _ _ _ => UInt32.lt_trans) (run_pairwise hrun)
  · intro d hd
    obtain ⟨position, hplace⟩ := mem_keys_runs.mp hd
    obtain ⟨o, ho, heq⟩ := List.mem_map.mp (mem_of_mem_runs hrun hplace)
    simp only [Prod.mk.injEq] at heq
    obtain ⟨_, rfl, _⟩ := heq
    exact mem_ascending.mpr (List.mem_map_of_mem ho)

/-! ## Building -/

/-- What is built has nothing in it but what the builder holds. -/
theorem build_eq_ok {order : TableOrder} {index : Index} (h : b.build order = .ok index) :
    index.lists = b.postingLists.toArray ∧ index.docIds = b.observedDocs ∧
      index.lengths = (b.lengthTable order).toArray := by
  simp only [build] at h
  split at h
  · cases h
  · cases h
    exact ⟨rfl, rfl, rfl⟩

end Builder

/-! ## Sound indexes -/

/-- Documents stand in ascending order throughout, and the entries name documents of the index. -/
structure Index.Sound (index : Index) : Prop where
  docIds_ascending : Ascending index.docIds
  docs_ascending : ∀ l ∈ index.lists, Ascending (docsOf l.postings.toList)
  docs_subset : ∀ l ∈ index.lists, ∀ d ∈ docsOf l.postings.toList, d ∈ index.docIds

theorem Builder.build_sound {b : Builder} {order : TableOrder} {index : Index}
    (h : b.build order = .ok index) : index.Sound := by
  obtain ⟨hlists, hdocs, _⟩ := build_eq_ok h
  have hmem : ∀ l ∈ index.lists, l ∈ b.postingLists := by
    intro l hl
    rwa [hlists, List.mem_toArray] at hl
  exact {
    docIds_ascending := hdocs ▸ ascending_ascending _
    docs_ascending := fun l hl => (postingLists_docs (hmem l hl)).1
    docs_subset := fun l hl => hdocs ▸ (postingLists_docs (hmem l hl)).2 }

end Concordance
