import Concordance.Proofs.Retrieval.Meaning
import Concordance.Proofs.Retrieval.Ranking
/-!
Scoring. A query scores exactly the documents that hold one of its words, each of them once, and so
it finds what the alternative of its words finds (`retrieve_perm_evaluate`). What a document scores
depends on nothing but how often each indexed term is among the words (`retrieve_congr_counts`):
sums of doubles depend on the order of what is added, but the terms are put in order before, and a
term that is not indexed adds nothing at all.

One entry adds the documents of its term to the sums (`mem_addTerm`), and so does a run of entries
(`mem_foldl_addTerm`).
-/
namespace Concordance

/-! ## The words of a query and their numbers -/

theorem mem_counts {ws : List Term} {e : Term × UInt32} :
    e ∈ counts ws ↔ e.1 ∈ ws ∧ e.2 = .ofNat (ws.count e.1) := by
  rw [counts, List.mem_map]
  constructor
  · intro h
    obtain ⟨term, hm, rfl⟩ := h
    exact ⟨mem_ascending.mp hm, rfl⟩
  · intro h
    exact ⟨e.1, mem_ascending.mpr h.1, Prod.ext rfl h.2.symm⟩

theorem nodup_counts (ws : List Term) : (counts ws).Nodup := by
  have hterms : (counts ws).map Prod.fst = ascending ws := by
    rw [counts, List.map_map]
    exact List.map_id _
  apply List.Nodup.of_map Prod.fst
  rw [hterms]
  exact nodup_ascending ws

namespace Index
variable {order : TableOrder} {index : Index} {settings : Settings} {d : DocId} {sums : Sums}

instance : Std.TransCmp entryOrder :=
  inferInstanceAs (Std.TransCmp (compareLex (compareOn fun e : Term × UInt32 => e.1)
    (compareOn fun e : Term × UInt32 => e.2)))

instance : Std.LawfulEqCmp entryOrder where
  compare_self := Std.ReflCmp.compare_self
  eq_of_compare := by
    intro a b h
    simp only [entryOrder, compareLex, compareOn, Ordering.then_eq_eq,
      Std.LawfulEqOrd.compare_eq_iff_eq] at h
    exact Prod.ext h.1 h.2

/-! ## The documents with a score -/

theorem Sums.mem_add {doc : DocId} {x : Float} : d ∈ sums.add doc x ↔ d = doc ∨ d ∈ sums := by
  rw [Sums.add, Std.TreeMap.mem_insert, Std.LawfulEqCmp.compare_eq_iff_eq, eq_comm]

theorem Sums.mem_foldl_add {f : DocId → Float → Float} {ws : List (DocId × Float)} :
    d ∈ ws.foldl (fun sums (doc, w) => sums.add doc (f doc w)) sums ↔
      d ∈ ws.map Prod.fst ∨ d ∈ sums := by
  induction ws generalizing sums with
  | nil => simp
  | cons w ws ih =>
    rw [List.foldl_cons, ih, Sums.mem_add, List.map_cons, List.mem_cons, or_assoc, or_left_comm]

theorem mem_addTerm {term : Term} {n : UInt32} :
    d ∈ index.addTerm settings sums term n ↔ d ∈ index.docs term ∨ d ∈ sums := by
  unfold addTerm
  cases h : index.find? term with
  | none => simp [docs_of_unknown h]
  | some l => rw [docs_of_find? h, ← PostingList.map_fst_weights, Sums.mem_foldl_add]

theorem mem_foldl_addTerm {entries : List (Term × UInt32)} :
    d ∈ entries.foldl (fun sums (term, n) => index.addTerm settings sums term n) sums ↔
      (∃ e ∈ entries, d ∈ index.docs e.1) ∨ d ∈ sums := by
  induction entries generalizing sums with
  | nil => simp
  | cons e entries ih =>
    rw [List.foldl_cons, ih, mem_addTerm]
    simp [or_assoc, or_left_comm]

theorem mem_sums {entries : List (Term × UInt32)} :
    d ∈ index.sums settings entries ↔ ∃ e ∈ entries, d ∈ index.docs e.1 := by
  rw [Index.sums, mem_foldl_addTerm]
  simp [(inOrder_perm entries).mem_iff]

theorem map_doc_scoreTerms (entries : List (Term × UInt32)) :
    (index.scoreTerms settings entries).map Ranked.doc = (index.sums settings entries).keys := by
  rw [scoreTerms, List.map_map, ← Std.TreeMap.map_fst_toList_eq_keys]
  rfl

theorem mem_map_doc_score {query : String} :
    d ∈ (index.score settings query).map Ranked.doc ↔
      ∃ word ∈ words query, d ∈ index.docs word := by
  rw [score, map_doc_scoreTerms, Std.TreeMap.mem_keys, mem_sums]
  simp [mem_counts]

theorem nodup_map_doc_score (query : String) :
    ((index.score settings query).map Ranked.doc).Nodup := by
  rw [score, map_doc_scoreTerms]
  exact Std.TreeMap.nodup_keys

/-! ## Any word of a query -/

theorem mem_operandDocs_words {ws : List Term} :
    (∃ ds ∈ index.operandDocs settings (ws.map fun w => .leaf false (.term w)), d ∈ ds) ↔
      ∃ w ∈ ws, d ∈ index.lookup settings w := by
  induction ws with
  | nil => simp [operandDocs]
  | cons w ws ih =>
    rw [List.map_cons, operandDocs]
    simp [ih, nodeDocs, leafDocs, signed]

/-- Where no number of documents is too small, nothing is corrected. -/
theorem lookup_of_minResults_eq_zero (h : settings.minResults = 0) (term : Term) :
    index.lookup settings term = index.docs term := by
  rw [lookup, h, if_pos (Nat.zero_le _)]

theorem mem_evaluate_words (h : settings.minResults = 0) {ws : List Term} :
    d ∈ index.evaluate settings [.or false (ws.map fun w => .leaf false (.term w))] ↔
      ∃ w ∈ ws, d ∈ index.docs w := by
  rw [evaluate, restrict, nodeDocs]
  show d ∈ DocSet.unionAll _ ↔ _
  rw [DocSet.mem_unionAll, mem_operandDocs_words]
  simp only [lookup_of_minResults_eq_zero h]

/-- A query scores the documents that hold one of its words, each of them once, whatever the score.
So the documents that it finds, ranked, are those that the alternative of its words finds where no
term is corrected. -/
theorem retrieve_perm_evaluate (calls : List Builder.Call)
    (h : (Builder.ofCalls calls).build order = .ok index) (settings : Settings) (query : String) :
    ((index.score settings query).map Ranked.doc).Nodup ∧
    (∀ d, d ∈ (index.score settings query).map Ranked.doc ↔
      ∃ word ∈ words query, ∃ p, Builder.Recorded calls ⟨word, d, p⟩) ∧
    ((index.retrieve settings query).map Ranked.doc).Perm
      (index.evaluate { settings with minResults := 0 }
        [.or false ((words query).map fun word => .leaf false (.term word))]) := by
  have hnodup : ((index.score settings query).map Ranked.doc).Nodup := nodup_map_doc_score query
  refine ⟨hnodup, ?_, ?_⟩
  · intro d
    simp only [mem_map_doc_score, mem_docs h]
  · have hranked : ((index.retrieve settings query).map Ranked.doc).Perm
        ((index.score settings query).map Ranked.doc) := (inOrder_perm _).map Ranked.doc
    refine hranked.trans ((List.perm_ext_iff_of_nodup hnodup ?_).mpr ?_)
    · exact (evaluate_answers (Builder.build_sound h) _).lists.ascending.nodup
    · intro d
      rw [mem_map_doc_score, mem_evaluate_words rfl]

/-- Every document with a word holds a cat, so that a cat is worth nothing, and all are kept. -/
theorem retrieve_perm_evaluate_cat : ∃ index, (Builder.ofCalls catCalls).build .byTerm = .ok index ∧
    ((index.score {} "Cat? zebra, cat!").map Ranked.doc).Nodup ∧
    ((index.retrieve {} "Cat? zebra, cat!").map Ranked.doc).Perm [1, 2, 3] := by
  have hknown : (Builder.ofCalls catCalls).lengthTable .byTerm ≠ [] := by decide +kernel
  have hbuild := Builder.build_of_ne_nil hknown
  obtain ⟨hnodup, -, hperm⟩ := retrieve_perm_evaluate catCalls hbuild {} "Cat? zebra, cat!"
  refine ⟨_, hbuild, hnodup, hperm.trans (List.Perm.of_eq ?_)⟩
  decide +kernel

/-! ## What a score depends on -/

/-- Whether the term of the entry is indexed. -/
def knows (index : Index) (e : Term × UInt32) : Bool := (index.find? e.1).isSome

theorem addTerm_of_unknown {term : Term} {n : UInt32} (h : index.knows (term, n) = false) :
    index.addTerm settings sums term n = sums := by
  rw [knows, Option.isSome_eq_false_iff, Option.isNone_iff_eq_none] at h
  rw [addTerm, h]

theorem foldl_addTerm_filter (entries : List (Term × UInt32)) (sums : Sums) :
    (entries.filter index.knows).foldl (fun sums (term, n) => index.addTerm settings sums term n)
        sums =
      entries.foldl (fun sums (term, n) => index.addTerm settings sums term n) sums := by
  induction entries generalizing sums with
  | nil => rfl
  | cons e entries ih =>
    obtain ⟨term, n⟩ := e
    rw [List.filter_cons]
    cases h : index.knows (term, n) with
    | true => exact ih (index.addTerm settings sums term n)
    | false =>
      -- an unknown term is no step at all
      show (entries.filter index.knows).foldl _ sums =
        entries.foldl _ (index.addTerm settings sums term n)
      rw [addTerm_of_unknown h]
      exact ih sums

/-- The sums depend on the entries of known terms, and not on the order in which these are given. -/
theorem sums_congr {entries entries' : List (Term × UInt32)}
    (h : (entries.filter index.knows).Perm (entries'.filter index.knows)) :
    index.sums settings entries = index.sums settings entries' := by
  rw [Index.sums, ← foldl_addTerm_filter, inOrder_filter, inOrder_congr h, ← inOrder_filter,
    foldl_addTerm_filter, Index.sums]

/-- Texts in which each term of the vocabulary stands equally often have the same known entries. -/
theorem counts_known_perm {b : Builder} (h : b.build order = .ok index) {ws vs : List Term}
    (hcounts : ∀ term ∈ index.vocabulary, ws.count term = vs.count term) :
    ((counts ws).filter index.knows).Perm ((counts vs).filter index.knows) := by
  rw [List.perm_ext_iff_of_nodup ((nodup_counts ws).filter _) ((nodup_counts vs).filter _)]
  intro e
  rw [List.mem_filter, List.mem_filter, and_congr_left_iff]
  intro hknown
  have hcount := hcounts e.1 ((isSome_find?_iff h).mp hknown)
  rw [mem_counts, mem_counts, ← List.count_pos_iff, ← List.count_pos_iff, hcount]

/-- The results that a query may be answered with, where its words are counted, and the documents
with a score listed, in any order whatever. -/
def MayAnswer (index : Index) (memory : Memory) (settings : Settings) (k : Option Nat)
    (query : String) (results : Except Shortage (List Ranked)) : Prop :=
  ∃ entries listed, entries.Perm (counts (words query)) ∧
    listed.Perm (index.scoreTerms settings entries) ∧ results = rankUpTo memory k listed

/-- Two texts in which each term of the vocabulary stands equally often among the words are answered
alike, to the last bit of the scores, ranked in full or only the best, and in whatever order the
words are counted and the documents listed. -/
theorem retrieve_congr_counts (calls : List Builder.Call)
    (h : (Builder.ofCalls calls).build order = .ok index) (settings : Settings) {a b : String}
    (hcounts : ∀ term ∈ index.vocabulary, (words a).count term = (words b).count term) :
    index.score settings a = index.score settings b ∧
    index.retrieve settings a = index.retrieve settings b ∧
    ∀ memory k, index.retrieveUpTo memory settings k a = index.retrieveUpTo memory settings k b ∧
      ∀ results, index.MayAnswer memory settings k a results ↔
        results = index.retrieveUpTo memory settings k b := by
  have hperm := counts_known_perm h hcounts
  have hscore : index.score settings a = index.score settings b := by
    rw [score, score, scoreTerms, sums_congr hperm, ← scoreTerms]
  refine ⟨hscore, by rw [retrieve, retrieve, hscore], fun memory k => ?_⟩
  have hretrieve :
      index.retrieveUpTo memory settings k a = index.retrieveUpTo memory settings k b := by
    rw [retrieveUpTo, retrieveUpTo, hscore]
  refine ⟨hretrieve, fun results => ?_⟩
  rw [← hretrieve]
  constructor
  · intro hmay
    obtain ⟨entries, listed, hentries, hlisted, rfl⟩ := hmay
    -- the order of the entries is lost in the sums, and that of the documents in the ranking
    have hsums : index.sums settings entries = index.sums settings (counts (words a)) :=
      sums_congr (hentries.filter index.knows)
    rw [scoreTerms, hsums, ← scoreTerms] at hlisted
    exact rankUpTo_congr memory hlisted k
  · intro he
    exact ⟨_, _, List.Perm.refl _, List.Perm.refl _, he⟩

/-- Words in another order and in other letters, and two that no document holds. -/
theorem retrieve_congr_counts_cat : ∃ index, (Builder.ofCalls catCalls).build .byTerm = .ok index ∧
    (∀ term ∈ index.vocabulary,
      (words "the cat? The ZEBRA sat").count term = (words "SAT! cat the (the) dog").count term) ∧
    index.score {} "the cat? The ZEBRA sat" = index.score {} "SAT! cat the (the) dog" ∧
    ∀ results, index.MayAnswer ⟨1024⟩ {} (some 2) "the cat? The ZEBRA sat" results ↔
      results = index.retrieveUpTo ⟨1024⟩ {} (some 2) "SAT! cat the (the) dog" := by
  have hknown : (Builder.ofCalls catCalls).lengthTable .byTerm ≠ [] := by decide +kernel
  have hbuild := Builder.build_of_ne_nil hknown
  refine ⟨_, hbuild, by decide +kernel, ?_⟩
  have hmay := retrieve_congr_counts catCalls hbuild {} (a := "the cat? The ZEBRA sat")
    (b := "SAT! cat the (the) dog") (by decide +kernel)
  exact ⟨hmay.1, (hmay.2.2 ⟨1024⟩ (some 2)).2⟩

end Index
end Concordance
