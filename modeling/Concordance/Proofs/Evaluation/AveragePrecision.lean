import Concordance.Proofs.Evaluation.Counts
/-!
The average precision, computed in one walk, as a mean over ranks. What the walk has counted after
some documents is a `Tally` (`precisionSum_eq`), to which each document is added (`Tally.add`). Its
number of hits is that of the relevant documents so far (`Tally.Counts`), whether or not documents
repeat. Where none does, a document stands at the rank that is the number of distinct documents up
to it, so each addition is the precision there (`precision_take`, `sum_tally_take`), and the average
precision is the sum of these in the order of the ranks, divided by the number of relevant documents
(`averagePrecision_eq_mean`).
-/
namespace Concordance

variable {relevant ranked : List DocId}

/-! ## The walk -/

/-- What is known after some documents of a ranking: the relevant ones among them, how many these
are, how many documents there were in all, and the sum so far. -/
structure Tally where
  seen : List DocId
  hits : Nat
  rank : Nat
  sum : Float

def Tally.add (relevant : List DocId) (t : Tally) (doc : DocId) : Tally :=
  if relevant.contains doc && !t.seen.contains doc then
    ⟨doc :: t.seen, t.hits + 1, t.rank + 1, t.sum + (t.hits + 1).toFloat / (t.rank + 1).toFloat⟩
  else { t with rank := t.rank + 1 }

def tally (relevant ranked : List DocId) : Tally :=
  ranked.foldl (Tally.add relevant) ⟨[], 0, 0, 0.0⟩

theorem Tally.add_of_new {t : Tally} {doc : DocId} (hdoc : doc ∈ relevant) (hnew : doc ∉ t.seen) :
    t.add relevant doc = ⟨doc :: t.seen, t.hits + 1, t.rank + 1,
      t.sum + (t.hits + 1).toFloat / (t.rank + 1).toFloat⟩ := by
  rw [Tally.add, if_pos (by simp [hdoc, hnew])]

theorem Tally.add_of_not_new {t : Tally} {doc : DocId} (h : ¬(doc ∈ relevant ∧ doc ∉ t.seen)) :
    t.add relevant doc = { t with rank := t.rank + 1 } := by
  rw [Tally.add, if_neg (by simpa using h)]

theorem tally_concat (relevant ranked : List DocId) (doc : DocId) :
    tally relevant (ranked ++ [doc]) = (tally relevant ranked).add relevant doc :=
  List.foldl_concat _ _ _ _

theorem precisionSum_append (relevant rest : List DocId) : ∀ (before : List DocId) (t : Tally),
    precisionSum relevant t.seen t.hits t.rank t.sum (before ++ rest) =
      let t' := before.foldl (Tally.add relevant) t
      precisionSum relevant t'.seen t'.hits t'.rank t'.sum rest := by
  intro before
  induction before with
  | nil => intro t; rfl
  | cons doc before ih =>
    intro t
    rw [List.foldl_cons, ← ih, List.cons_append, precisionSum, Tally.add]
    split <;> rfl

/-- After some documents of a ranking, the walk stands where their tally says. -/
theorem precisionSum_eq (relevant ranked : List DocId) (i : Nat) :
    let t := tally relevant (ranked.take i)
    precisionSum relevant [] 0 0 0.0 ranked =
      precisionSum relevant t.seen t.hits t.rank t.sum (ranked.drop i) := by
  have hwalk := precisionSum_append relevant (ranked.drop i) (ranked.take i) ⟨[], 0, 0, 0.0⟩
  rwa [List.take_append_drop] at hwalk

theorem averagePrecision_eq_tally (h : relevant ≠ []) (ranked : List DocId) :
    averagePrecision ranked relevant =
      some ((tally relevant ranked).sum / relevant.toFinset.card.toFloat) := by
  have hwalk := precisionSum_eq relevant ranked ranked.length
  rw [List.take_length, List.drop_length] at hwalk
  rw [averagePrecision, if_neg (by simpa using h), hwalk, length_ascending]
  rfl

/-! ## Hits -/

/-- The tally is that of these documents. -/
structure Tally.Counts (relevant ranked : List DocId) (t : Tally) : Prop where
  seen : ∀ d, d ∈ t.seen ↔ d ∈ ranked ∧ d ∈ relevant
  hits : t.hits = (confusion ranked relevant).truePositives
  rank : t.rank = ranked.length

/-- A relevant document that is new is one more in both sets, and no other document is. -/
theorem truePositives_concat (relevant ranked : List DocId) (doc : DocId) :
    (confusion (ranked ++ [doc]) relevant).truePositives =
      (confusion ranked relevant).truePositives +
        if doc ∈ relevant ∧ doc ∉ ranked then 1 else 0 := by
  have hset : (ranked ++ [doc]).toFinset = insert doc ranked.toFinset := by
    ext d
    simp
  rw [truePositives_eq, truePositives_eq, hset]
  by_cases hdoc : doc ∈ relevant
  · rw [Finset.insert_inter_of_mem (List.mem_toFinset.mpr hdoc)]
    by_cases hold : doc ∈ ranked
    · rw [if_neg fun h => h.2 hold, Finset.insert_eq_of_mem (by simp [hdoc, hold]), Nat.add_zero]
    · rw [if_pos ⟨hdoc, hold⟩, Finset.card_insert_of_notMem (by simp [hold])]
  · rw [Finset.insert_inter_of_notMem (by simpa using hdoc), if_neg fun h => hdoc h.1,
      Nat.add_zero]

theorem Tally.Counts.add {t : Tally} (h : t.Counts relevant ranked) (doc : DocId) :
    (t.add relevant doc).Counts relevant (ranked ++ [doc]) := by
  have hrank : t.rank + 1 = (ranked ++ [doc]).length := by rw [h.rank, List.length_append]; rfl
  have hhits := truePositives_concat relevant ranked doc
  rw [← h.hits] at hhits
  -- a document counts only if it is relevant and has not been met before
  by_cases hdoc : doc ∈ relevant
  · by_cases hold : doc ∈ ranked
    · have hseen : doc ∈ t.seen := (h.seen doc).mpr ⟨hold, hdoc⟩
      rw [if_neg fun hn => hn.2 hold, Nat.add_zero] at hhits
      rw [add_of_not_new fun hn => hn.2 hseen]
      refine ⟨fun d => ?_, hhits.symm, hrank⟩
      rw [h.seen, List.mem_append, List.mem_singleton, or_iff_left_of_imp]
      rintro rfl
      exact hold
    · have hnew : doc ∉ t.seen := fun hs => hold ((h.seen doc).mp hs).1
      rw [if_pos ⟨hdoc, hold⟩] at hhits
      rw [add_of_new hdoc hnew]
      refine ⟨fun d => ?_, hhits.symm, hrank⟩
      rw [List.mem_cons, h.seen, List.mem_append, List.mem_singleton, or_and_right, or_comm]
      exact or_congr_right ⟨fun hd => ⟨hd, hd ▸ hdoc⟩, And.left⟩
  · rw [if_neg fun hn => hdoc hn.1, Nat.add_zero] at hhits
    rw [add_of_not_new fun hn => hdoc hn.1]
    refine ⟨fun d => ?_, hhits.symm, hrank⟩
    rw [h.seen, List.mem_append, List.mem_singleton, or_and_right, or_iff_left]
    rintro ⟨rfl, hd⟩
    exact hdoc hd

theorem counts_tally (relevant ranked : List DocId) :
    (tally relevant ranked).Counts relevant ranked := by
  induction ranked using List.reverseRecOn with
  | nil => exact ⟨by simp [tally], by rw [truePositives_eq]; rfl, rfl⟩
  | append_singleton ranked doc ih =>
    rw [tally_concat]
    exact ih.add doc

/-! ## The sum -/

/-- The ranks, counted from one, that hold a relevant document. -/
def relevantRanks (relevant ranked : List DocId) : List Nat :=
  ((ranked.zipIdx 1).filter fun (doc, _) => doc ∈ relevant).map (·.2)

/-- The share of relevant documents among the first `i` of a ranking. -/
def shareAt (relevant ranked : List DocId) (i : Nat) : Float :=
  (confusion (ranked.take i) relevant).truePositives.toFloat / i.toFloat

theorem relevantRanks_concat (relevant ranked : List DocId) (doc : DocId) :
    relevantRanks relevant (ranked ++ [doc]) =
      relevantRanks relevant ranked ++ if doc ∈ relevant then [ranked.length + 1] else [] := by
  unfold relevantRanks
  rw [List.zipIdx_append, List.filter_append, List.map_append, Nat.add_comm 1]
  by_cases h : doc ∈ relevant <;> simp [h]

theorem bounds_of_mem_relevantRanks {i : Nat} (h : i ∈ relevantRanks relevant ranked) :
    1 ≤ i ∧ i ≤ ranked.length := by
  obtain ⟨⟨doc, j⟩, hj, rfl⟩ := List.mem_map.mp h
  obtain ⟨hone, hlt, -⟩ := List.mem_zipIdx (List.mem_filter.mp hj).1
  rw [Nat.add_comm] at hlt
  exact ⟨hone, Nat.le_of_lt_succ hlt⟩

theorem precision_take (hranked : ranked.Nodup) {i : Nat} (hone : 1 ≤ i) (hi : i ≤ ranked.length) :
    (confusion (ranked.take i) relevant).precision = some (shareAt relevant ranked i) := by
  have hcard : (ranked.take i).toFinset.card = i := by
    rw [List.toFinset_card_of_nodup (hranked.sublist (List.take_sublist i ranked)),
      List.length_take_of_le hi]
  rw [Confusion.precision, truePositives_add_falsePositives, hcard, ratio,
    if_neg (Nat.ne_of_gt hone)]
  rfl

/-- A new document adds the share of the relevant ones up to it, if it is one of them. -/
theorem sum_tally_concat {doc : DocId} (hdoc : doc ∈ relevant) (hnew : doc ∉ ranked) :
    (tally relevant (ranked ++ [doc])).sum = (tally relevant ranked).sum +
      (confusion (ranked ++ [doc]) relevant).truePositives.toFloat /
        (ranked.length + 1).toFloat := by
  have hcounts := counts_tally relevant ranked
  have hunseen : doc ∉ (tally relevant ranked).seen := fun hs => hnew ((hcounts.seen doc).mp hs).1
  rw [tally_concat, Tally.add_of_new hdoc hunseen, truePositives_concat, if_pos ⟨hdoc, hnew⟩,
    hcounts.hits, hcounts.rank]

theorem sum_tally_concat_of_not_mem {doc : DocId} (hdoc : doc ∉ relevant) (ranked : List DocId) :
    (tally relevant (ranked ++ [doc])).sum = (tally relevant ranked).sum := by
  rw [tally_concat, Tally.add_of_not_new fun hnew => hdoc hnew.1]

theorem getElem_not_mem_take (hranked : ranked.Nodup) {n : Nat} (hn : n < ranked.length) :
    ranked[n] ∉ ranked.take n := by
  have hbehind : ranked[n] ∈ ranked.drop n := by
    rw [List.drop_eq_getElem_cons hn]
    exact List.mem_cons_self
  intro hm
  exact List.disjoint_take_drop hranked (Nat.le_refl n) hm hbehind

theorem sum_tally_take (hranked : ranked.Nodup) : ∀ {n : Nat}, n ≤ ranked.length →
    (tally relevant (ranked.take n)).sum =
      ((relevantRanks relevant (ranked.take n)).map (shareAt relevant ranked)).foldl (· + ·) 0.0 := by
  intro n
  induction n with
  | zero => intro _; rfl
  | succ n ih =>
    intro hn
    have ih := ih (Nat.le_of_succ_le hn)
    have htake : ranked.take (n + 1) = ranked.take n ++ [ranked[n]] :=
      List.take_succ_eq_append_getElem hn
    have hlength : (ranked.take n).length = n := List.length_take_of_le (Nat.le_of_succ_le hn)
    by_cases hdoc : ranked[n] ∈ relevant
    · have hsum : (tally relevant (ranked.take n ++ [ranked[n]])).sum =
          (tally relevant (ranked.take n)).sum + shareAt relevant ranked (n + 1) := by
        rw [sum_tally_concat hdoc (getElem_not_mem_take hranked hn), shareAt, htake, hlength]
      rw [htake, hsum, relevantRanks_concat, if_pos hdoc, hlength, List.map_append,
        List.foldl_append, ← ih]
      rfl
    · rw [htake, sum_tally_concat_of_not_mem hdoc, relevantRanks_concat, if_neg hdoc,
        List.append_nil]
      exact ih

/-- The average precision of a ranking without repeats is the sum, in the order of the ranks, of the
precision at each rank that holds a relevant document, divided by the number of distinct relevant
documents. After any number of documents, the hits that the walk has counted are the relevant ones
among them, of which there are no more than relevant documents at all. -/
theorem averagePrecision_eq_mean (ranked relevant : List DocId) (hranked : ranked.Nodup)
    (hrelevant : relevant ≠ []) :
    (∃ precisions : List Float,
      (relevantRanks relevant ranked).map
        (fun i => (confusion (ranked.take i) relevant).precision) = precisions.map some ∧
      averagePrecision ranked relevant =
        some (precisions.foldl (· + ·) 0.0 / relevant.toFinset.card.toFloat)) ∧
    ∀ i, let t := tally relevant (ranked.take i)
      precisionSum relevant [] 0 0 0.0 ranked =
        precisionSum relevant t.seen t.hits t.rank t.sum (ranked.drop i) ∧
      t.hits = (confusion (ranked.take i) relevant).truePositives ∧
      t.hits ≤ relevant.toFinset.card := by
  constructor
  · refine ⟨(relevantRanks relevant ranked).map (shareAt relevant ranked), ?_, ?_⟩
    · rw [List.map_map]
      apply List.map_congr_left
      intro i hi
      obtain ⟨hone, hlength⟩ := bounds_of_mem_relevantRanks hi
      exact precision_take hranked hone hlength
    -- the sum of the walk is that of its tally, and the tally adds the ranks up in their order
    · have hsum : (tally relevant (ranked.take ranked.length)).sum = _ :=
        sum_tally_take hranked (Nat.le_refl _)
      rw [List.take_length] at hsum
      rw [averagePrecision_eq_tally hrelevant, hsum]
  · intro i t
    have hhits := (counts_tally relevant (ranked.take i)).hits
    refine ⟨precisionSum_eq relevant ranked i, hhits, ?_⟩
    rw [hhits, truePositives_eq]
    exact Finset.card_le_card Finset.inter_subset_right

/-- Two hits, for three documents of which one is judged twice and one is not found. -/
theorem averagePrecision_eq_mean_missed :
    ([4, 1, 5, 2] : List DocId).Nodup ∧ ([2, 1, 1, 9] : List DocId) ≠ [] ∧
    relevantRanks [2, 1, 1, 9] [4, 1, 5, 2] = [2, 4] ∧
    averagePrecision [4, 1, 5, 2] [2, 1, 1, 9] = some ((0.0 + 0.5 + 0.5) / 3.0) ∧
    (tally [2, 1, 1, 9] [4, 1, 5]).hits = (confusion [4, 1, 5] [2, 1, 1, 9]).truePositives := by
  have hranked : ([4, 1, 5, 2] : List DocId).Nodup := by decide
  have hrelevant : ([2, 1, 1, 9] : List DocId) ≠ [] := List.cons_ne_nil _ _
  have hranks : relevantRanks [2, 1, 1, 9] [4, 1, 5, 2] = [2, 4] := by decide
  obtain ⟨⟨precisions, hprecisions, haverage⟩, hwalk⟩ :=
    averagePrecision_eq_mean [4, 1, 5, 2] [2, 1, 1, 9] hranked hrelevant
  have hhalves : precisions.map some = [some 0.5, some 0.5] := by
    rw [← hprecisions]
    decide +kernel
  obtain rfl : precisions = [0.5, 0.5] :=
    List.map_injective_iff.mpr (Option.some_injective _) hhalves
  refine ⟨hranked, hrelevant, hranks, haverage.trans ?_, (hwalk 3).2.1⟩
  decide +kernel

end Concordance
