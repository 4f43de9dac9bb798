import Concordance.Evaluation.Report
import Concordance.Proofs.Evaluation.Metrics
/-!
The numbers of a confusion along a ranking. They come from subtractions that never go below zero,
since what is in two sets is at most either, and they move in one direction as more documents are
retrieved (`confusion_grows`): along the prefixes of a list, and along the cutoffs of a report
(`confusion_counts`).
-/
namespace Concordance

variable {retrieved relevant shorter longer : List DocId}

/-- More documents were retrieved for `d` than for `c`, with the same ones relevant. -/
structure Confusion.Grows (c d : Confusion) : Prop where
  truePositives : c.truePositives ≤ d.truePositives
  falsePositives : c.falsePositives ≤ d.falsePositives
  falseNegatives : d.falseNegatives ≤ c.falseNegatives

theorem confusion_grows (h : shorter ⊆ longer) :
    (confusion shorter relevant).Grows (confusion longer relevant) := by
  have hsets : shorter.toFinset ⊆ longer.toFinset := by
    intro d hd
    exact List.mem_toFinset.mpr (h (List.mem_toFinset.mp hd))
  constructor
  · rw [truePositives_eq, truePositives_eq]
    exact Finset.card_le_card (Finset.inter_subset_inter_right hsets)
  · rw [falsePositives_eq, falsePositives_eq]
    exact Finset.card_le_card (Finset.sdiff_subset_sdiff hsets (Finset.Subset.refl _))
  · rw [falseNegatives_eq, falseNegatives_eq]
    exact Finset.card_le_card (Finset.sdiff_subset_sdiff (Finset.Subset.refl _) hsets)

/-- What is both retrieved and relevant is at most either, so that neither subtraction of a confusion
goes below zero. With the rest it makes the number of distinct documents retrieved, and that of
those relevant. Of two prefixes of a list, the longer one finds at least as many relevant and at
least as many other documents, and misses at most as many relevant ones; so does the greater of two
cutoffs in the report on a query. -/
theorem confusion_counts (retrieved relevant : List DocId) :
    let c := confusion retrieved relevant
    (c.truePositives ≤ (ascending retrieved).length ∧
      c.truePositives ≤ (ascending relevant).length ∧
      c.truePositives + c.falsePositives = retrieved.toFinset.card ∧
      c.truePositives + c.falseNegatives = relevant.toFinset.card ∧
      c.truePositives = (retrieved.toFinset ∩ relevant.toFinset).card) ∧
    (∀ shorter longer, shorter <+: retrieved → longer <+: retrieved →
      shorter.length ≤ longer.length →
        (confusion shorter relevant).Grows (confusion longer relevant)) ∧
    ∀ cutoffs query, ∀ a ∈ (QueryReport.of cutoffs query retrieved relevant).cutoffs,
      ∀ b ∈ (QueryReport.of cutoffs query retrieved relevant).cutoffs,
        a.cutoff ≤ b.cutoff → a.confusion.Grows b.confusion := by
  intro c
  have hretrieved := truePositives_add_falsePositives retrieved relevant
  have hrelevant := truePositives_add_falseNegatives retrieved relevant
  refine ⟨⟨?_, ?_, hretrieved, hrelevant, truePositives_eq retrieved relevant⟩, ?_, ?_⟩
  · rw [length_ascending]
    exact Nat.le.intro hretrieved
  · rw [length_ascending]
    exact Nat.le.intro hrelevant
  · intro shorter longer hshorter hlonger hlength
    exact confusion_grows (List.prefix_of_prefix_length_le hshorter hlonger hlength).subset
  · intro cutoffs query a ha b hb hle
    obtain ⟨k, -, rfl⟩ := List.mem_map.mp ha
    obtain ⟨l, -, rfl⟩ := List.mem_map.mp hb
    exact confusion_grows (List.take_prefix_take_left hle).subset

/-- A ranking and judgements that repeat documents, at a cutoff within a repeat and at one behind
it. -/
theorem confusion_counts_repeated :
    (confusion [3, 1, 3, 2] [2, 3, 3, 9]).truePositives +
      (confusion [3, 1, 3, 2] [2, 3, 3, 9]).falsePositives = 3 ∧
    (confusion [3, 1, 3, 2] [2, 3, 3, 9]).truePositives +
      (confusion [3, 1, 3, 2] [2, 3, 3, 9]).falseNegatives = 3 ∧
    [3, 1, 3] <+: ([3, 1, 3, 2] : List DocId) ∧
    (confusion [3, 1, 3] [2, 3, 3, 9]).Grows (confusion [3, 1, 3, 2] [2, 3, 3, 9]) := by
  have hprefix : [3, 1, 3] <+: ([3, 1, 3, 2] : List DocId) := ⟨[2], rfl⟩
  obtain ⟨⟨-, -, hretrieved, hrelevant, -⟩, hgrows, -⟩ :=
    confusion_counts [3, 1, 3, 2] [2, 3, 3, 9]
  exact ⟨hretrieved.trans rfl, hrelevant.trans rfl, hprefix,
    hgrows _ _ hprefix (List.prefix_refl _) (by decide)⟩

end Concordance
