import Concordance.Evaluation.Judgements
import Concordance.Evaluation.Metrics
import Concordance.Proofs.DocSet
import Mathlib.Data.Finset.Card
import Mathlib.Data.Finset.Dedup
import Mathlib.Data.Finset.SDiff
/-!
What the metrics look at. The confusion of two lists counts the members of finite sets: what is
retrieved and relevant, and what is left of either (`truePositives_eq`, `falsePositives_eq`,
`falseNegatives_eq`). So it, and every ratio of its counts, is a matter of the two sets alone
(`confusion_congr`). So is the average precision as far as the relevant documents are concerned
(`averagePrecision_congr`).

The R-precision is not: its cutoff is the number of judgements, and a document that is judged twice
counts twice there. It agrees for lists of the same documents that are of the same length, and for
no others, unless every document is relevant (`metrics_congr`, `exists_rPrecision_ne`).
-/
namespace Concordance

variable {retrieved relevant others ranked : List DocId}

/-! ## Counting -/

theorem toFinset_ascending (ds : List DocId) : (ascending ds).toFinset = ds.toFinset := by
  ext d
  rw [List.mem_toFinset, List.mem_toFinset, mem_ascending]

theorem length_ascending (ds : List DocId) : (ascending ds).length = ds.toFinset.card := by
  rw [← toFinset_ascending, List.toFinset_card_of_nodup (ascending_ascending ds).nodup]

theorem truePositives_eq (retrieved relevant : List DocId) :
    (confusion retrieved relevant).truePositives =
      (retrieved.toFinset ∩ relevant.toFinset).card := by
  have hr := ascending_ascending retrieved
  have hv := ascending_ascending relevant
  have hboth : (DocSet.inter (ascending retrieved) (ascending relevant)).toFinset =
      retrieved.toFinset ∩ relevant.toFinset := by
    ext d
    rw [List.mem_toFinset, DocSet.mem_inter hr hv, Finset.mem_inter, List.mem_toFinset,
      List.mem_toFinset, mem_ascending, mem_ascending]
  rw [← hboth, List.toFinset_card_of_nodup (DocSet.inter_ascending hr _).nodup]
  rfl

theorem falsePositives_eq (retrieved relevant : List DocId) :
    (confusion retrieved relevant).falsePositives =
      (retrieved.toFinset \ relevant.toFinset).card := by
  have hsub : (confusion retrieved relevant).falsePositives =
      (ascending retrieved).length - (confusion retrieved relevant).truePositives := rfl
  rw [hsub, length_ascending, truePositives_eq, Finset.card_sdiff, Finset.inter_comm]

theorem falseNegatives_eq (retrieved relevant : List DocId) :
    (confusion retrieved relevant).falseNegatives =
      (relevant.toFinset \ retrieved.toFinset).card := by
  have hsub : (confusion retrieved relevant).falseNegatives =
      (ascending relevant).length - (confusion retrieved relevant).truePositives := rfl
  rw [hsub, length_ascending, truePositives_eq, Finset.card_sdiff]

theorem truePositives_add_falsePositives (retrieved relevant : List DocId) :
    (confusion retrieved relevant).truePositives + (confusion retrieved relevant).falsePositives =
      retrieved.toFinset.card := by
  rw [truePositives_eq, falsePositives_eq, Finset.card_inter_add_card_sdiff]

theorem truePositives_add_falseNegatives (retrieved relevant : List DocId) :
    (confusion retrieved relevant).truePositives + (confusion retrieved relevant).falseNegatives =
      relevant.toFinset.card := by
  rw [truePositives_eq, falseNegatives_eq, Finset.inter_comm, Finset.card_inter_add_card_sdiff]

theorem precision_eq (retrieved relevant : List DocId) :
    (confusion retrieved relevant).precision =
      ratio (retrieved.toFinset ∩ relevant.toFinset).card retrieved.toFinset.card := by
  rw [Confusion.precision, truePositives_add_falsePositives, truePositives_eq]

/-! ## Means that exist -/

theorem averagePrecision_isSome (ranked : List DocId) (h : relevant ≠ []) :
    (averagePrecision ranked relevant).isSome := by
  rw [averagePrecision, if_neg (by simpa using h)]
  rfl

theorem meanAveragePrecision_isSome {scores : List Float} (h : scores ≠ []) :
    (meanAveragePrecision scores).isSome := by
  rw [meanAveragePrecision, if_neg (by simpa using h)]
  rfl

/-! ## Lists of the same documents -/

theorem confusion_congr {retrieved' : List DocId} (hr : ∀ d, d ∈ retrieved ↔ d ∈ retrieved')
    (h : ∀ d, d ∈ relevant ↔ d ∈ others) :
    confusion retrieved relevant = confusion retrieved' others := by
  rw [confusion, confusion, ascending_congr hr, ascending_congr h]

theorem precisionSum_congr (h : ∀ d, d ∈ relevant ↔ d ∈ others) :
    ∀ (ranked seen : List DocId) (hits rank : Nat) (sum : Float),
      precisionSum relevant seen hits rank sum ranked =
        precisionSum others seen hits rank sum ranked := by
  have hcontains : ∀ d, relevant.contains d = others.contains d := by
    intro d
    rw [Bool.eq_iff_iff, List.contains_iff_mem, List.contains_iff_mem, h]
  intro ranked
  induction ranked with
  | nil => intros; rfl
  | cons doc ranked ih =>
    intro seen hits rank sum
    simp only [precisionSum, hcontains, ih]

theorem averagePrecision_congr (h : ∀ d, d ∈ relevant ↔ d ∈ others) (ranked : List DocId) :
    averagePrecision ranked relevant = averagePrecision ranked others := by
  have hempty : relevant.isEmpty = others.isEmpty := by
    rw [Bool.eq_iff_iff, List.isEmpty_iff, List.isEmpty_iff, List.eq_nil_iff_forall_not_mem,
      List.eq_nil_iff_forall_not_mem]
    simp only [h]
  rw [averagePrecision, averagePrecision, hempty, precisionSum_congr h, ascending_congr h]

theorem rPrecision_congr (h : ∀ d, d ∈ relevant ↔ d ∈ others)
    (hcut : min relevant.length ranked.length = min others.length ranked.length) :
    rPrecision ranked relevant = rPrecision ranked others := by
  have htop : ranked.take relevant.length = ranked.take others.length := by
    rw [List.take_eq_take_min, hcut, ← List.take_eq_take_min]
  rw [rPrecision, rPrecision, htop, confusion_congr (fun _ => Iff.rfl) h]

/-! ## Where the R-precision differs -/

theorem confusion_single {x : DocId} (hx : x ∈ relevant) :
    (confusion [x] relevant).precision = ratio 1 1 := by
  have hboth : {x} ∩ relevant.toFinset = {x} :=
    Finset.singleton_inter_of_mem (List.mem_toFinset.mpr hx)
  rw [precision_eq, List.toFinset_cons, List.toFinset_nil, insert_empty_eq, hboth,
    Finset.card_singleton]

theorem confusion_pair {x y : DocId} (hx : x ∈ relevant) (hy : y ∉ relevant) :
    (confusion [x, y] relevant).precision = ratio 1 2 := by
  have hne : x ≠ y := fun he => hy (he ▸ hx)
  have hboth : {x, y} ∩ relevant.toFinset = {x} := by
    rw [Finset.insert_inter_of_mem (List.mem_toFinset.mpr hx),
      Finset.singleton_inter_of_notMem (by simpa using hy), insert_empty_eq]
  rw [precision_eq, List.toFinset_cons, List.toFinset_cons, List.toFinset_nil, insert_empty_eq,
    hboth, Finset.card_singleton, Finset.card_pair hne]

/-- A longer list of the same documents lets one more document in, behind those that fill the
shorter cutoff. -/
theorem exists_rPrecision_ne (h : ∀ d, d ∈ relevant ↔ d ∈ others)
    (hlt : relevant.length < others.length) {y : DocId} (hy : y ∉ relevant) :
    ∃ ranked, rPrecision ranked relevant ≠ rPrecision ranked others := by
  obtain ⟨x, hx⟩ : ∃ x, x ∈ relevant := by
    obtain ⟨x, hx⟩ := List.exists_mem_of_length_pos (Nat.zero_lt_of_lt hlt)
    exact ⟨x, (h x).mpr hx⟩
  have hpos := List.length_pos_of_mem hx
  -- relevant documents as far as the shorter cutoff reaches, and behind them one that is not
  let top := List.replicate relevant.length x
  have htop : ∀ d, d ∈ top ↔ d ∈ [x] := by
    intro d
    simp [top, List.mem_replicate, Nat.ne_of_gt hpos]
  have hall : ∀ d, d ∈ top ++ [y] ↔ d ∈ [x, y] := by
    intro d
    rw [List.mem_append, htop]
    simp
  have hshort : (top ++ [y]).take relevant.length = top :=
    List.take_left' List.length_replicate
  have hlong : (top ++ [y]).take others.length = top ++ [y] := by
    apply List.take_of_length_le
    simpa [top, Nat.add_one_le_iff] using hlt
  refine ⟨top ++ [y], ?_⟩
  rw [rPrecision, rPrecision, hshort, hlong, confusion_congr htop (fun _ => Iff.rfl),
    confusion_congr hall fun d => (h d).symm, confusion_single hx, confusion_pair hx hy]
  decide

/-- Two lists of the same relevant documents, in any order and with any repeats, give the same
confusion, precision, recall, F-score and average precision. They give the same R-precision where
both cutoffs are the same, or both lie behind all ranked documents. Unless every document is
relevant, only lists of the same length do so for every ranking. -/
theorem metrics_congr (relevant others : List DocId) (h : ∀ d, d ∈ relevant ↔ d ∈ others) :
    (∀ ranked, confusion ranked relevant = confusion ranked others ∧
      (confusion ranked relevant).precision = (confusion ranked others).precision ∧
      (confusion ranked relevant).sensitivity = (confusion ranked others).sensitivity ∧
      (∀ beta, (confusion ranked relevant).fScore beta = (confusion ranked others).fScore beta) ∧
      averagePrecision ranked relevant = averagePrecision ranked others ∧
      (min relevant.length ranked.length = min others.length ranked.length →
        rPrecision ranked relevant = rPrecision ranked others)) ∧
    ∀ y, y ∉ relevant → ((∀ ranked, rPrecision ranked relevant = rPrecision ranked others) ↔
      relevant.length = others.length) := by
  constructor
  · intro ranked
    have hconfusion : confusion ranked relevant = confusion ranked others :=
      confusion_congr (fun _ => Iff.rfl) h
    rw [hconfusion]
    exact ⟨rfl, rfl, rfl, fun _ => rfl, averagePrecision_congr h ranked, rPrecision_congr h⟩
  · intro y hy
    constructor
    · intro hsame
      rcases Nat.lt_trichotomy relevant.length others.length with hlt | heq | hlt
      · obtain ⟨ranked, hne⟩ := exists_rPrecision_ne h hlt hy
        exact absurd (hsame ranked) hne
      · exact heq
      · obtain ⟨ranked, hne⟩ := exists_rPrecision_ne (fun d => (h d).symm) hlt (hy ∘ (h y).mpr)
        exact absurd (hsame ranked).symm hne
    · intro hlength ranked
      exact rPrecision_congr h (by rw [hlength])

/-- Where one list says twice what the other says once, all metrics agree but the R-precision. -/
theorem metrics_congr_repeated : (∀ d : DocId, d ∈ [3, 1, 4] ↔ d ∈ [1, 3, 1, 4]) ∧
    confusion [1, 2, 4, 5] [3, 1, 4] = confusion [1, 2, 4, 5] [1, 3, 1, 4] ∧
    averagePrecision [1, 2, 4, 5] [3, 1, 4] = averagePrecision [1, 2, 4, 5] [1, 3, 1, 4] ∧
    rPrecision [1, 2, 4] [3, 1, 4] = rPrecision [1, 2, 4] [1, 3, 1, 4] ∧
    ¬∀ ranked, rPrecision ranked [3, 1, 4] = rPrecision ranked [1, 3, 1, 4] := by
  have h : ∀ d : DocId, d ∈ [3, 1, 4] ↔ d ∈ [1, 3, 1, 4] := by
    intro d
    simp only [List.mem_cons]
    grind
  obtain ⟨hranked, hall⟩ := metrics_congr [3, 1, 4] [1, 3, 1, 4] h
  obtain ⟨hconfusion, -, -, -, haverage, -⟩ := hranked [1, 2, 4, 5]
  obtain ⟨-, -, -, -, -, hcut⟩ := hranked [1, 2, 4]
  refine ⟨h, hconfusion, haverage, hcut rfl, fun hsame => ?_⟩
  exact absurd ((hall 2 (by decide)).mp hsame) (by decide)

/-- The same judgement read twice moves the cutoff, and the R-precision with it. -/
theorem rPrecision_repeated :
    ((Judgements.parse "q 1\nq 1").toOption.bind fun judged => judged["q"]?) = some [1, 1] ∧
    (∀ d : DocId, d ∈ [1] ↔ d ∈ [1, 1]) ∧
    rPrecision [1, 2] [1] = some 1.0 ∧ rPrecision [1, 2] [1, 1] = some 0.5 ∧
    rPrecision [1, 2] [1] ≠ rPrecision [1, 2] [1, 1] := by
  refine ⟨by decide +kernel, fun d => ?_, by decide +kernel, by decide +kernel, by decide +kernel⟩
  simp

end Concordance
