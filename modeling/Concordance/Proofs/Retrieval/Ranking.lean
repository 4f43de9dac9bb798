import Concordance.Proofs.Ascending
import Concordance.Proofs.Retrieval.TotalOrder
import Concordance.Retrieval.Score
/-!
Ranking is a matter of the results alone, not of the order in which they arrive. `rank` gives the
one rearrangement in which better scores, and of equal scores smaller ids, come first
(`isRanking_iff`), and the queue for the `k` best ends with the first `k` of it
(`topK_eq_take_rank`), although it forgets all others on the way. Whether there is room for the
queue depends on `k` alone.

The queue always holds the best `k` of the results seen so far: what has been dropped is not ranked
before anything that is kept (`Best`). One offer keeps this (`Best.offer`), and so does a run of
them (`Best.foldl`).
-/
namespace Concordance

/-! ## The order of ranks -/

namespace Ranked
variable {a b r : Ranked}

instance : Std.TransCmp Ranked.order :=
  have : Std.TransCmp fun a b : Ranked => compareOn (·.score.key) b a := .opposite
  inferInstanceAs (Std.TransCmp (compareLex (fun a b : Ranked => compareOn (·.score.key) b a)
    (compareOn Ranked.doc)))

instance : Std.LawfulEqCmp Ranked.order where
  compare_self := Std.ReflCmp.compare_self
  eq_of_compare := by
    intro a b h
    simp only [order, compareLex, compareOn, Ordering.then_eq_eq,
      Std.LawfulEqOrd.compare_eq_iff_eq] at h
    obtain ⟨hscore, hdoc⟩ := h
    have hscore := Score.key_injective hscore.symm
    cases a
    cases b
    exact Ranked.mk.injEq .. |>.mpr ⟨hdoc, hscore⟩

/-- The first result has the better score, or the same score and no greater id. -/
def Precedes (a b : Ranked) : Prop :=
  Score.Below b.score a.score ∨ a.score = b.score ∧ a.doc ≤ b.doc

theorem isLE_order_iff : (a.order b).isLE = true ↔ a.Precedes b := by
  have hkey : b.score.key = a.score.key ↔ a.score = b.score :=
    ⟨fun h => (Score.key_injective h).symm, fun h => by rw [h]⟩
  rw [Precedes, Score.below_iff, order, compareLex, Ordering.isLE_then_iff_or]
  simp only [Std.compare_eq_lt, Std.LawfulEqOrd.compare_eq_iff_eq, hkey, compareOn,
    Std.isLE_compare]

/-- What is not ranked before a result is ranked behind it, or is the same. -/
theorem isLE_of_not_lt (h : a.order b ≠ .lt) : (b.order a).isLE = true := by
  have hswap : b.order a = (a.order b).swap := Std.OrientedCmp.eq_swap
  rw [hswap]
  cases he : a.order b with
  | lt => exact absurd he h
  | eq => rfl
  | gt => rfl

end Ranked

/-- The same results, those in front preceding those behind them. -/
structure IsRanking (results ranked : List Ranked) : Prop where
  perm : ranked.Perm results
  ordered : ranked.Pairwise Ranked.Precedes

theorem isRanking_iff {results ranked : List Ranked} :
    IsRanking results ranked ↔ ranked = rank results := by
  have hordered : ranked.Pairwise Ranked.Precedes ↔
      ranked.Pairwise fun a b => (a.order b).isLE := by
    simp only [Ranked.isLE_order_iff]
  constructor
  · intro h
    exact eq_inOrder h.perm (hordered.mp h.ordered)
  · intro h
    exact ⟨h ▸ inOrder_perm results, hordered.mpr (h ▸ inOrder_pairwise results)⟩

theorem length_rank (results : List Ranked) : (rank results).length = results.length :=
  (inOrder_perm results).length_eq

/-! ## The queue -/

namespace Ranked

theorem enqueue_perm (r : Ranked) : ∀ queue : List Ranked, (r.enqueue queue).Perm (r :: queue)
  | [] => List.Perm.refl _
  | s :: rest => by
    rw [enqueue]
    split
    · exact List.Perm.refl _
    · exact ((enqueue_perm r rest).cons s).trans (List.Perm.swap r s rest)

theorem forall_mem_enqueue {p : Ranked → Prop} {queue : List Ranked} :
    (∀ s ∈ r.enqueue queue, p s) ↔ p r ∧ ∀ s ∈ queue, p s := by
  simp only [(enqueue_perm r queue).mem_iff, List.forall_mem_cons]

theorem enqueue_pairwise (r : Ranked) : ∀ {queue : List Ranked},
    queue.Pairwise (fun a b => (b.order a).isLE) →
      (r.enqueue queue).Pairwise fun a b => (b.order a).isLE
  | [], _ => List.pairwise_singleton _ r
  | s :: rest, h => by
    obtain ⟨hs, hrest⟩ := List.pairwise_cons.mp h
    rw [enqueue]
    split
    · next hlt =>
      have hsr : (s.order r).isLE = true := by rw [hlt]; rfl
      refine List.pairwise_cons.mpr ⟨List.forall_mem_cons.mpr ⟨hsr, ?_⟩, h⟩
      intro b hb
      exact Std.TransCmp.isLE_trans (hs b hb) hsr
    · next hlt =>
      have hrs := isLE_of_not_lt hlt
      exact List.pairwise_cons.mpr ⟨forall_mem_enqueue.mpr ⟨hrs, hs⟩, enqueue_pairwise r hrest⟩

end Ranked

/-- The queue holds the best `k` of the results seen so far, the worst of them in front, or all of
them where these are fewer. -/
structure Best (k : Nat) (seen queue : List Ranked) : Prop where
  worst_first : queue.Pairwise fun a b => (b.order a).isLE
  length_le : queue.length ≤ k
  dropped : ∃ others, (queue ++ others).Perm seen ∧ (queue.length < k → others = []) ∧
    ∀ a ∈ queue, ∀ b ∈ others, (a.order b).isLE

namespace Best
variable {k : Nat} {seen queue : List Ranked}

theorem start (k : Nat) : Best k [] [] where
  worst_first := List.Pairwise.nil
  length_le := Nat.zero_le k
  dropped := ⟨[], List.Perm.refl _, fun _ => rfl, fun _ h => absurd h List.not_mem_nil⟩

theorem congr (h : Best k seen queue) {seen' : List Ranked} (hp : seen.Perm seen') :
    Best k seen' queue where
  worst_first := h.worst_first
  length_le := h.length_le
  dropped := by
    obtain ⟨others, hperm, hroom, hle⟩ := h.dropped
    exact ⟨others, hperm.trans hp, hroom, hle⟩

/-- While there is room, nothing has been dropped, and nothing is. -/
theorem enqueue (h : Best k seen queue) (hlt : queue.length < k) (r : Ranked) :
    Best k (r :: seen) (r.enqueue queue) where
  worst_first := r.enqueue_pairwise h.worst_first
  length_le := by
    rw [(r.enqueue_perm queue).length_eq]
    exact hlt
  dropped := by
    obtain ⟨others, hperm, hroom, _⟩ := h.dropped
    obtain rfl := hroom hlt
    rw [List.append_nil] at hperm
    refine ⟨[], ?_, fun _ => rfl, fun _ _ _ hb => absurd hb List.not_mem_nil⟩
    rw [List.append_nil]
    exact (r.enqueue_perm queue).trans (hperm.cons r)

/-- In a full queue, the worst result gives way to a better one. -/
theorem replace {worst : Ranked} {rest : List Ranked} (h : Best k seen (worst :: rest))
    (hfull : ¬(worst :: rest).length < k) {r : Ranked} (hlt : r.order worst = .lt) :
    Best k (r :: seen) (r.enqueue rest) where
  worst_first := r.enqueue_pairwise (List.pairwise_cons.mp h.worst_first).2
  length_le := by
    rw [(r.enqueue_perm rest).length_eq]
    exact h.length_le
  dropped := by
    obtain ⟨others, hperm, _, hle⟩ := h.dropped
    obtain ⟨hworst, _⟩ := List.pairwise_cons.mp h.worst_first
    have hr : (r.order worst).isLE = true := by rw [hlt]; rfl
    -- what is kept is ranked before the one that leaves, and that one before all others
    have hkept : ∀ a ∈ r.enqueue rest, (a.order worst).isLE :=
      Ranked.forall_mem_enqueue.mpr ⟨hr, hworst⟩
    refine ⟨worst :: others, ?_, ?_, ?_⟩
    · calc (r.enqueue rest ++ worst :: others).Perm (r :: rest ++ worst :: others) :=
            (r.enqueue_perm rest).append_right _
        _ |>.Perm (r :: (worst :: (rest ++ others))) := List.perm_middle.cons r
        _ |>.Perm (r :: seen) := hperm.cons r
    · intro hroom
      rw [(r.enqueue_perm rest).length_eq] at hroom
      exact absurd hroom hfull
    · intro a ha
      refine List.forall_mem_cons.mpr ⟨hkept a ha, ?_⟩
      intro b hb
      exact Std.TransCmp.isLE_trans (hkept a ha) (hle worst List.mem_cons_self b hb)

/-- In a full queue, a result that is not ranked before the worst is dropped. -/
theorem drop (h : Best k seen queue) (hfull : ¬queue.length < k) {r : Ranked}
    (hr : ∀ a ∈ queue, (a.order r).isLE) : Best k (r :: seen) queue where
  worst_first := h.worst_first
  length_le := h.length_le
  dropped := by
    obtain ⟨others, hperm, _, hle⟩ := h.dropped
    refine ⟨r :: others, List.perm_middle.trans (hperm.cons r), fun hroom => absurd hroom hfull, ?_⟩
    intro a ha
    exact List.forall_mem_cons.mpr ⟨hr a ha, hle a ha⟩

theorem offer (h : Best k seen queue) (r : Ranked) :
    Best k (r :: seen) (Ranked.offer k queue r) := by
  unfold Ranked.offer
  split
  · next hlt => exact h.enqueue hlt r
  · next hfull =>
    cases queue with
    | nil => exact h.drop hfull fun _ ha => absurd ha List.not_mem_nil
    | cons worst rest =>
      show Best k (r :: seen) (if r.order worst = .lt then r.enqueue rest else worst :: rest)
      split
      · next hlt => exact h.replace hfull hlt
      · next hlt =>
        have hworst := Ranked.isLE_of_not_lt hlt
        refine h.drop hfull (List.forall_mem_cons.mpr ⟨hworst, ?_⟩)
        intro a ha
        exact Std.TransCmp.isLE_trans ((List.pairwise_cons.mp h.worst_first).1 a ha) hworst

theorem foldl (results : List Ranked) (h : Best k seen queue) :
    Best k (results ++ seen) (results.foldl (Ranked.offer k) queue) := by
  induction results generalizing seen queue with
  | nil => exact h
  | cons r results ih => exact (ih (h.offer r)).congr List.perm_middle

/-- From best to worst, the queue is the beginning of the ranking. -/
theorem reverse_eq (h : Best k seen queue) : queue.reverse = (rank seen).take k := by
  obtain ⟨others, hperm, hroom, hle⟩ := h.dropped
  have hrank : queue.reverse ++ rank others = rank seen := by
    apply eq_inOrder
    · exact ((List.reverse_perm queue).append (inOrder_perm others)).trans hperm
    · refine List.pairwise_append.mpr ⟨List.pairwise_reverse.mpr h.worst_first,
        inOrder_pairwise others, ?_⟩
      intro a ha b hb
      exact hle a (List.mem_reverse.mp ha) b ((inOrder_perm others).mem_iff.mp hb)
  by_cases hlt : queue.length < k
  · obtain rfl := hroom hlt
    have hnone : rank [] = [] := List.mergeSort_nil
    rw [← hrank, hnone, List.append_nil, List.take_of_length_le]
    rw [List.length_reverse]
    exact h.length_le
  · have hlen : queue.reverse.length = k := by
      rw [List.length_reverse]
      exact Nat.le_antisymm h.length_le (Nat.not_lt.mp hlt)
    rw [← hrank, ← hlen, List.take_left]

end Best

theorem best_eq_take (k : Nat) (results : List Ranked) :
    best k results = (rank results).take k := by
  have h := (Best.start k).foldl results
  rw [List.append_nil] at h
  exact h.reverse_eq

/-! ## Ranking and its beginnings -/

theorem rankUpTo_congr (memory : Memory) {results others : List Ranked} (h : others.Perm results) :
    ∀ k, rankUpTo memory k others = rankUpTo memory k results := by
  have hrank : rank others = rank results := inOrder_congr h
  intro k
  cases k with
  | none => exact congrArg Except.ok hrank
  | some k => rw [rankUpTo, rankUpTo, topK, topK, best_eq_take, best_eq_take, hrank]

/-- The best results that a query is answered with are the beginning of all of them. -/
theorem Index.retrieveUpTo_some (index : Index) {memory : Memory} (settings : Settings) {k : Nat}
    (hroom : memory.HasRoom k) (query : String) :
    index.retrieveUpTo memory settings (some k) query =
      .ok ((index.retrieve settings query).take k) := by
  rw [retrieveUpTo, rankUpTo, topK, if_pos hroom, best_eq_take, retrieve]

/-- Results have one ranking, in whatever order they come, and the best `k` of them are its
beginning, where there is room for so many. So ranked retrieval answers the same however the
matching documents are listed. -/
theorem topK_eq_take_rank (memory : Memory) (results others : List Ranked)
    (h : others.Perm results) :
    (∀ ranked, IsRanking results ranked ↔ ranked = rank results) ∧
    rank others = rank results ∧
    (∀ k, (memory.HasRoom k →
        topK memory k others = .ok ((rank results).take (min k results.length))) ∧
      (¬memory.HasRoom k → topK memory k others = .error ⟨queueSize k⟩)) ∧
    ∀ (index : Index) (settings : Settings) (query : String),
      (∀ k, memory.HasRoom k → index.retrieveUpTo memory settings (some k) query =
        .ok ((index.retrieve settings query).take k)) ∧
      (results.Perm (index.score settings query) →
        rank others = index.retrieve settings query ∧
        ∀ k, topK memory k others = index.retrieveUpTo memory settings (some k) query) := by
  have hrank : rank others = rank results := inOrder_congr h
  refine ⟨fun _ => isRanking_iff, hrank, fun k => ⟨fun hroom => ?_, fun hroom => if_neg hroom⟩, ?_⟩
  · rw [topK, if_pos hroom, best_eq_take, hrank, ← length_rank, List.take_eq_take_min]
  · intro index settings query
    refine ⟨fun k hroom => index.retrieveUpTo_some settings hroom query, fun hlisted => ?_⟩
    have hretrieve := rankUpTo_congr memory (h.trans hlisted)
    exact ⟨inOrder_congr (h.trans hlisted), fun k => hretrieve (some k)⟩

/-- A tie, a repeat, both zeros, and NaNs of both signs. -/
def oddResults : List Ranked :=
  [⟨7, .ofFloat 0.5⟩, ⟨4, .ofFloat (-0.0)⟩, ⟨2, ⟨0xfff8000000000001⟩⟩, ⟨3, .ofFloat 0.5⟩,
    ⟨1, .ofFloat 0.0⟩, ⟨9, ⟨0x7ff0000000000001⟩⟩, ⟨3, .ofFloat 0.5⟩]

/-- The same, listed from behind. -/
theorem topK_eq_take_rank_odd : oddResults.reverse.Perm oddResults ∧
    Memory.HasRoom ⟨96⟩ 5 ∧ ¬Memory.HasRoom ⟨96⟩ 6 ∧
    (rank oddResults.reverse = rank oddResults ∧
      topK ⟨96⟩ 5 oddResults.reverse = .ok ((rank oddResults).take (min 5 oddResults.length)) ∧
      topK ⟨96⟩ 6 oddResults.reverse = .error ⟨112⟩) ∧
    topK ⟨96⟩ 5 oddResults = .ok [⟨9, ⟨0x7ff0000000000001⟩⟩, ⟨3, .ofFloat 0.5⟩, ⟨3, .ofFloat 0.5⟩,
      ⟨7, .ofFloat 0.5⟩, ⟨1, .ofFloat 0.0⟩] := by
  have hperm := oddResults.reverse_perm
  have hroom : Memory.HasRoom ⟨96⟩ 5 := by decide
  have hfull : ¬Memory.HasRoom ⟨96⟩ 6 := by decide
  obtain ⟨-, hrank, htop, -⟩ := topK_eq_take_rank ⟨96⟩ oddResults oddResults.reverse hperm
  refine ⟨hperm, hroom, hfull, ⟨hrank, (htop 5).1 hroom, (htop 6).2 hfull⟩, ?_⟩
  rw [topK, if_pos hroom]
  exact congrArg Except.ok (by decide +kernel)

end Concordance
