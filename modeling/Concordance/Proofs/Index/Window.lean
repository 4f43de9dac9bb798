import Concordance.Index.Window
import Concordance.Proofs.Index.Posting
import Concordance.Proofs.Runs
/-!
Which occurrences are near each other. A window that moves along the left-hand positions has inside
exactly the positions that are at most `k` places away (`Window.Standing.inside_moveTo`), although
the reach is cut off at the largest position and the window never looks back; so it finds all pairs
of near positions, as two nested loops would (`nearPairs_eq`). Two lists of postings meet in exactly
their common documents (`mem_joinDocs`). Hence the left-hand occurrences that are kept are those
with a partner (`listed_nearPostings`), and they form sorted postings again
(`OrderedPostings.near`), of documents of the left-hand list (`docsOf_nearPostings_sublist`).
-/
namespace Concordance

/-! ## Near positions -/

/-- At most `k` places apart. -/
def Near (k : UInt32) (a b : Position) : Prop :=
  a.toNat ≤ b.toNat + k.toNat ∧ b.toNat ≤ a.toNat + k.toNat
deriving Decidable

theorem toNat_reach (p : Position) (k : UInt32) :
    (reach p k).toNat = min (p.toNat + k.toNat) (UInt32.size - 1) := by
  rw [reach, UInt32.toNat_ofNat']
  exact Nat.mod_eq_of_lt (by simp only [UInt32.size]; omega)

/-- That the reach is cut off at the largest position makes no difference to what it reaches. -/
theorem le_reach_iff {a b : Position} {k : UInt32} :
    b ≤ reach a k ↔ b.toNat ≤ a.toNat + k.toNat := by
  have hb := b.toNat_lt_size
  rw [UInt32.le_iff_toNat_le, toNat_reach]
  omega

theorem reach_lt_iff {a b : Position} {k : UInt32} :
    reach b k < a ↔ ¬a.toNat ≤ b.toNat + k.toNat := by
  rw [← le_reach_iff, UInt32.not_le]

theorem near_iff {a b : Position} {k : UInt32} : Near k a b ↔ ¬reach b k < a ∧ b ≤ reach a k := by
  rw [Near, reach_lt_iff, Decidable.not_not, le_reach_iff]

theorem le_reach_of_lt {a a' b : Position} {k : UInt32} (hlt : a < a') (h : b ≤ reach a k) :
    b ≤ reach a' k := by
  rw [le_reach_iff] at h ⊢
  rw [UInt32.lt_iff_toNat_lt] at hlt
  omega

/-- Where all elements behind one that fails do so too, dropping is filtering. -/
theorem dropWhile_eq_filter {α : Type} {p : α → Bool} : ∀ {xs : List α},
    xs.Pairwise (fun x y => p y → p x) → xs.dropWhile p = xs.filter (!p ·)
  | [], _ => rfl
  | x :: xs, h => by
    obtain ⟨hx, hxs⟩ := List.pairwise_cons.mp h
    cases hp : p x with
    | true =>
      rw [List.dropWhile_cons_of_pos hp, List.filter_cons_of_neg (by simp [hp]),
        dropWhile_eq_filter hxs]
    | false =>
      have hall : xs.filter (!p ·) = xs := by
        rw [List.filter_eq_self]
        intro y hy
        cases hpy : p y with
        | false => rfl
        | true => simp [hx y hy hpy] at hp
      rw [List.dropWhile_cons_of_neg (by simp [hp]), List.filter_cons_of_pos (by simp [hp]), hall]

theorem dropWhile_reach_eq (k : UInt32) (a : Position) {right : List Position}
    (hright : Ascending right) : right.dropWhile (reach · k < a) =
      right.filter fun b => !decide (reach b k < a) := by
  apply dropWhile_eq_filter
  refine hright.imp ?_
  intro x y hxy
  have hlt := UInt32.lt_iff_toNat_lt.mp hxy
  simp only [decide_eq_true_eq, reach_lt_iff]
  omega

/-- The positions that one reaches stand at the front, too. -/
theorem dropWhile_le_reach_eq (k : UInt32) (a : Position) {ahead : List Position}
    (hahead : Ascending ahead) :
    ahead.dropWhile (· ≤ reach a k) = ahead.filter fun b => !decide (b ≤ reach a k) := by
  apply dropWhile_eq_filter
  refine hahead.imp ?_
  intro x y hxy
  have hlt := UInt32.lt_iff_toNat_lt.mp hxy
  simp only [decide_eq_true_eq, le_reach_iff]
  omega

/-- The right-hand position may stand beside the left-hand one. -/
def Side.Pairs (side : Side) (k : UInt32) (a b : Position) : Prop :=
  Near k a b ∧ side.allows a b
deriving Decidable

theorem filter_near_allows (side : Side) (k : UInt32) (a : Position) (right : List Position) :
    (right.filter (Near k a ·)).filter (side.allows a) = right.filter (side.Pairs k a ·) := by
  rw [List.filter_filter]
  refine List.filter_congr ?_
  intro b _
  rw [Bool.eq_iff_iff]
  simp only [Bool.and_eq_true, decide_eq_true_eq]
  exact and_comm

/-! ## The window -/

namespace Window

/-- Where a window stands among the right-hand positions while the left-hand positions `left` are
still to come: what it has left behind reaches none of them, and what is inside is reached by each
of them. -/
structure Standing (k : UInt32) (left right : List Position) (w : Window) : Prop where
  split : ∃ behind, right = behind ++ (w.inside ++ w.ahead) ∧
    ∀ a ∈ left, ∀ b ∈ behind, reach b k < a
  reached : ∀ a ∈ left, ∀ b ∈ w.inside, b ≤ reach a k

namespace Standing
variable {k : UInt32} {a : Position} {left right : List Position} {w : Window}

theorem start (k : UInt32) (left right : List Position) : Standing k left right ⟨[], right⟩ where
  split := ⟨[], rfl, fun _ _ _ h => absurd h List.not_mem_nil⟩
  reached _ _ _ h := absurd h List.not_mem_nil

/-- What the first left-hand position reaches, the later ones reach, too. -/
theorem takeIn (h : w.Standing k (a :: left) right) (hleft : Ascending (a :: left)) :
    (w.takeIn k a).Standing k (a :: left) right where
  split := by
    have hsame : (w.takeIn k a).inside ++ (w.takeIn k a).ahead = w.inside ++ w.ahead := by
      rw [Window.takeIn, List.append_assoc, List.takeWhile_append_dropWhile]
    rw [hsame]
    exact h.split
  reached a' ha' b hb := by
    rcases List.mem_append.mp hb with hb | hb
    · exact h.reached a' ha' b hb
    · have htaken := List.all_eq_true.mp List.all_takeWhile b hb
      have hle : b ≤ reach a k := of_decide_eq_true htaken
      rcases List.mem_cons.mp ha' with rfl | ha'
      · exact hle
      · exact le_reach_of_lt ((List.pairwise_cons.mp hleft).1 a' ha') hle

/-- What does not reach the first left-hand position reaches none of the later ones. -/
theorem letGo (h : w.Standing k (a :: left) right) (hleft : Ascending (a :: left)) :
    (w.letGo k a).Standing k left right where
  split := by
    obtain ⟨behind, hsplit, hbehind⟩ := h.split
    refine ⟨behind ++ w.inside.takeWhile (reach · k < a), ?_, ?_⟩
    · rw [Window.letGo, List.append_assoc, ← List.append_assoc (List.takeWhile _ _),
        List.takeWhile_append_dropWhile, hsplit]
    · intro a' ha' b hb
      rcases List.mem_append.mp hb with hb | hb
      · exact hbehind a' (List.mem_cons_of_mem a ha') b hb
      · have hpassed := List.all_eq_true.mp List.all_takeWhile b hb
        exact UInt32.lt_trans (of_decide_eq_true hpassed) ((List.pairwise_cons.mp hleft).1 a' ha')
  reached a' ha' b hb :=
    h.reached a' (List.mem_cons_of_mem a ha') b ((List.dropWhile_sublist _).subset hb)

theorem moveTo (h : w.Standing k (a :: left) right) (hleft : Ascending (a :: left)) :
    (w.moveTo k a).Standing k left right :=
  (h.takeIn hleft).letGo hleft

theorem inside_ascending (h : w.Standing k left right) (hright : Ascending right) :
    Ascending w.inside := by
  obtain ⟨behind, rfl, _⟩ := h.split
  exact hright.sublist ((List.sublist_append_left _ _).trans (List.sublist_append_right _ _))

theorem ahead_ascending (h : w.Standing k left right) (hright : Ascending right) :
    Ascending w.ahead := by
  obtain ⟨behind, rfl, _⟩ := h.split
  exact hright.sublist ((List.sublist_append_right _ _).trans (List.sublist_append_right _ _))

theorem inside_letGo (h : w.Standing k (a :: left) right) (hright : Ascending right)
    (hahead : ∀ b ∈ w.ahead, ¬b ≤ reach a k) :
    (w.letGo k a).inside = right.filter (Near k a ·) := by
  obtain ⟨behind, hsplit, hbehind⟩ := h.split
  have hfar : behind.filter (Near k a ·) = [] := by
    rw [List.filter_eq_nil_iff]
    intro b hb hnear
    exact (near_iff.mp (of_decide_eq_true hnear)).1 (hbehind a List.mem_cons_self b hb)
  have hbeyond : w.ahead.filter (Near k a ·) = [] := by
    rw [List.filter_eq_nil_iff]
    intro b hb hnear
    exact hahead b hb (near_iff.mp (of_decide_eq_true hnear)).2
  rw [hsplit, List.filter_append, List.filter_append, hfar, hbeyond, List.nil_append,
    List.append_nil, Window.letGo, dropWhile_reach_eq k a (h.inside_ascending hright)]
  refine List.filter_congr ?_
  intro b hb
  have hle := h.reached a List.mem_cons_self b hb
  rw [Bool.eq_iff_iff, Bool.not_eq_true', decide_eq_false_iff_not, decide_eq_true_eq, near_iff]
  exact (and_iff_left hle).symm

/-- The positions inside are those near the left-hand position to which the window has moved. -/
theorem inside_moveTo (h : w.Standing k (a :: left) right) (hleft : Ascending (a :: left))
    (hright : Ascending right) : (w.moveTo k a).inside = right.filter (Near k a ·) := by
  apply (h.takeIn hleft).inside_letGo hright
  intro b hb
  rw [Window.takeIn, dropWhile_le_reach_eq k a (h.ahead_ascending hright)] at hb
  simpa only [Bool.not_eq_true', decide_eq_false_iff_not] using (List.mem_filter.mp hb).2

/-- From where it stands, the window finds for each left-hand position all its partners. -/
theorem pairs_eq (side : Side) (h : w.Standing k left right) (hleft : Ascending left)
    (hright : Ascending right) :
    w.pairs side k left = left.flatMap fun a => (right.filter (side.Pairs k a ·)).map (a, ·) := by
  induction left generalizing w with
  | nil => rfl
  | cons a left ih =>
    have hnext := ih (h.moveTo hleft) (List.pairwise_cons.mp hleft).2
    rw [pairs, hnext, h.inside_moveTo hleft hright, filter_near_allows, List.flatMap_cons]

end Standing
end Window

section
variable {side : Side} {k : UInt32} {left right : List Position}

theorem nearPairs_eq (side : Side) (k : UInt32) (hleft : Ascending left)
    (hright : Ascending right) : nearPairs side k left right =
      left.flatMap fun a => (right.filter (side.Pairs k a ·)).map (a, ·) :=
  (Window.Standing.start k left right).pairs_eq side hleft hright

theorem mem_nearPairs (hleft : Ascending left) (hright : Ascending right) {a b : Position} :
    (a, b) ∈ nearPairs side k left right ↔ a ∈ left ∧ b ∈ right ∧ side.Pairs k a b := by
  rw [nearPairs_eq side k hleft hright, List.mem_flatMap]
  constructor
  · rintro ⟨a', ha, hm⟩
    obtain ⟨b', hb, he⟩ := List.mem_map.mp hm
    obtain ⟨rfl, rfl⟩ := Prod.mk.inj he
    obtain ⟨hb, hpairs⟩ := List.mem_filter.mp hb
    exact ⟨ha, hb, of_decide_eq_true hpairs⟩
  · rintro ⟨ha, hb, hpairs⟩
    exact ⟨a, ha, List.mem_map_of_mem (List.mem_filter.mpr ⟨hb, decide_eq_true hpairs⟩)⟩

theorem nearPairs_pairwise (side : Side) (k : UInt32) (hleft : Ascending left)
    (hright : Ascending right) : (nearPairs side k left right).Pairwise fun p q =>
      p.1 < q.1 ∨ p.1 = q.1 ∧ p.2 < q.2 := by
  rw [nearPairs_eq side k hleft hright, List.pairwise_flatMap]
  constructor
  · intro a _
    rw [List.pairwise_map]
    exact (hright.filter _).imp fun hlt => .inr ⟨rfl, hlt⟩
  · apply hleft.imp
    intro a a' hlt p hp q hq
    obtain ⟨b, _, rfl⟩ := List.mem_map.mp hp
    obtain ⟨b', _, rfl⟩ := List.mem_map.mp hq
    exact .inl hlt

end

/-! ## Common documents -/

/-- Two lists in ascending order of documents meet in the postings of their common documents. -/
theorem mem_joinDocs {left right : List Posting} (hleft : Ascending (docsOf left))
    (hright : Ascending (docsOf right)) {l r : Posting} :
    (l, r) ∈ joinDocs left right ↔ l ∈ left ∧ r ∈ right ∧ l.doc = r.doc := by
  fun_induction joinDocs left right with
  | case1 l' ls r' rs hlt ih =>
    -- the smaller document is passed over, as the other list has only larger ones left
    have hnot := hright.not_mem_of_lt hlt
    rw [ih (List.pairwise_cons.mp hleft).2 hright]
    refine and_congr_left ?_
    intro ⟨hr, hd⟩
    rw [List.mem_cons, or_iff_right]
    rintro rfl
    exact hnot (hd ▸ List.mem_map_of_mem hr)
  | case2 l' ls r' rs _ hlt ih =>
    have hnot := hleft.not_mem_of_lt hlt
    rw [ih hleft (List.pairwise_cons.mp hright).2]
    refine and_congr_right ?_
    intro hl
    refine and_congr_left ?_
    intro hd
    rw [List.mem_cons, or_iff_right]
    rintro rfl
    exact hnot (hd ▸ List.mem_map_of_mem hl)
  | case3 l' ls r' rs hlt hgt ih =>
    have hsame : l'.doc = r'.doc :=
      UInt32.le_antisymm (UInt32.not_lt.mp hgt) (UInt32.not_lt.mp hlt)
    have hl' : l'.doc ∉ docsOf ls := hleft.head_not_mem
    have hr' : r'.doc ∉ docsOf rs := hright.head_not_mem
    rw [List.mem_cons, ih (List.pairwise_cons.mp hleft).2 (List.pairwise_cons.mp hright).2,
      List.mem_cons, List.mem_cons, Prod.mk.injEq]
    constructor
    · rintro (⟨rfl, rfl⟩ | ⟨hl, hr, hd⟩)
      · exact ⟨.inl rfl, .inl rfl, hsame⟩
      · exact ⟨.inr hl, .inr hr, hd⟩
    · rintro ⟨rfl | hl, rfl | hr, hd⟩
      · exact .inl ⟨rfl, rfl⟩
      · exact absurd (hsame ▸ hd ▸ List.mem_map_of_mem hr) hr'
      · exact absurd (hsame ▸ hd ▸ List.mem_map_of_mem hl) hl'
      · exact .inr ⟨hl, hr, hd⟩
  | case4 => simp
  | case5 => simp

theorem joinDocs_sublist (left right : List Posting) :
    ((joinDocs left right).map (·.1)).Sublist left := by
  fun_induction joinDocs left right with
  | case1 l ls r rs _ ih => exact ih.cons l
  | case2 l ls r rs _ _ ih => exact ih
  | case3 l ls r rs _ _ ih => exact ih.cons_cons l
  | case4 => exact List.Sublist.refl _
  | case5 => exact List.nil_sublist _

theorem docsOf_joinDocs_sublist (left right : List Posting) :
    (docsOf ((joinDocs left right).map (·.1))).Sublist (docsOf left) :=
  (joinDocs_sublist left right).map _

/-- Where `pick` keeps the document of its pair or drops the pair, the documents kept are a
sublist. -/
theorem docsOf_filterMap_sublist {pick : Posting × Posting → Option Posting}
    (hpick : ∀ pair p, pick pair = some p → p.doc = pair.1.doc) :
    ∀ pairs : List (Posting × Posting),
      (docsOf (pairs.filterMap pick)).Sublist (docsOf (pairs.map (·.1)))
  | [] => List.Sublist.refl _
  | pair :: pairs => by
    have ih := docsOf_filterMap_sublist hpick pairs
    cases hp : pick pair with
    | none =>
      rw [List.filterMap_cons_none hp]
      exact ih.cons _
    | some p =>
      rw [List.filterMap_cons_some hp]
      have hd := hpick pair p hp
      simp only [docsOf, List.map_cons, hd] at ih ⊢
      exact ih.cons_cons _

theorem docsOf_nearPostings_sublist (side : Side) (k : UInt32) (left right : List Posting) :
    (docsOf (nearPostings side k left right)).Sublist (docsOf left) := by
  refine (docsOf_filterMap_sublist ?_ _).trans (docsOf_joinDocs_sublist left right)
  rintro ⟨l, r⟩ p hp
  simp only at hp
  split at hp
  · cases hp
  · cases hp
    rfl

/-! ## Near occurrences -/

/-- The left-hand positions beside which some right-hand position may stand. -/
def partnered (side : Side) (k : UInt32) (left right : List Position) : List Position :=
  left.filter fun a => right.any (side.Pairs k a ·)

section
variable {side : Side} {k : UInt32}

theorem mem_partnered {left right : List Position} {a : Position} :
    a ∈ partnered side k left right ↔ a ∈ left ∧ ∃ b ∈ right, side.Pairs k a b := by
  simp [partnered]

/-- The pairs of one position stand together, so that it is found once. -/
theorem keys_nearPairs (side : Side) (k : UInt32) {left right : List Position}
    (hleft : Ascending left) (hright : Ascending right) :
    (runs (nearPairs side k left right)).map (·.1) = partnered side k left right := by
  refine Ascending.ext ?_ (hleft.filter _) fun a => ?_
  · exact runs_pairwise (fun _ _ _ => UInt32.lt_trans) (nearPairs_pairwise side k hleft hright)
  · rw [mem_keys_runs, mem_partnered]
    simp only [mem_nearPairs hleft hright, exists_and_left]

variable {left right : List Posting}

theorem pick_eq_some_iff {l r posting : Posting} (hl : Ascending l.positions)
    (hr : Ascending r.positions) :
    (let found := (runs (nearPairs side k l.positions r.positions)).map (·.1)
     if found.isEmpty then none else some (Posting.mk l.doc found)) = some posting ↔
      partnered side k l.positions r.positions ≠ [] ∧
        posting = ⟨l.doc, partnered side k l.positions r.positions⟩ := by
  simp only [keys_nearPairs side k hl hr, List.isEmpty_iff]
  split
  · next h => simp [h]
  · next h => simp [h, eq_comm]

theorem mem_nearPostings (hleft : OrderedPostings left) (hright : OrderedPostings right)
    {posting : Posting} : posting ∈ nearPostings side k left right ↔
      ∃ l ∈ left, ∃ r ∈ right, l.doc = r.doc ∧ partnered side k l.positions r.positions ≠ [] ∧
        posting = ⟨l.doc, partnered side k l.positions r.positions⟩ := by
  rw [nearPostings, List.mem_filterMap]
  constructor
  · rintro ⟨⟨l, r⟩, hm, hpick⟩
    obtain ⟨hl, hr, hd⟩ := (mem_joinDocs hleft.docs_ascending hright.docs_ascending).mp hm
    exact ⟨l, hl, r, hr, hd, (pick_eq_some_iff (hleft.positions_ascending l hl)
      (hright.positions_ascending r hr)).mp hpick⟩
  · rintro ⟨l, hl, r, hr, hd, hkept⟩
    exact ⟨(l, r), (mem_joinDocs hleft.docs_ascending hright.docs_ascending).mpr ⟨hl, hr, hd⟩,
      (pick_eq_some_iff (hleft.positions_ascending l hl)
        (hright.positions_ascending r hr)).mpr hkept⟩

theorem listed_nearPostings (hleft : OrderedPostings left) (hright : OrderedPostings right)
    {d : DocId} {a : Position} : Listed (nearPostings side k left right) d a ↔
      Listed left d a ∧ ∃ b, Listed right d b ∧ side.Pairs k a b := by
  constructor
  · rintro ⟨posting, hm, rfl, ha⟩
    obtain ⟨l, hl, r, hr, hd, _, rfl⟩ := (mem_nearPostings hleft hright).mp hm
    obtain ⟨ha, b, hb, hpair⟩ := mem_partnered.mp ha
    exact ⟨⟨l, hl, rfl, ha⟩, b, ⟨r, hr, hd.symm, hb⟩, hpair⟩
  · rintro ⟨⟨l, hl, rfl, ha⟩, b, ⟨r, hr, hd, hb⟩, hpair⟩
    have hkept := mem_partnered.mpr ⟨ha, b, hb, hpair⟩
    exact ⟨_, (mem_nearPostings hleft hright).mpr
      ⟨l, hl, r, hr, hd.symm, List.ne_nil_of_mem hkept, rfl⟩, rfl, hkept⟩

/-- What is kept can be the operand of a further merge. -/
theorem OrderedPostings.near (hleft : OrderedPostings left) (hright : OrderedPostings right) :
    SortedPostings (nearPostings side k left right) where
  docs_ascending := hleft.docs_ascending.sublist (docsOf_nearPostings_sublist side k left right)
  positions_ascending posting hm := by
    obtain ⟨l, hl, r, _, _, _, rfl⟩ := (mem_nearPostings hleft hright).mp hm
    exact (hleft.positions_ascending l hl).sublist List.filter_sublist
  positions_ne_nil posting hm := by
    obtain ⟨l, _, r, _, _, hne, rfl⟩ := (mem_nearPostings hleft hright).mp hm
    exact hne

end
end Concordance
