import Concordance.Proofs.Index.Window
/-!
The pairs of near occurrences. They are exactly the pairs of a left-hand and a right-hand occurrence
that stand near each other in one document (`mem_nearMatches`), and they come in the order of
documents, left-hand positions and right-hand positions (`nearMatches_pairwise`), so that none
comes twice (`nearMatches_exact`). The postings that a merge keeps are made of the left-hand sides
of these pairs, each taken once, and they can be the operand of a further merge
(`nearPostings_exact`).
-/
namespace Concordance
variable {side : Side} {k : UInt32} {left right : List Posting}

/-- By document, then by left-hand position, then by right-hand position. -/
def Match.Before (m n : Match) : Prop :=
  m.doc < n.doc ∨ m.doc = n.doc ∧ (m.left < n.left ∨ m.left = n.left ∧ m.right < n.right)
deriving Decidable

theorem Match.Before.ne {m n : Match} (h : m.Before n) : m ≠ n := by
  rintro rfl
  rcases h with hdoc | ⟨_, hleft | ⟨_, hright⟩⟩
  · exact UInt32.lt_irrefl _ hdoc
  · exact UInt32.lt_irrefl _ hleft
  · exact UInt32.lt_irrefl _ hright

theorem near_iff_natAbs {a b : Position} :
    Near k a b ↔ ((a.toNat : Int) - b.toNat).natAbs ≤ k.toNat := by
  unfold Near
  omega

theorem Side.pairs_iff {a b : Position} : side.Pairs k a b ↔
    ((a.toNat : Int) - b.toNat).natAbs ≤ k.toNat ∧ (side = .following → a < b) := by
  rw [Pairs, near_iff_natAbs]
  cases side with
  | following => simp only [allows, decide_eq_true_eq, forall_const]
  | either => simp only [allows, reduceCtorEq, false_implies]

/-! ## All pairs -/

theorem mem_nearMatches (hleft : OrderedPostings left) (hright : OrderedPostings right)
    {d : DocId} {a b : Position} : ⟨d, a, b⟩ ∈ nearMatches side k left right ↔
      Listed left d a ∧ Listed right d b ∧ side.Pairs k a b := by
  have hpairs : ∀ {l r}, l ∈ left → r ∈ right → ((a, b) ∈ nearPairs side k l.positions r.positions ↔
      a ∈ l.positions ∧ b ∈ r.positions ∧ side.Pairs k a b) := fun hl hr =>
    mem_nearPairs (hleft.positions_ascending _ hl) (hright.positions_ascending _ hr)
  rw [nearMatches, List.mem_flatMap]
  constructor
  · rintro ⟨⟨l, r⟩, hjoin, hm⟩
    obtain ⟨hl, hr, hd⟩ := (mem_joinDocs hleft.docs_ascending hright.docs_ascending).mp hjoin
    obtain ⟨⟨a', b'⟩, hab, he⟩ := List.mem_map.mp hm
    obtain ⟨rfl, rfl, rfl⟩ := Match.mk.inj he
    obtain ⟨ha, hb, hpair⟩ := (hpairs hl hr).mp hab
    exact ⟨⟨l, hl, rfl, ha⟩, ⟨r, hr, hd.symm, hb⟩, hpair⟩
  · rintro ⟨⟨l, hl, rfl, ha⟩, ⟨r, hr, hd, hb⟩, hpair⟩
    have hjoin := (mem_joinDocs hleft.docs_ascending hright.docs_ascending).mpr ⟨hl, hr, hd.symm⟩
    exact ⟨(l, r), hjoin, List.mem_map_of_mem ((hpairs hl hr).mpr ⟨ha, hb, hpair⟩)⟩

theorem nearMatches_pairwise (side : Side) (k : UInt32) (hleft : OrderedPostings left)
    (hright : OrderedPostings right) : (nearMatches side k left right).Pairwise Match.Before := by
  rw [nearMatches, List.pairwise_flatMap]
  constructor
  · -- in one document, as the pairs of positions stand
    rintro ⟨l, r⟩ hjoin
    obtain ⟨hl, hr, _⟩ := (mem_joinDocs hleft.docs_ascending hright.docs_ascending).mp hjoin
    have hpairs := nearPairs_pairwise side k (hleft.positions_ascending l hl)
      (hright.positions_ascending r hr)
    rw [List.pairwise_map]
    exact hpairs.imp fun hbefore => .inr ⟨rfl, hbefore⟩
  · -- between documents, as these do
    have hdocs := hleft.docs_ascending.sublist (docsOf_joinDocs_sublist left right)
    apply (List.pairwise_map.mp (List.pairwise_map.mp hdocs)).imp
    intro pair next hlt m hm n hn
    obtain ⟨_, _, rfl⟩ := List.mem_map.mp hm
    obtain ⟨_, _, rfl⟩ := List.mem_map.mp hn
    exact .inl hlt

/-- Of two ordered lists of postings, the pairs of near occurrences are exactly those of a left-hand
and a right-hand position in one document that are at most `k` places apart, the right-hand one
behind the other where it has to follow. Each comes once, and they come in order. -/
theorem nearMatches_exact (side : Side) (k : UInt32) (hleft : OrderedPostings left)
    (hright : OrderedPostings right) :
    (∀ d a b, ⟨d, a, b⟩ ∈ nearMatches side k left right ↔
      Listed left d a ∧ Listed right d b ∧ ((a.toNat : Int) - b.toNat).natAbs ≤ k.toNat ∧
        (side = .following → a < b)) ∧
    (nearMatches side k left right).Nodup ∧
    (nearMatches side k left right).Pairwise Match.Before := by
  have hordered := nearMatches_pairwise side k hleft hright
  refine ⟨fun d a b => ?_, hordered.imp Match.Before.ne, hordered⟩
  rw [mem_nearMatches hleft hright, Side.pairs_iff]

/-- Positions up to the last one there is, and a document without any. -/
def lastLeft : List Posting :=
  [⟨3, [2, 10]⟩, ⟨4, []⟩, ⟨5, [4294967290, 4294967294, 4294967295]⟩]

def lastRight : List Posting :=
  [⟨3, [0, 4, 5, 13]⟩, ⟨4, [7]⟩, ⟨5, [4294967288, 4294967292, 4294967295]⟩, ⟨9, [1]⟩]

theorem nearMatches_exact_last : OrderedPostings lastLeft ∧ OrderedPostings lastRight ∧
    ⟨5, 4294967295, 4294967292⟩ ∈ nearMatches .either 3 lastLeft lastRight ∧
    ⟨5, 4294967295, 4294967292⟩ ∉ nearMatches .following 3 lastLeft lastRight ∧
    ⟨5, 4294967294, 4294967288⟩ ∉ nearMatches .either 3 lastLeft lastRight ∧
    (nearMatches .either 4294967295 lastLeft lastRight).Nodup := by
  have hleft : OrderedPostings lastLeft := ⟨by decide, by decide⟩
  have hright : OrderedPostings lastRight := ⟨by decide, by decide⟩
  obtain ⟨hmem, -, -⟩ := nearMatches_exact .either 3 hleft hright
  obtain ⟨hfollowing, -, -⟩ := nearMatches_exact .following 3 hleft hright
  obtain ⟨-, hnodup, -⟩ := nearMatches_exact .either 4294967295 hleft hright
  refine ⟨hleft, hright, (hmem _ _ _).mpr (by decide), fun h => ?_, fun h => ?_, hnodup⟩
  · exact absurd ((hfollowing _ _ _).mp h) (by decide)
  · exact absurd ((hmem _ _ _).mp h) (by decide)

/-! ## The postings kept -/

theorem listed_nearPostings_iff (hleft : OrderedPostings left) (hright : OrderedPostings right)
    {d : DocId} {a : Position} : Listed (nearPostings side k left right) d a ↔
      ∃ b, ⟨d, a, b⟩ ∈ nearMatches side k left right := by
  simp only [listed_nearPostings hleft hright, mem_nearMatches hleft hright, exists_and_left]

/-- What a merge of two ordered lists of postings keeps is ordered again, so that a further merge
can take it, and no posting of it is empty. It has a posting for each document with a pair of near
occurrences, with the left-hand positions of these pairs. -/
theorem nearPostings_exact (side : Side) (k : UInt32) (hleft : OrderedPostings left)
    (hright : OrderedPostings right) :
    OrderedPostings (nearPostings side k left right) ∧
    (∀ posting ∈ nearPostings side k left right, posting.positions ≠ [] ∧
      ∀ a, a ∈ posting.positions ↔ ∃ b, ⟨posting.doc, a, b⟩ ∈ nearMatches side k left right) ∧
    ∀ d, d ∈ docsOf (nearPostings side k left right) ↔
      ∃ a b, ⟨d, a, b⟩ ∈ nearMatches side k left right := by
  have hsorted : SortedPostings (nearPostings side k left right) := hleft.near hright
  refine ⟨hsorted.toOrderedPostings, fun posting hm => ?_, fun d => ?_⟩
  · refine ⟨hsorted.positions_ne_nil posting hm, fun a => ?_⟩
    rw [← hsorted.listed_iff hm, listed_nearPostings_iff hleft hright]
  · simp only [hsorted.mem_docsOf, listed_nearPostings_iff hleft hright]

theorem nearPostings_exact_last : OrderedPostings lastLeft ∧ OrderedPostings lastRight ∧
    OrderedPostings (nearPostings .either 3 lastLeft lastRight) ∧
    (∃ posting ∈ nearPostings .either 3 lastLeft lastRight, posting.doc = 5 ∧
      ∀ a, a ∈ posting.positions ↔ ∃ b, ⟨5, a, b⟩ ∈ nearMatches .either 3 lastLeft lastRight) ∧
    4 ∉ docsOf (nearPostings .either 3 lastLeft lastRight) := by
  have hleft : OrderedPostings lastLeft := ⟨by decide, by decide⟩
  have hright : OrderedPostings lastRight := ⟨by decide, by decide⟩
  obtain ⟨hordered, hpositions, hdocs⟩ := nearPostings_exact .either 3 hleft hright
  have hpair : ⟨5, 4294967294, 4294967292⟩ ∈ nearMatches .either 3 lastLeft lastRight :=
    (mem_nearMatches hleft hright).mpr (by decide)
  have hnone : ∀ posting ∈ lastLeft, posting.doc = 4 → posting.positions = [] := by decide
  refine ⟨hleft, hright, hordered, ?_, fun h => ?_⟩
  · obtain ⟨posting, hm, hd⟩ := List.mem_map.mp ((hdocs 5).mpr ⟨_, _, hpair⟩)
    exact ⟨posting, hm, hd, hd ▸ (hpositions posting hm).2⟩
  · obtain ⟨a, b, hm⟩ := (hdocs 4).mp h
    obtain ⟨⟨l, hl, hd, ha⟩, -, -⟩ := (mem_nearMatches hleft hright).mp hm
    rw [hnone l hl hd] at ha
    exact List.not_mem_nil ha

end Concordance
