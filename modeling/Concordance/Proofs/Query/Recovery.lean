import Concordance.Proofs.Query.Acceptance
import Concordance.Proofs.Query.Nesting
/-!
Queries whose parentheses do not match. The parser passes over a stray `)`, and a `(` that nothing
closes reaches to the end of the query. What is proved:

1. `balanced_repaired`: without its stray `)`, and with a `)` at its end for each `(` that nothing
   closes, a query has matching parentheses (`repaired`).
2. `ofTokens_repaired`: the parser reads the two in the same way, whether it accepts them or not,
   unless a stray `)` stands where a `/k` wants its word.

`repaired` speaks of positions and of the matching of the whole query. `closedFrom` does the same
from left to right and keeps only how many parentheses are open (`repaired_eq`). The machine's stack
keeps that number too (`Step.depth_eq`), so that both are read side by side, token by token
(`reads_closedFrom`). At the end of the query each missing `)` closes one frame, and to close them
all is what the end of a query does (`reads_replicate`).
-/
namespace Concordance.Query

/-- Whether matching finds a `)` for a `(` at position `j`, in tokens that begin at position `i`. -/
def IsClosed (i : Nat) (opened : List Nat) (ts : List Token) (j : Nat) : Prop :=
  j ∈ (matchingFrom i opened ts).map (·.1)

instance (i : Nat) (opened : List Nat) (ts : List Token) : DecidablePred (IsClosed i opened ts) :=
  fun j => inferInstanceAs (Decidable (j ∈ (matchingFrom i opened ts).map (·.1)))

/-- The tokens without the stray `)`, and then a `)` for each `(` that nothing closes. -/
def repaired (ts : List Token) : List Token :=
  (ts.zipIdx.filter fun p => ¬Stray ts p.2).map (·.1) ++
    List.replicate (ts.zipIdx.countP fun p => p.1 = .leftParen ∧ ¬IsClosed 0 [] ts p.2) .rightParen

/-! ## Counting the open parentheses -/

theorem length_openedAfter (i : Nat) (opened : List Nat) (token : Token) :
    (openedAfter i opened token).length = token.nest opened.length := by
  cases token <;> simp [openedAfter, Token.nest]

theorem closes_append_iff {token : Token} {after : List Token} : ∀ (before : List Token) (i : Nat)
    (opened : List Nat), Closes i opened (before ++ token :: after) (i + before.length) ↔
      token = .rightParen ∧ openBehind opened.length before ≠ 0 := by
  intro before
  induction before with
  | nil =>
    intro i opened
    have hlater : ¬Closes (i + 1) (openedAfter i opened token) after i := by
      intro hc
      have := le_of_closes hc
      omega
    rw [List.nil_append, closes_cons]
    simp [hlater, openBehind]
  | cons first before ih =>
    intro i opened
    have hplace : i + (first :: before).length = i + 1 + before.length := by simp; omega
    have hne : i + 1 + before.length ≠ i := by omega
    rw [List.cons_append, closes_cons, openBehind_cons, ← length_openedAfter i, ← ih (i + 1), hplace]
    simp [hne]

/-- A `)` is stray where no parenthesis is open before it. -/
theorem stray_append_iff {before after : List Token} {token : Token} :
    Stray (before ++ token :: after) before.length ↔
      token = .rightParen ∧ openBehind 0 before = 0 := by
  have hmatched : Closes 0 [] (before ++ token :: after) (0 + before.length) ↔
      token = .rightParen ∧ openBehind 0 before ≠ 0 := closes_append_iff before 0 []
  rw [Nat.zero_add] at hmatched
  have hhere : (before ++ token :: after)[before.length]? = some token := by simp
  rw [Stray, hhere, Option.some_inj]
  refine and_congr_right fun ht => ?_
  show ¬Closes 0 [] _ _ ↔ _
  rw [hmatched]
  simp [ht]

theorem isClosed_cons (i : Nat) (opened : List Nat) (token : Token) (ts : List Token) (j : Nat) :
    IsClosed i opened (token :: ts) j ↔ (token = .rightParen ∧ opened.head? = some j) ∨
      IsClosed (i + 1) (openedAfter i opened token) ts j := by
  cases token <;> cases opened <;> simp [IsClosed, matchingFrom, openedAfter, eq_comm]

theorem isClosed_rightParen {i inner j : Nat} {opened : List Nat} {ts : List Token}
    (h : inner ≠ j) : IsClosed i (inner :: opened) (.rightParen :: ts) j ↔
      IsClosed (i + 1) opened ts j := by
  rw [isClosed_cons]
  simp [h, openedAfter]

/-- As many `(` are open at the end as nothing closes, those open before the tokens among them. The
positions `opened` stand below `i`, the innermost first, so that none is closed twice. -/
theorem count_unclosed : ∀ (ts : List Token) (i : Nat) (opened : List Nat),
    (i :: opened).Pairwise (· > ·) →
    (ts.zipIdx i).countP (fun p => p.1 = .leftParen ∧ ¬IsClosed i opened ts p.2) +
      opened.countP (fun j => ¬IsClosed i opened ts j) = openBehind opened.length ts := by
  intro ts
  induction ts with
  | nil => intro i opened _; simp [IsClosed, matchingFrom, openBehind]
  | cons token ts ih =>
    intro i opened hdesc
    obtain ⟨hbelow, hopened⟩ := List.pairwise_cons.mp hdesc
    have hlower : ∀ j ∈ opened, i + 1 > j := fun j hj => Nat.lt_succ_of_lt (hbelow j hj)
    have hrest := ih (i + 1) opened (List.pairwise_cons.mpr ⟨hlower, hopened⟩)
    rw [openBehind_cons, List.zipIdx_cons, List.countP_cons]
    cases token with
    | leftParen =>
      have hpushed : ((i + 1) :: i :: opened).Pairwise (· > ·) :=
        List.pairwise_cons.mpr ⟨List.forall_mem_cons.mpr ⟨Nat.lt_succ_self i, hlower⟩, hdesc⟩
      -- position `i` is counted among the open ones behind it, and with the tokens here
      have hinside := ih (i + 1) (i :: opened) hpushed
      rw [List.countP_cons, List.length_cons] at hinside
      simp only [isClosed_cons, openedAfter, reduceCtorEq, false_and, false_or, true_and, Token.nest]
      rw [← hinside]
      omega
    | rightParen =>
      cases opened with
      | nil => simpa [isClosed_cons, openedAfter, Token.nest] using hrest
      | cons inner opened =>
        have hinner := List.pairwise_cons.mp hopened
        have houter := ih (i + 1) opened (List.pairwise_cons.mpr
          ⟨fun j hj => hlower j (List.mem_cons_of_mem _ hj), hinner.2⟩)
        -- the `)` closes `inner`, and for all other positions the tokens behind it decide
        have hbehind : (ts.zipIdx (i + 1)).countP (fun p => p.1 = .leftParen ∧
            ¬IsClosed i (inner :: opened) (.rightParen :: ts) p.2) =
            (ts.zipIdx (i + 1)).countP fun p => p.1 = .leftParen ∧
              ¬IsClosed (i + 1) opened ts p.2 := by
          apply List.countP_congr
          intro p hp
          have hle := List.le_snd_of_mem_zipIdx hp
          have hlt := hlower inner List.mem_cons_self
          simp [isClosed_rightParen (show inner ≠ p.2 by omega)]
        have hbefore : opened.countP (fun j =>
            ¬IsClosed i (inner :: opened) (.rightParen :: ts) j) =
            opened.countP fun j => ¬IsClosed (i + 1) opened ts j := by
          apply List.countP_congr
          intro j hj
          have hlt := hinner.1 j hj
          simp [isClosed_rightParen (show inner ≠ j by omega)]
        have hhere : IsClosed i (inner :: opened) (.rightParen :: ts) inner :=
          (isClosed_cons _ _ _ _ _).mpr (.inl ⟨rfl, rfl⟩)
        rw [List.countP_cons, hbehind, hbefore, Token.nest, List.length_cons, Nat.add_sub_cancel,
          ← houter]
        simp [hhere]
    | _ => simpa [isClosed_cons, openedAfter, Token.nest] using hrest

/-! ## Repairing from left to right -/

/-- The tokens with matching parentheses, where `opened` are open before them. -/
def closedFrom : Nat → List Token → List Token
  | opened, [] => List.replicate opened .rightParen
  | opened, token :: ts =>
    if token = .rightParen ∧ opened = 0 then closedFrom 0 ts
    else token :: closedFrom (token.nest opened) ts

theorem balancedFrom_replicate : ∀ opened,
    BalancedFrom opened (List.replicate opened .rightParen)
  | 0 => rfl
  | opened + 1 => balancedFrom_replicate opened

theorem balancedFrom_closedFrom (ts : List Token) : ∀ opened,
    BalancedFrom opened (closedFrom opened ts) := by
  induction ts with
  | nil => exact balancedFrom_replicate
  | cons token ts ih =>
    intro opened
    rw [closedFrom]
    split
    · next h =>
      rw [h.2]
      exact ih 0
    · next h =>
      cases token with
      | rightParen =>
        cases opened with
        | zero => exact absurd ⟨rfl, rfl⟩ h
        | succ opened => exact ih opened
      | _ => simpa [BalancedFrom, Token.nest] using ih _

/-- The stray `)` are those that `closedFrom` leaves out, and what it adds closes what is open. -/
theorem closedFrom_eq : ∀ (ts before : List Token),
    closedFrom (openBehind 0 before) ts =
      ((ts.zipIdx before.length).filter fun p => ¬Stray (before ++ ts) p.2).map (·.1) ++
        List.replicate (openBehind 0 (before ++ ts)) .rightParen := by
  intro ts
  induction ts with
  | nil => intro before; simp [closedFrom]
  | cons token ts ih =>
    intro before
    have hnext := ih (before ++ [token])
    have hstray : Stray (before ++ token :: ts) before.length ↔
        token = .rightParen ∧ openBehind 0 before = 0 := stray_append_iff
    rw [openBehind_append, List.length_append, List.append_assoc, List.singleton_append,
      List.length_singleton] at hnext
    -- both sides leave the token out, or both keep it
    rw [closedFrom, List.zipIdx_cons, List.filter_cons]
    split
    · next h =>
      have hzero : openBehind (openBehind 0 before) [token] = 0 := by
        rw [h.1, h.2]
        rfl
      rw [hzero] at hnext
      rw [hnext, if_neg (by simpa using hstray.mpr h)]
    · next h =>
      rw [if_pos (by simpa using fun hs => h (hstray.mp hs)), List.map_cons, List.cons_append,
        ← hnext]
      rfl

theorem repaired_eq (ts : List Token) : repaired ts = closedFrom 0 ts := by
  have hkept := closedFrom_eq ts []
  have hcount := count_unclosed ts 0 [] (List.pairwise_singleton _ _)
  rw [List.countP_nil, Nat.add_zero, List.length_nil] at hcount
  rw [repaired, hcount]
  exact hkept.symm

theorem balanced_repaired (ts : List Token) : Balanced (repaired ts) := by
  rw [repaired_eq]
  exact balancedFrom_closedFrom ts 0

/-! ## Reading on -/

namespace State

variable {s s' : State} {token : Token} {ts : List Token}

/-- A step opens and closes as many parentheses as its token does. -/
theorem Step.depth_eq (h : Step s token s') : depth s'.frames = token.nest (depth s.frames) := by
  cases h with
  | and => exact depth_settle _ _
  | @rightParen o _ frames _ _ _ _ hs =>
    have hdepth := depth_settle o frames
    rw [hs, depth] at hdepth
    simp only [Token.nest]
    omega
  | @stray o _ frames _ hs =>
    have hdepth := depth_settle o frames
    rw [hs, depth] at hdepth
    simp only [Token.nest]
    omega
  | _ => rfl

theorem Step.ready (h : Step s token s') (htoken : ∀ k, token ≠ .within k) : s'.current.Ready := by
  cases h with
  | word => exact Open.push_ready _ _
  | phrase => exact Open.push_ready _ _
  | not hr => exact hr
  | and hr => exact (before_commit (settle_ready _ hr)).1
  | or => exact Open.ready_fresh _ _
  | left => exact absurd rfl (htoken _)
  | right => exact Open.ready_unit _ _ _
  | leftParen => exact Open.ready_fresh _ _
  | rightParen => exact Open.ready_unit _ _ _
  | stray hr => exact hr

theorem run_ready (h : s.run ts = .ok s') (hs : s.current.Ready)
    (hlast : ∀ k, ts.getLast? ≠ some (.within k)) : s'.current.Ready := by
  cases hl : ts.getLast? with
  | none =>
    obtain rfl := List.getLast?_eq_none_iff.mp hl
    cases h
    exact hs
  | some token =>
    obtain ⟨before, rfl⟩ := List.getLast?_eq_some_iff.mp hl
    obtain ⟨m, _, hstep⟩ := run_concat_eq_ok h
    exact hstep.ready fun k hk => hlast k (hl.trans (congrArg some hk))

/-- Closing all parentheses that are open is ending the query. -/
theorem reads_replicate : ∀ (n : Nat) {s : State}, depth s.frames = n →
    s.reads (List.replicate n .rightParen) = s.finish := by
  intro n
  induction n with
  | zero => intro s _; rfl
  | succ n ih =>
    intro s hdepth
    obtain ⟨⟨done, last, negate⟩, frames⟩ := s
    have hopen : depth frames = n + 1 := hdepth
    rw [List.replicate_succ]
    -- a waiting `/k` is refused by the first `)` and by the end alike
    by_cases hready : Open.Ready ⟨done, last, negate⟩
    · obtain ⟨inner, outerDone, negated, outer, hs, houter⟩ :=
        settle_of_depth_ne_zero ⟨done, last, negate⟩ (show depth frames ≠ 0 by omega)
      have hleft : depth outer = n := by omega
      rw [reads_cons_ok (step_rightParen hready hs), ih hleft,
        finish_of_ready (Open.ready_unit _ _ _), finish_of_ready hready,
        ← closeAll_settle ⟨done, last, negate⟩ frames, hs]
      rfl
    · cases last with
      | nothing => exact absurd (Open.ready_fresh _ _) hready
      | unit node => exact absurd (Open.ready_unit _ _ _) hready
      | within negated left distance =>
        exact reads_cons_error (step_within_waiting _ _ _ (by simp)) _

/-- The parser reads the repaired tokens as it reads the tokens themselves. While a `/k` waits, no
stray `)` may come, and none may come directly behind a `/k` later on. -/
theorem reads_closedFrom : ∀ (ts : List Token) {s : State},
    (∀ before k after, ts = before ++ .within k :: .rightParen :: after →
      openBehind (depth s.frames) before ≠ 0) →
    (s.current.Ready ∨ ∀ after, ts = .rightParen :: after → depth s.frames ≠ 0) →
    s.reads (closedFrom (depth s.frames) ts) = s.reads ts := by
  intro ts
  induction ts with
  | nil =>
    intro s _ _
    exact reads_replicate _ rfl
  | cons token ts ih =>
    intro s hlater hnow
    have hbehind : ∀ before k after, ts = before ++ .within k :: .rightParen :: after →
        openBehind (token.nest (depth s.frames)) before ≠ 0 :=
      fun before k after h => hlater (token :: before) k after (by rw [h]; rfl)
    rw [closedFrom]
    split
    · next h =>
      -- a stray `)`: the state stays as it is
      obtain ⟨rfl, hzero⟩ := h
      have hready : s.current.Ready := hnow.resolve_right fun hn => hn ts rfl hzero
      obtain ⟨inner, hs⟩ := settle_of_depth_zero s.current hzero
      rw [reads_cons_ok (step_rightParen_stray hready hs)]
      rw [hzero] at hbehind
      have hrest := ih (s := s) (by rw [hzero]; exact hbehind) (.inl hready)
      rwa [hzero] at hrest
    · cases hstep : s.step token with
      | error e => rw [reads_cons_error hstep, reads_cons_error hstep]
      | ok next =>
        have hrule := step_eq_ok_iff.mp hstep
        rw [reads_cons_ok hstep, reads_cons_ok hstep, ← hrule.depth_eq]
        rw [← hrule.depth_eq] at hbehind
        apply ih hbehind
        by_cases hwithin : ∃ k, token = .within k
        · obtain ⟨k, rfl⟩ := hwithin
          refine .inr fun after h => ?_
          have hopen := hlater [] k after (by rw [h]; rfl)
          rw [hrule.depth_eq]
          exact hopen
        · exact .inl (hrule.ready fun k hk => hwithin ⟨k, hk⟩)

end State

/-- A query is read as the one in which its parentheses are repaired: both have the same nodes, or
both the same error. -/
theorem ofTokens_repaired (ts : List Token)
    (h : ∀ i k, ts[i]? = some (.within k) → ¬Stray ts (i + 1)) :
    Balanced (repaired ts) ∧ ofTokens (repaired ts) = ofTokens ts := by
  refine ⟨balanced_repaired ts, ?_⟩
  have hlater : ∀ before k after, ts = before ++ .within k :: .rightParen :: after →
      openBehind 0 before ≠ 0 := by
    intro before k after he hzero
    have hhere : ts[before.length]? = some (.within k) := by simp [he]
    have hstray : Stray ((before ++ [.within k]) ++ .rightParen :: after)
        (before ++ [Token.within k]).length :=
      stray_append_iff.mpr ⟨rfl, by rw [openBehind_append, hzero]; rfl⟩
    apply h before.length k hhere
    rw [he]
    simpa using hstray
  rw [repaired_eq, ofTokens_eq, ofTokens_eq]
  exact State.reads_closedFrom ts (s := {}) hlater (.inl (Open.ready_fresh _ _))

/-- A stray `)` before a `/k`, and two `(` that nothing closes, one of them behind an `OR`. -/
def unmatched : List Token :=
  [.word "a", .rightParen, .within 3, .word "b", .or, .leftParen, .word "c", .and, .leftParen, .not,
    .word "d"]

theorem ofTokens_repaired_unmatched :
    (∀ i k, unmatched[i]? = some (.within k) → ¬Stray unmatched (i + 1)) ∧
    repaired unmatched = [.word "a", .within 3, .word "b", .or, .leftParen, .word "c", .and,
      .leftParen, .not, .word "d", .rightParen, .rightParen] ∧
    Balanced (repaired unmatched) ∧ ofTokens (repaired unmatched) = ofTokens unmatched := by
  have hapart : ∀ i k, unmatched[i]? = some (.within k) → ¬Stray unmatched (i + 1) := by
    intro i k h
    have hstray : ∀ j < unmatched.length, j ≠ 0 → ¬Stray unmatched (j + 1) := by decide
    apply hstray i (List.getElem?_eq_some_iff.mp h).1
    intro hzero
    rw [hzero] at h
    cases h
  exact ⟨hapart, rfl, ofTokens_repaired unmatched hapart⟩

/-- Directly behind a `/k`, a stray `)` is in the way of the word. -/
example : ofTokens [.word "a", .within 3, .rightParen, .word "b"] = .error (.withinWithoutRight 3) ∧
    repaired [.word "a", .within 3, .rightParen, .word "b"] = [.word "a", .within 3, .word "b"] :=
  ⟨(ofTokens_eq _).trans rfl, rfl⟩

end Concordance.Query
