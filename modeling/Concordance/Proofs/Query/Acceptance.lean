import Concordance.Proofs.Query.Descent
/-!
Which lists of tokens are queries. Conjunctions nest, but what the parser refuses is decided nearby:
an `OR` needs a unit before it, a `/k` needs a word on either side, where `NOT`s and stray
parentheses are looked through. `ofTokens_accepts` says so, and that the error is
about the leftmost token whose neighbours are wrong.

The proof goes through `accepts`, which reads a list of tokens and keeps of the machine's state only
how many parentheses are open and what an operator would find before it. `verdict_eq_accepts` says
that the parser's verdict is that of `accepts`, and `accepts_verdict` reads the latter off positions.
-/
namespace Concordance.Query

/-! ## Matching of parentheses -/

/-- The pairs of positions that ordinary matching finds in tokens that begin at position `i`, where
`opened` holds the positions of the `(` still open, the innermost first. -/
def matchingFrom : Nat → List Nat → List Token → List (Nat × Nat)
  | i, opened, .leftParen :: ts => matchingFrom (i + 1) (i :: opened) ts
  | i, open_ :: opened, .rightParen :: ts => (open_, i) :: matchingFrom (i + 1) opened ts
  | i, opened, _ :: ts => matchingFrom (i + 1) opened ts
  | _, _, [] => []

/-- Whether the token at a position is a `)` that closes a `(`. -/
def Matched (ts : List Token) (i : Nat) : Prop := i ∈ (matchingFrom 0 [] ts).map (·.2)

/-- Whether the token at a position is a `)` that closes nothing. -/
def Stray (ts : List Token) (i : Nat) : Prop := ts[i]? = some .rightParen ∧ ¬Matched ts i

/-- Whether an operator looks through the token at a position. -/
def Skipped (ts : List Token) (i : Nat) : Prop := ts[i]? = some .not ∨ Stray ts i

instance (ts : List Token) : DecidablePred (Matched ts) :=
  fun i => inferInstanceAs (Decidable (i ∈ (matchingFrom 0 [] ts).map (·.2)))

instance (ts : List Token) : DecidablePred (Stray ts) :=
  fun i => inferInstanceAs (Decidable (_ ∧ ¬Matched ts i))

instance (ts : List Token) : DecidablePred (Skipped ts) :=
  fun i => inferInstanceAs (Decidable (_ ∨ Stray ts i))

/-- The position of the nearest token before `i` that is not looked through. -/
def prev? (ts : List Token) : Nat → Option Nat
  | 0 => none
  | i + 1 => if Skipped ts i then prev? ts i else some i

/-! ## What operators ask for -/

variable {ts : List Token} {i : Nat}

/-- Before an `OR` a unit ends. -/
def OrAllowed (ts : List Token) (i : Nat) : Prop :=
  ∃ j, prev? ts i = some j ∧ ((∃ text, ts[j]? = some (.word text)) ∨
    (∃ text, ts[j]? = some (.phrase text)) ∨ Matched ts j)

/-- Before a `/k` stands a word that no other `/k` has taken. -/
def LeftAllowed (ts : List Token) (i : Nat) : Prop :=
  ∃ j, prev? ts i = some j ∧ (∃ text, ts[j]? = some (.word text)) ∧
    ¬∃ k, 0 < j ∧ ts[j - 1]? = some (.within k)

/-- Directly after a `/k` stands a word. -/
def RightAllowed (ts : List Token) (i : Nat) : Prop := ∃ text, ts[i + 1]? = some (.word text)

/-- What is wrong with the token at a position. -/
inductive Faulty (ts : List Token) (i : Nat) : Error → Prop where
  | or : ts[i]? = some .or → ¬OrAllowed ts i → Faulty ts i .orWithoutLeft
  | left {k : UInt32} : ts[i]? = some (.within k) → ¬LeftAllowed ts i →
    Faulty ts i (.withinWithoutLeft k)
  | right {k : UInt32} : ts[i]? = some (.within k) → LeftAllowed ts i → ¬RightAllowed ts i →
    Faulty ts i (.withinWithoutRight k)

theorem Faulty.unique {e e' : Error} (h : Faulty ts i e) (h' : Faulty ts i e') : e = e' := by
  cases h <;> cases h' <;> simp_all

/-! ## The state an operator sees -/

/-- What stands before an operator: no unit, a lone word, or another unit. -/
inductive Ending where
  | nothing
  | word
  | unit
  deriving DecidableEq, Repr

/-- Reads tokens where `depth` parentheses are open and `before` stands before them. -/
def accepts (depth : Nat) (before : Ending) : List Token → Except Error Unit
  | [] => .ok ()
  | .word _ :: ts => accepts depth .word ts
  | .phrase _ :: ts => accepts depth .unit ts
  | .not :: ts => accepts depth before ts
  | .and :: ts => accepts depth .nothing ts
  | .or :: ts => if before = .nothing then .error .orWithoutLeft else accepts depth .nothing ts
  | .within k :: ts =>
    if before = .word then
      match ts with
      | .word _ :: ts => accepts depth .unit ts
      | _ => .error (.withinWithoutRight k)
    else .error (.withinWithoutLeft k)
  | .leftParen :: ts => accepts (depth + 1) .nothing ts
  | .rightParen :: ts =>
    if depth = 0 then accepts 0 before ts else accepts (depth - 1) .unit ts

/-! ## The verdict of the parser -/

/-- What an operator sees of the conjunction at hand. -/
def Open.before (o : Open) : Ending :=
  match o.last with
  | .nothing => .nothing
  | .unit (.leaf _ (.term _)) => .word
  | _ => .unit

theorem before_commit {o : Open} (h : o.Ready) : o.commit.Ready ∧ o.commit.before = .nothing := by
  rcases h.cases with ⟨done, negate, rfl⟩ | ⟨done, node, negate, rfl⟩
  · exact ⟨h, rfl⟩
  · exact ⟨Open.ready_fresh _ _, rfl⟩

/-- Whether the parser goes through from a state, and if not, why. -/
def State.verdict (s : State) (ts : List Token) : Except Error Unit :=
  (s.run ts >>= finish).map fun _ => ()

namespace State
variable {s s' : State} {token : Token}

theorem verdict_cons_ok (h : s.step token = .ok s') (ts : List Token) :
    s.verdict (token :: ts) = s'.verdict ts := by
  rw [verdict, run_cons_ok h, verdict]

theorem verdict_cons_error {e : Error} (h : s.step token = .error e) (ts : List Token) :
    s.verdict (token :: ts) = .error e := by
  rw [verdict, run_cons_error h]
  rfl

end State

open State

section
variable {o : Open} {frames : List Frame} {k : UInt32} {ts : List Token}

/-- What an operator sees as a lone word is the node of one. -/
theorem eq_of_before_word (h : o.before = .word) : ∃ done negated word negate,
    o = ⟨done, .unit (.leaf negated (.term word)), negate⟩ := by
  obtain ⟨done, last, negate⟩ := o
  unfold Open.before at h
  split at h
  · cases h
  · next heq => exact ⟨done, _, _, negate, by rw [← heq]⟩
  · cases h

theorem verdict_within_left (h : o.Ready) (hb : o.before ≠ .word) :
    verdict ⟨o, frames⟩ (.within k :: ts) = .error (.withinWithoutLeft k) := by
  obtain ⟨done, last, negate⟩ := o
  refine verdict_cons_error (step_within_error k ?_ h) ts
  rintro negated word rfl
  exact hb rfl

theorem verdict_within_right (hb : o.before = .word) (hts : ∀ text us, ts ≠ .word text :: us) :
    verdict ⟨o, frames⟩ (.within k :: ts) = .error (.withinWithoutRight k) := by
  obtain ⟨done, negated, word, negate, rfl⟩ := eq_of_before_word hb
  rw [verdict_cons_ok (step_within_term _ _ _)]
  cases ts with
  | nil => rfl
  | cons token ts =>
    exact verdict_cons_error (step_within_waiting _ _ _ fun text ht => hts text ts (ht ▸ rfl)) ts

theorem verdict_within_word (hb : o.before = .word) (text : String) :
    ∃ o' : Open, o'.Ready ∧ o'.before = .unit ∧
      verdict ⟨o, frames⟩ (.within k :: .word text :: ts) = verdict ⟨o', frames⟩ ts := by
  obtain ⟨done, negated, word, negate, rfl⟩ := eq_of_before_word hb
  rw [verdict_cons_ok (step_within_term _ _ _), verdict_cons_ok (step_word_within _ _ _ _)]
  exact ⟨_, Open.ready_unit _ _ _, rfl, rfl⟩

end

theorem accepts_within_word (depth : Nat) (before : Ending) (k : UInt32) (text : String)
    (ts : List Token) : accepts depth before (.within k :: .word text :: ts) =
      if before = .word then accepts depth .unit ts else .error (.withinWithoutLeft k) := by
  rw [accepts]

theorem accepts_within_other (depth : Nat) (before : Ending) (k : UInt32) {ts : List Token}
    (hts : ∀ text us, ts ≠ .word text :: us) : accepts depth before (.within k :: ts) =
      if before = .word then .error (.withinWithoutRight k) else .error (.withinWithoutLeft k) := by
  rw [accepts]
  exact hts

theorem accepts_within_left (depth : Nat) {before : Ending} (k : UInt32) (ts : List Token)
    (hb : before ≠ .word) :
    accepts depth before (.within k :: ts) = .error (.withinWithoutLeft k) := by
  by_cases hw : ∃ text us, ts = .word text :: us
  · obtain ⟨text, us, rfl⟩ := hw
    rw [accepts_within_word, if_neg hb]
  · rw [accepts_within_other _ _ _ fun text us he => hw ⟨text, us, he⟩, if_neg hb]

theorem verdict_eq_accepts : ∀ (ts : List Token) {o : Open} {frames : List Frame}, o.Ready →
    verdict ⟨o, frames⟩ ts = accepts (depth frames) o.before ts
  | [], o, frames, h => by
    rw [verdict, run_nil, accepts]
    calc ((Except.ok ⟨o, frames⟩ >>= finish).map fun _ => ())
        = (finish ⟨o, frames⟩).map fun _ => () := rfl
      _ = .ok () := by rw [finish_of_ready h]; rfl
  | .word text :: ts, o, frames, h => by
    rw [verdict_cons_ok (step_word h text), accepts, verdict_eq_accepts ts (Open.push_ready _ _)]
    rfl
  | .phrase text :: ts, o, frames, h => by
    rw [verdict_cons_ok (step_phrase h text), accepts, verdict_eq_accepts ts (Open.push_ready _ _)]
    rfl
  | .not :: ts, o, frames, h => by
    have hnot : Open.Ready { o with negate := !o.negate } := h
    rw [verdict_cons_ok (step_not h), accepts, verdict_eq_accepts ts hnot]
    rfl
  | .and :: ts, o, frames, h => by
    -- the right-hand sides that are open end here, and no parenthesis does
    obtain ⟨hready, hbefore⟩ := before_commit (settle_ready frames h)
    rw [verdict_cons_ok (step_and h), accepts, verdict_eq_accepts ts hready, hbefore, depth_settle]
  | .or :: ts, o, frames, h => by
    rw [accepts]
    rcases h.cases with ⟨done, negate, rfl⟩ | ⟨done, node, negate, rfl⟩
    · exact verdict_cons_error step_or_nothing ts
    · have hne : (⟨done, .unit node, negate⟩ : Open).before ≠ .nothing := by
        unfold Open.before
        split <;> simp_all
      rw [if_neg hne, verdict_cons_ok (step_or_unit node),
        verdict_eq_accepts ts (Open.ready_fresh _ _)]
      rfl
  | .within k :: ts, o, frames, h => by
    -- the word behind the `/k` is read with it: in between the state is not `Ready`
    by_cases hb : o.before = .word
    · by_cases hw : ∃ text us, ts = .word text :: us
      · obtain ⟨text, us, rfl⟩ := hw
        obtain ⟨o', hready, hbefore, hv⟩ := verdict_within_word hb text
        rw [hv, accepts_within_word, if_pos hb, verdict_eq_accepts us hready, hbefore]
      · have hts : ∀ text us, ts ≠ .word text :: us := fun text us he => hw ⟨text, us, he⟩
        rw [verdict_within_right hb hts, accepts_within_other _ _ _ hts, if_pos hb]
    · rw [verdict_within_left h hb, accepts_within_left _ _ _ hb]
  | .leftParen :: ts, o, frames, h => by
    rw [verdict_cons_ok (step_leftParen h), accepts, verdict_eq_accepts ts (Open.ready_fresh _ _)]
    rfl
  | .rightParen :: ts, o, frames, h => by
    rw [accepts]
    split
    · -- stray: settling reaches the bottom of the stack, and the state stays
      next hd =>
      obtain ⟨inner, hs⟩ := settle_of_depth_zero o hd
      rw [verdict_cons_ok (step_rightParen_stray h hs), verdict_eq_accepts ts h, hd]
    · -- matched: what stands inside becomes a unit
      next hd =>
      obtain ⟨inner, done, negated, outer, hs, hdepth⟩ := settle_of_depth_ne_zero o hd
      rw [verdict_cons_ok (step_rightParen h hs), verdict_eq_accepts ts (Open.ready_unit _ _ _),
        hdepth]
      rfl
termination_by ts => ts.length

/-! ## Matching, token by token -/

def openedAfter (i : Nat) (opened : List Nat) : Token → List Nat
  | .leftParen => i :: opened
  | .rightParen => opened.tail
  | _ => opened

/-- Whether matching finds a `)` at position `j` of tokens that begin at position `i`. -/
def Closes (i : Nat) (opened : List Nat) (ts : List Token) (j : Nat) : Prop :=
  j ∈ (matchingFrom i opened ts).map (·.2)

theorem closes_cons (i : Nat) (opened : List Nat) (token : Token) (ts : List Token) (j : Nat) :
    Closes i opened (token :: ts) j ↔
      (j = i ∧ token = .rightParen ∧ opened ≠ []) ∨
        Closes (i + 1) (openedAfter i opened token) ts j := by
  cases token <;> cases opened <;> simp [Closes, matchingFrom, openedAfter]

theorem le_of_closes : ∀ {ts : List Token} {i : Nat} {opened : List Nat} {j : Nat},
    Closes i opened ts j → i ≤ j
  | [], _, _, _, h => by simp [Closes, matchingFrom] at h
  | token :: ts, i, opened, j, h => by
    rcases (closes_cons i opened token ts j).mp h with ⟨rfl, _⟩ | h
    · exact Nat.le_refl _
    · exact Nat.le_of_succ_le (le_of_closes h)

/-! ## Operators, token by token -/

section
variable {ts : List Token} {i : Nat}

theorem prev?_succ_of_skipped (h : Skipped ts i) : prev? ts (i + 1) = prev? ts i := by
  rw [prev?, if_pos h]

theorem prev?_succ (h : ¬Skipped ts i) : prev? ts (i + 1) = some i := by
  rw [prev?, if_neg h]

theorem orAllowed_succ_of_skipped (h : Skipped ts i) : OrAllowed ts (i + 1) ↔ OrAllowed ts i := by
  rw [OrAllowed, OrAllowed, prev?_succ_of_skipped h]

theorem leftAllowed_succ_of_skipped (h : Skipped ts i) :
    LeftAllowed ts (i + 1) ↔ LeftAllowed ts i := by
  rw [LeftAllowed, LeftAllowed, prev?_succ_of_skipped h]

theorem orAllowed_succ (h : ¬Skipped ts i) : OrAllowed ts (i + 1) ↔
    (∃ text, ts[i]? = some (.word text)) ∨ (∃ text, ts[i]? = some (.phrase text)) ∨
      Matched ts i := by
  simp only [OrAllowed, prev?_succ h, Option.some_inj, exists_eq_left']

theorem leftAllowed_succ (h : ¬Skipped ts i) : LeftAllowed ts (i + 1) ↔
    (∃ text, ts[i]? = some (.word text)) ∧ ¬∃ k, 0 < i ∧ ts[i - 1]? = some (.within k) := by
  simp only [LeftAllowed, prev?_succ h, Option.some_inj, exists_eq_left']

end

/-- What `accepts` knows where the first `i` tokens lie behind it: the positions of the open
parentheses, and what an operator would find. -/
structure Standing (ts : List Token) (i : Nat) (opened : List Nat) (before : Ending) : Prop where
  matched : ∀ j, i ≤ j → (Matched ts j ↔ Closes i opened (ts.drop i) j)
  or_iff : OrAllowed ts i ↔ before ≠ .nothing
  left_iff : LeftAllowed ts i ↔ before = .word

namespace Standing
variable {ts rest : List Token} {i : Nat} {opened : List Nat} {before : Ending} {token : Token}

theorem start (ts : List Token) : Standing ts 0 [] .nothing where
  matched _ _ := Iff.rfl
  or_iff := by simp [OrAllowed, prev?]
  left_iff := by simp [LeftAllowed, prev?]

theorem matched_here (h : Standing ts i opened before) (hd : ts.drop i = token :: rest) :
    Matched ts i ↔ token = .rightParen ∧ opened ≠ [] := by
  rw [h.matched i (Nat.le_refl i), hd, closes_cons]
  constructor
  · rintro (⟨_, ht⟩ | hc)
    · exact ht
    · exact absurd (le_of_closes hc) (by omega)
  · exact fun ht => .inl ⟨rfl, ht⟩

theorem matched_succ (h : Standing ts i opened before) (hd : ts.drop i = token :: rest) (j : Nat)
    (hj : i + 1 ≤ j) : Matched ts j ↔ Closes (i + 1) (openedAfter i opened token) rest j := by
  rw [h.matched j (by omega), hd, closes_cons]
  constructor
  · rintro (⟨rfl, _⟩ | hc)
    · omega
    · exact hc
  · exact .inr

theorem getElem?_of_drop (hd : ts.drop i = token :: rest) : ts[i]? = some token := by
  rw [← List.head?_drop, hd, List.head?_cons]

theorem drop_succ_of_drop (hd : ts.drop i = token :: rest) : ts.drop (i + 1) = rest := by
  rw [← List.tail_drop, hd, List.tail_cons]

theorem skipped_here (h : Standing ts i opened before) (hd : ts.drop i = token :: rest) :
    Skipped ts i ↔ token = .not ∨ token = .rightParen ∧ opened = [] := by
  rw [Skipped, Stray, getElem?_of_drop hd, h.matched_here hd, Option.some_inj, Option.some_inj]
  refine or_congr_right (and_congr_right fun ht => ?_)
  simp [ht]

theorem skip (h : Standing ts i opened before) (hd : ts.drop i = token :: rest)
    (hs : token = .not ∨ token = .rightParen ∧ opened = []) :
    Standing ts (i + 1) (openedAfter i opened token) before := by
  have hsk := (h.skipped_here hd).mpr hs
  constructor
  · rw [drop_succ_of_drop hd]
    exact h.matched_succ hd
  · rw [orAllowed_succ_of_skipped hsk, h.or_iff]
  · rw [leftAllowed_succ_of_skipped hsk, h.left_iff]

theorem next (after : Ending) (h : Standing ts i opened before) (hd : ts.drop i = token :: rest)
    (hs : ¬(token = .not ∨ token = .rightParen ∧ opened = []))
    (hor : ((∃ text, token = .word text) ∨ (∃ text, token = .phrase text) ∨
      token = .rightParen ∧ opened ≠ []) ↔ after ≠ .nothing)
    (hleft : ((∃ text, token = .word text) ∧ ¬∃ k, 0 < i ∧ ts[i - 1]? = some (.within k)) ↔
      after = .word) :
    Standing ts (i + 1) (openedAfter i opened token) after := by
  have hsk := fun hsk => hs ((h.skipped_here hd).mp hsk)
  have ht := getElem?_of_drop hd
  constructor
  · rw [drop_succ_of_drop hd]
    exact h.matched_succ hd
  · rw [orAllowed_succ hsk, h.matched_here hd, ht]
    simpa using hor
  · rw [leftAllowed_succ hsk, ht]
    simpa using hleft

end Standing

/-- Directly before position `i` stands no `/k`. -/
def Apart (ts : List Token) (i : Nat) : Prop := ∀ k, 0 < i → ts[i - 1]? ≠ some (.within k)

theorem apart_succ {ts rest : List Token} {i : Nat} {token : Token}
    (hd : ts.drop i = token :: rest) (hwithin : ∀ k, token ≠ .within k) : Apart ts (i + 1) := by
  intro k _ h
  rw [Nat.add_sub_cancel, Standing.getElem?_of_drop hd, Option.some_inj] at h
  exact hwithin k h

/-! ## The first fault -/

/-- The verdict on the tokens from position `i` on: there is no fault, or the first one is this. -/
inductive Verdict (ts : List Token) (i : Nat) : Except Error Unit → Prop where
  | sound : (∀ j, i ≤ j → ∀ e, ¬Faulty ts j e) → Verdict ts i (.ok ())
  | faulty {j : Nat} {e : Error} : i ≤ j → Faulty ts j e →
    (∀ j', i ≤ j' → j' < j → ∀ e', ¬Faulty ts j' e') → Verdict ts i (.error e)

namespace Verdict
variable {ts rest : List Token} {i : Nat} {token : Token} {r : Except Error Unit}

theorem here {e : Error} (h : Faulty ts i e) : Verdict ts i (.error e) :=
  .faulty (Nat.le_refl i) h fun _ _ _ => by omega

theorem of_succ (h : ∀ e, ¬Faulty ts i e) (hv : Verdict ts (i + 1) r) : Verdict ts i r := by
  cases hv with
  | sound hs =>
    apply Verdict.sound
    intro j hj
    rcases Nat.eq_or_lt_of_le hj with rfl | hj
    · exact h
    · exact hs j hj
  | faulty hj hf hfirst =>
    apply Verdict.faulty (by omega) hf
    intro j' hj' hlt
    rcases Nat.eq_or_lt_of_le hj' with rfl | hj'
    · exact h
    · exact hfirst j' hj' hlt

theorem not_faulty (ht : ts[i]? = some token) (hor : token ≠ .or) (hwithin : ∀ k, token ≠ .within k)
    (e : Error) : ¬Faulty ts i e := by
  rintro (⟨h, _⟩ | ⟨h, _⟩ | ⟨h, _, _⟩) <;> rw [ht, Option.some_inj] at h
  · exact hor h
  · exact hwithin _ h
  · exact hwithin _ h

/-- Only an `OR` or a `/k` can be at fault: the verdict on all other tokens is that on what follows
them. -/
theorem pass (hd : ts.drop i = token :: rest) (hor : token ≠ .or) (hwithin : ∀ k, token ≠ .within k)
    (hv : ts.drop (i + 1) = rest → Apart ts (i + 1) → Verdict ts (i + 1) r) : Verdict ts i r := by
  apply of_succ
  · exact not_faulty (Standing.getElem?_of_drop hd) hor hwithin
  · exact hv (Standing.drop_succ_of_drop hd) (apart_succ hd hwithin)

end Verdict

theorem rightAllowed_iff {ts rest : List Token} {i : Nat} {k : UInt32}
    (hd : ts.drop i = .within k :: rest) :
    RightAllowed ts i ↔ ∃ text us, rest = .word text :: us := by
  have hrest := Standing.drop_succ_of_drop hd
  rw [RightAllowed, ← List.head?_drop, hrest]
  cases rest <;> simp

/-- `accepts` finds the first fault. The induction carries what stands before the tokens that are
left; a `/k` and its right-hand word are read together, so that no `/k` is ever left behind. -/
theorem accepts_verdict : ∀ (rest : List Token) {ts : List Token} {i : Nat} {opened : List Nat}
    {before : Ending}, ts.drop i = rest → Standing ts i opened before → Apart ts i →
    Verdict ts i (accepts opened.length before rest)
  | [], ts, i, opened, before, hd, _, _ => by
    rw [accepts]
    apply Verdict.sound
    intro j hj e
    have hnone : ts[j]? = none := by
      rw [List.getElem?_eq_none_iff]
      exact Nat.le_trans (List.drop_eq_nil_iff.mp hd) hj
    rintro (⟨h, _⟩ | ⟨h, _⟩ | ⟨h, _, _⟩) <;> simp [hnone] at h
  | .word text :: rest, ts, i, opened, before, hd, hst, ha => by
    rw [accepts]
    -- no `/k` has taken this word, so that the next one may
    have hnone : ¬∃ k, 0 < i ∧ ts[i - 1]? = some (.within k) := fun ⟨k, hi, h⟩ => ha k hi h
    have hnext := hst.next .word hd (by simp) (by simp) (by simp [hnone])
    exact Verdict.pass hd (by simp) (by simp) fun hrest hapart =>
      accepts_verdict rest hrest hnext hapart
  | .phrase text :: rest, ts, i, opened, before, hd, hst, _ => by
    rw [accepts]
    have hnext := hst.next .unit hd (by simp) (by simp) (by simp)
    exact Verdict.pass hd (by simp) (by simp) fun hrest hapart =>
      accepts_verdict rest hrest hnext hapart
  | .not :: rest, ts, i, opened, before, hd, hst, _ => by
    rw [accepts]
    have hnext := hst.skip hd (.inl rfl)
    exact Verdict.pass hd (by simp) (by simp) fun hrest hapart =>
      accepts_verdict rest hrest hnext hapart
  | .and :: rest, ts, i, opened, before, hd, hst, _ => by
    rw [accepts]
    have hnext := hst.next .nothing hd (by simp) (by simp) (by simp)
    exact Verdict.pass hd (by simp) (by simp) fun hrest hapart =>
      accepts_verdict rest hrest hnext hapart
  | .leftParen :: rest, ts, i, opened, before, hd, hst, _ => by
    rw [accepts]
    have hnext := hst.next .nothing hd (by simp) (by simp) (by simp)
    exact Verdict.pass hd (by simp) (by simp) fun hrest hapart =>
      accepts_verdict rest hrest hnext hapart
  | .rightParen :: rest, ts, i, opened, before, hd, hst, _ => by
    rw [accepts]
    cases opened with
    | nil =>
      -- stray: what stood before the `)` stands behind it
      have hskip := hst.skip hd (.inr ⟨rfl, rfl⟩)
      exact Verdict.pass hd (by simp) (by simp) fun hrest hapart =>
        accepts_verdict rest hrest hskip hapart
    | cons open_ opened =>
      -- matched: the `)` itself is what operators find
      have hnext := hst.next .unit hd (by simp) (by simp) (by simp)
      exact Verdict.pass hd (by simp) (by simp) fun hrest hapart =>
        accepts_verdict rest hrest hnext hapart
  | .or :: rest, ts, i, opened, before, hd, hst, _ => by
    rw [accepts]
    have ht := Standing.getElem?_of_drop hd
    split
    · next hb => exact Verdict.here (.or ht fun h => hst.or_iff.mp h hb)
    · next hb =>
      have hnext := hst.next .nothing hd (by simp) (by simp) (by simp)
      refine Verdict.of_succ ?_
        (accepts_verdict rest (Standing.drop_succ_of_drop hd) hnext (apart_succ hd (by simp)))
      rintro e (⟨_, h⟩ | ⟨h, _⟩ | ⟨h, _, _⟩)
      · exact h (hst.or_iff.mpr hb)
      all_goals simp [ht] at h
  | .within k :: rest, ts, i, opened, before, hd, hst, _ => by
    have ht := Standing.getElem?_of_drop hd
    by_cases hleft : LeftAllowed ts i
    · have hb := hst.left_iff.mp hleft
      by_cases hright : ∃ text us, rest = .word text :: us
      · obtain ⟨text, us, rfl⟩ := hright
        rw [accepts_within_word, if_pos hb]
        have hd' := Standing.drop_succ_of_drop hd
        -- this word is taken, and no other `/k` may have it
        have hwithin : ∃ k, 0 < i + 1 ∧ ts[i + 1 - 1]? = some (.within k) := ⟨k, by omega, ht⟩
        have hnext := hst.next .nothing hd (by simp) (by simp) (by simp)
        have hword := hnext.next .unit hd' (by simp) (by simp)
          (by simp only [hwithin, not_true, and_false, reduceCtorEq])
        refine Verdict.of_succ ?_ (Verdict.pass hd' (by simp) (by simp) fun hrest hapart =>
          accepts_verdict us hrest hword hapart)
        rintro e (⟨h, _⟩ | ⟨_, h⟩ | ⟨_, _, h⟩)
        · simp [ht] at h
        · exact h hleft
        · exact h ((rightAllowed_iff hd).mpr ⟨text, us, rfl⟩)
      · rw [accepts_within_other _ _ _ fun text us he => hright ⟨text, us, he⟩, if_pos hb]
        exact Verdict.here (.right ht hleft fun h => hright ((rightAllowed_iff hd).mp h))
    · have hb : before ≠ .word := fun hb => hleft (hst.left_iff.mpr hb)
      rw [accepts_within_left _ _ _ hb]
      exact Verdict.here (.left ht hleft)
termination_by rest => rest.length

/-- The parser goes through where nothing is at fault, and else names the first fault. -/
theorem verdict_start (ts : List Token) : Verdict ts 0 (State.verdict {} ts) := by
  rw [verdict_eq_accepts ts (Open.ready_fresh _ _)]
  exact accepts_verdict ts rfl (Standing.start ts) fun k hk => absurd hk (by omega)

theorem Verdict.eq_error_iff {r : Except Error Unit} (h : Verdict ts 0 r) (e : Error) :
    r = .error e ↔ ∃ i, Faulty ts i e ∧ ∀ j < i, ∀ e', ¬Faulty ts j e' := by
  constructor
  · rintro rfl
    cases h with
    | faulty _ hf hfirst => exact ⟨_, hf, fun j hj => hfirst j (Nat.zero_le j) hj⟩
  · rintro ⟨i, hf, hfirst⟩
    cases h with
    | sound hs => exact absurd hf (hs i (Nat.zero_le i) e)
    | @faulty j e' _ hf' hfirst' =>
      rcases Nat.lt_trichotomy i j with hlt | rfl | hlt
      · exact absurd hf (hfirst' i (Nat.zero_le i) hlt e)
      · rw [hf.unique hf']
      · exact absurd hf' (hfirst j hlt e')

theorem Verdict.eq_ok_iff {r : Except Error Unit} (h : Verdict ts 0 r) :
    r = .ok () ↔ ∀ i e, ¬Faulty ts i e := by
  constructor
  · rintro rfl
    cases h with
    | sound hs => exact fun i => hs i (Nat.zero_le i)
  · intro hs
    cases h with
    | sound _ => rfl
    | @faulty j e _ hf _ => exact absurd hf (hs j e)

theorem forall_not_faulty_iff : (∀ i e, ¬Faulty ts i e) ↔
    (∀ i, ts[i]? = some .or → OrAllowed ts i) ∧
      ∀ i k, ts[i]? = some (.within k) → LeftAllowed ts i ∧ RightAllowed ts i := by
  constructor
  · refine fun h => ⟨fun i ht => ?_, fun i k ht => ?_⟩
    · exact Classical.byContradiction fun hn => h i _ (.or ht hn)
    · have hleft := Classical.byContradiction fun hn => h i _ (.left ht hn)
      exact ⟨hleft, Classical.byContradiction fun hn => h i _ (.right ht hleft hn)⟩
  · rintro ⟨hor, hwithin⟩ i e (⟨ht, hn⟩ | ⟨ht, hn⟩ | ⟨ht, _, hn⟩)
    · exact hn (hor i ht)
    · exact hn (hwithin i _ ht).1
    · exact hn (hwithin i _ ht).2

theorem verdict_eq_ofTokens (ts : List Token) :
    State.verdict {} ts = (ofTokens ts).map fun _ => () := by
  rw [ofTokens_eq]
  rfl

/-- A list of tokens is a query exactly when a unit stands before every `OR`, and a word on either
side of every `/k`; and else the error is about the leftmost operator for which this fails. -/
theorem ofTokens_accepts (ts : List Token) :
    ((∃ nodes, ofTokens ts = .ok nodes) ↔
      (∀ i, ts[i]? = some .or → OrAllowed ts i) ∧
        ∀ i k, ts[i]? = some (.within k) → LeftAllowed ts i ∧ RightAllowed ts i) ∧
    ∀ e, ofTokens ts = .error e ↔ ∃ i, Faulty ts i e ∧ ∀ j < i, ∀ e', ¬Faulty ts j e' := by
  have h := verdict_start ts
  rw [verdict_eq_ofTokens] at h
  refine ⟨?_, fun e => ?_⟩
  · rw [← forall_not_faulty_iff, ← h.eq_ok_iff]
    cases ofTokens ts <;> simp [Except.map]
  · rw [← h.eq_error_iff]
    cases ofTokens ts <;> simp [Except.map]

end Concordance.Query
