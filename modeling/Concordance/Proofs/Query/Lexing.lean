import Concordance.Proofs.Text.Words
import Concordance.Query.Scan
/-!
Texts that spell tokens. `Spells` has one rule for each kind of token and one for a character
between tokens; what is spelled by these rules is what the cursor reads (`Spells.tokens_eq`), and
but for a quote that is left open the cursor reads nothing else (`spells_of_tokens`). Texts that
spell tokens can be put next to each other where no run goes on across the seam (`Spells.append`).
-/
namespace Concordance.Query

/-! ## Characters -/

theorem isQueryChar_of_isTermChar {c : Char} (h : isTermChar c = true) : isQueryChar c = true :=
  of_ascii (fun c => isTermChar c = true → isQueryChar c = true) (by decide)
    (toNat_lt_of_isWordChar (isWordChar_of_isTermChar h)) h

theorem isQueryChar_of_isDigit {c : Char} (h : c.isDigit = true) : isQueryChar c = true :=
  isQueryChar_of_isTermChar (by simp [isTermChar, h])

theorem ne_of_isQueryChar {c d : Char} (h : isQueryChar c = true) (hd : isQueryChar d = false) :
    c ≠ d := by
  rintro rfl
  rw [h] at hd
  cases hd

theorem startsToken_of_isQueryChar {c : Char} (h : isQueryChar c = true) :
    startsToken c = true := by
  simp [startsToken, h]

theorem exists_range_of_inRanges {ranges : List (Nat × Nat)} {n : Nat}
    (h : inRanges ranges n = true) : ∃ range ∈ ranges, range.1 ≤ n ∧ n ≤ range.2 := by
  induction ranges with
  | nil => cases h
  | cons range ranges ih =>
    rw [inRanges, Bool.and_eq_true, Bool.or_eq_true, decide_eq_true_eq, decide_eq_true_eq] at h
    obtain ⟨hlow, hhigh | hrest⟩ := h
    · exact ⟨range, List.mem_cons_self, hlow, hhigh⟩
    · obtain ⟨range', hm, hrange⟩ := ih hrest
      exact ⟨range', List.mem_cons_of_mem range hm, hrange⟩

theorem not_inRanges_alphanumeric {n : Nat} (h : inRanges blankRanges n = true) :
    inRanges alphanumericRanges n = false := by
  have hblanks : ∀ range ∈ blankRanges, ∀ k < range.2 + 1 - range.1,
      inRanges alphanumericRanges (range.1 + k) = false := by decide +kernel
  obtain ⟨range, hm, hlow, hhigh⟩ := exists_range_of_inRanges h
  have hk := hblanks range hm (n - range.1) (by omega)
  rwa [Nat.add_sub_cancel' hlow] at hk

theorem isBlank_of_isQueryChar {c : Char} (h : isQueryChar c = true) : isBlank c = false := by
  apply Bool.eq_false_iff.mpr
  intro hblank
  rw [isQueryChar, Bool.or_eq_true] at h
  obtain h | h := h
  · have hnot : isAlphanumeric c = false := not_inRanges_alphanumeric hblank
    rw [h] at hnot
    cases hnot
  · obtain rfl := beq_iff_eq.mp h
    exact absurd hblank (by decide)

theorem startsToken_of_isBlank {c : Char} (h : isBlank c = true) : startsToken c = false := by
  apply Bool.eq_false_iff.mpr
  intro hstart
  simp only [startsToken, Bool.or_eq_true, beq_iff_eq] at hstart
  obtain (((rfl | rfl) | rfl) | rfl) | hquery := hstart
  · exact absurd h (by decide)
  · exact absurd h (by decide)
  · exact absurd h (by decide)
  · exact absurd h (by decide)
  · rw [isBlank_of_isQueryChar hquery] at h
    cases h

/-- No run of query characters goes on in the text. -/
def Closed (text : List Char) : Prop := ∀ c ∈ text.head?, isQueryChar c = false

/-! ## The cursor -/

namespace Cursor

variable {c c' after : Cursor} {token : Token}

theorem tokens_of_next (h : c.next = (.ok (some token), after)) :
    c.tokens = after.tokens.map (token :: ·) := by
  rw [tokens]
  split <;> simp_all

theorem tokens_of_end (h : c.next = (.ok none, after)) : c.tokens = .ok [] := by
  rw [tokens]
  split <;> simp_all

theorem tokens_of_error {e : Error} (h : c.next = (.error e, after)) : c.tokens = .error e := by
  rw [tokens]
  split <;> simp_all

theorem tokens_cons {ts : List Token} (h : c.next = (.ok (some token), after))
    (hts : after.tokens = .ok ts) : c.tokens = .ok (token :: ts) := by
  rw [tokens_of_next h, hts]
  rfl

/-- Where tokens are read behind a first one, they are read from the cursor behind it. -/
theorem tokens_eq_ok_of_next {ts : List Token} (h : c.next = (.ok (some token), after))
    (hts : c.tokens = .ok ts) : ∃ us, after.tokens = .ok us ∧ ts = token :: us := by
  rw [tokens_of_next h] at hts
  cases ha : after.tokens with
  | error e => rw [ha] at hts; cases hts
  | ok us =>
    rw [ha] at hts
    exact ⟨us, rfl, (Except.ok.inj hts).symm⟩

/-- What is read from a cursor depends on the next token alone. -/
theorem tokens_congr (h : c.next = c'.next) : c.tokens = c'.tokens := by
  match hn : c'.next with
  | (.error e, _) => rw [tokens_of_error hn, tokens_of_error (h.trans hn)]
  | (.ok none, _) => rw [tokens_of_end hn, tokens_of_end (h.trans hn)]
  | (.ok (some token), _) => rw [tokens_of_next hn, tokens_of_next (h.trans hn)]

variable {first : Char} {text : List Char}

theorem next_separator (h : startsToken first = false) (position : Nat) :
    next ⟨position, first :: text⟩ = next ⟨position + 1, text⟩ := by
  have hseek : seek ⟨position, first :: text⟩ = seek ⟨position + 1, text⟩ := by
    simp only [seek, h, Bool.not_false, List.takeWhile_cons_of_pos, List.dropWhile_cons_of_pos,
      List.length_cons, mk.injEq, and_true]
    omega
  rw [next, next, hseek]

theorem next_of_startsToken (h : startsToken first = true) (position : Nat) :
    next ⟨position, first :: text⟩ = read ⟨position, first :: text⟩ := by
  simp [next, seek, h]

theorem advance_append (position : Nat) (front text : List Char) :
    advance ⟨position, front ++ text⟩ front.length = ⟨position + front.length, text⟩ := by
  simp [advance]

theorem next_leftParen (position : Nat) :
    next ⟨position, '(' :: text⟩ = (.ok (some .leftParen), ⟨position + 1, text⟩) := by
  rw [next_of_startsToken (by decide)]
  simpa [read] using advance_append position ['('] text

theorem next_rightParen (position : Nat) :
    next ⟨position, ')' :: text⟩ = (.ok (some .rightParen), ⟨position + 1, text⟩) := by
  rw [next_of_startsToken (by decide)]
  simpa [read] using advance_append position [')'] text

theorem next_phrase {inside : List Char} (h : '"' ∉ inside) (position : Nat) :
    next ⟨position, '"' :: (inside ++ '"' :: text)⟩ =
      (.ok (some (.phrase (String.ofList inside))), ⟨position + (inside.length + 2), text⟩) := by
  have hinside : (inside ++ '"' :: text).takeWhile (· != '"') = inside := by
    apply takeWhile_append_of_closed
    · intro c hc
      exact bne_iff_ne.mpr fun he => h (he ▸ hc)
    · simp
  have hadvance := advance_append position ('"' :: inside ++ ['"']) text
  rw [next_of_startsToken (by decide)]
  simpa [read, hinside] using hadvance

theorem natOfDigits_toDigits (n : Nat) : Decimal.natOfDigits (Nat.toDigits 10 n) = n := by
  rw [Decimal.natOfDigits, ← Nat.ofDigitChars_eq_foldl, Nat.ofDigitChars_ten_toDigits]

theorem distance_of_lt (position : Nat) {digits : List Char} (hne : digits ≠ [])
    (hlt : Decimal.natOfDigits digits < UInt32.size) :
    distance position digits = .ok (.within (.ofNat (Decimal.natOfDigits digits))) := by
  have hempty : digits.isEmpty = false := by simpa using hne
  simp [distance, hempty, hlt]

theorem distance_eq_ok {position : Nat} {digits : List Char}
    (h : distance position digits = .ok token) : digits ≠ [] ∧
      Decimal.natOfDigits digits < UInt32.size ∧
        token = .within (.ofNat (Decimal.natOfDigits digits)) := by
  unfold distance at h
  split at h
  · cases h
  · next hempty =>
    dsimp only at h
    split at h
    · next hlt => exact ⟨by simpa using hempty, hlt, (Except.ok.inj h).symm⟩
    · cases h

theorem next_slash {digits : List Char} (hdigits : ∀ c ∈ digits, c.isDigit = true)
    (h : ∀ c ∈ text.head?, c.isDigit = false) (position : Nat) :
    next ⟨position, '/' :: (digits ++ text)⟩ =
      ((distance (position + 1) digits).map some, ⟨position + (digits.length + 1), text⟩) := by
  have htake : (digits ++ text).takeWhile Char.isDigit = digits :=
    takeWhile_append_of_closed hdigits h
  have hadvance := advance_append position ('/' :: digits) text
  rw [next_of_startsToken (by decide)]
  simpa [read, htake] using hadvance

theorem next_within {digits : List Char} (hne : digits ≠ [])
    (hdigits : ∀ c ∈ digits, c.isDigit = true) (hlt : Decimal.natOfDigits digits < UInt32.size)
    (h : ∀ c ∈ text.head?, c.isDigit = false) (position : Nat) :
    next ⟨position, '/' :: (digits ++ text)⟩ =
      (.ok (some (.within (.ofNat (Decimal.natOfDigits digits)))),
        ⟨position + (digits.length + 1), text⟩) := by
  rw [next_slash hdigits h, distance_of_lt _ hne hlt]
  rfl

theorem next_run {run : List Char} (hne : run ≠ []) (hrun : ∀ c ∈ run, isQueryChar c = true)
    (h : Closed text) (position : Nat) : next ⟨position, run ++ text⟩ =
      (.ok (some (Token.ofRun (String.ofList run))), ⟨position + run.length, text⟩) := by
  obtain ⟨first, run', rfl⟩ := List.exists_cons_of_ne_nil hne
  have hfirst := hrun first List.mem_cons_self
  have htake := takeWhile_append_of_closed hrun h
  have hadvance := advance_append position (first :: run') text
  rw [List.cons_append] at htake hadvance ⊢
  rw [next_of_startsToken (startsToken_of_isQueryChar hfirst)]
  unfold read
  simp only [htake]
  -- no token of one character begins like a run
  rw [if_neg (ne_of_isQueryChar hfirst (by decide)), if_neg (ne_of_isQueryChar hfirst (by decide)),
    if_neg (ne_of_isQueryChar hfirst (by decide)), if_neg (ne_of_isQueryChar hfirst (by decide)),
    hadvance]

end Cursor

/-! ## Spelling -/

/-- The text spells the tokens. -/
inductive Spells : List Char → List Token → Prop where
  | nil : Spells [] []
  | separator {c : Char} {text : List Char} {ts : List Token} : startsToken c = false →
    Spells text ts → Spells (c :: text) ts
  | leftParen {text : List Char} {ts : List Token} : Spells text ts →
    Spells ('(' :: text) (.leftParen :: ts)
  | rightParen {text : List Char} {ts : List Token} : Spells text ts →
    Spells (')' :: text) (.rightParen :: ts)
  | phrase {inside text : List Char} {ts : List Token} : '"' ∉ inside → Spells text ts →
    Spells ('"' :: (inside ++ '"' :: text)) (.phrase (String.ofList inside) :: ts)
  | within {digits text : List Char} {ts : List Token} : digits ≠ [] →
    (∀ c ∈ digits, c.isDigit = true) → Decimal.natOfDigits digits < UInt32.size →
    (∀ c ∈ text.head?, c.isDigit = false) → Spells text ts →
    Spells ('/' :: (digits ++ text)) (.within (.ofNat (Decimal.natOfDigits digits)) :: ts)
  | run {run text : List Char} {ts : List Token} : run ≠ [] → (∀ c ∈ run, isQueryChar c = true) →
    Closed text → Spells text ts → Spells (run ++ text) (Token.ofRun (String.ofList run) :: ts)

/-- The cursor reads the tokens that a text spells. -/
theorem Spells.tokens_eq {text : List Char} {ts : List Token} (h : Spells text ts) :
    ∀ position, Cursor.tokens ⟨position, text⟩ = .ok ts := by
  induction h with
  | nil => exact fun position => Cursor.tokens_of_end rfl
  | separator hc _ ih =>
    exact fun position => (Cursor.tokens_congr (Cursor.next_separator hc position)).trans (ih _)
  | leftParen _ ih =>
    exact fun position => Cursor.tokens_cons (Cursor.next_leftParen position) (ih _)
  | rightParen _ ih =>
    exact fun position => Cursor.tokens_cons (Cursor.next_rightParen position) (ih _)
  | phrase hinside _ ih =>
    exact fun position => Cursor.tokens_cons (Cursor.next_phrase hinside position) (ih _)
  | within hne hdigits hlt hhead _ ih =>
    exact fun position =>
      Cursor.tokens_cons (Cursor.next_within hne hdigits hlt hhead position) (ih _)
  | run hne hrun hclosed _ ih =>
    exact fun position => Cursor.tokens_cons (Cursor.next_run hne hrun hclosed position) (ih _)

theorem head?_append_of {p : Char → Prop} {text after : List Char} (h : ∀ c ∈ text.head?, p c)
    (ha : ∀ c ∈ after.head?, p c) : ∀ c ∈ (text ++ after).head?, p c := by
  cases text with
  | nil => exact ha
  | cons c text => exact h

theorem Closed.not_isDigit {text : List Char} (h : Closed text) :
    ∀ c ∈ text.head?, c.isDigit = false := by
  intro c hc
  apply Bool.eq_false_iff.mpr
  intro hd
  have hquery := isQueryChar_of_isDigit hd
  rw [h c hc] at hquery
  cases hquery

/-- In front of a text in which no run goes on, a text spells what it spells alone. -/
theorem Spells.append {text after : List Char} {ts us : List Token} (h : Spells text ts)
    (hclosed : Closed after) (hafter : Spells after us) : Spells (text ++ after) (ts ++ us) := by
  induction h with
  | nil => exact hafter
  | separator hc _ ih => exact .separator hc ih
  | leftParen _ ih => exact .leftParen ih
  | rightParen _ ih => exact .rightParen ih
  | phrase hinside _ ih =>
    have hspells := Spells.phrase hinside ih
    simpa using hspells
  | within hne hdigits hlt hhead _ ih =>
    have hspells := Spells.within hne hdigits hlt (head?_append_of hhead hclosed.not_isDigit) ih
    simpa using hspells
  | run hne hrun hend _ ih =>
    have hspells := Spells.run hne hrun (head?_append_of hend hclosed) ih
    simpa using hspells

/-! ## Reading back -/

theorem count_dropWhile {p : Char → Bool} (hp : p '"' = false) (text : List Char) :
    (text.dropWhile p).count '"' = text.count '"' := by
  have hrun : (text.takeWhile p).count '"' = 0 := by
    rw [List.count_eq_zero]
    intro hm
    have h := List.all_eq_true.mp List.all_takeWhile _ hm
    rw [hp] at h
    cases h
  calc (text.dropWhile p).count '"'
      = (text.takeWhile p).count '"' + (text.dropWhile p).count '"' := by rw [hrun, Nat.zero_add]
    _ = text.count '"' := by rw [← List.count_append, List.takeWhile_append_dropWhile]

/-- Where the number of quotes is even, another one closes the phrase. -/
theorem exists_closing_quote {text : List Char} (h : ('"' :: text).count '"' % 2 = 0) :
    ∃ inside rest, text = inside ++ '"' :: rest ∧ '"' ∉ inside ∧ rest.count '"' % 2 = 0 := by
  have hmem : '"' ∈ text := by
    apply Classical.byContradiction
    intro hn
    rw [List.count_cons_self, List.count_eq_zero.mpr hn] at h
    omega
  obtain ⟨inside, rest, rfl, hinside⟩ := List.eq_append_cons_of_mem hmem
  refine ⟨inside, rest, rfl, hinside, ?_⟩
  rw [List.count_cons_self, List.count_append, List.count_cons_self,
    List.count_eq_zero.mpr hinside] at h
  omega

theorem tokens_slash {text : List Char} {position : Nat} {ts : List Token}
    (h : Cursor.tokens ⟨position, '/' :: text⟩ = .ok ts) :
    ∃ position' us, Cursor.tokens ⟨position', text.dropWhile Char.isDigit⟩ = .ok us ∧
      (Spells (text.dropWhile Char.isDigit) us → Spells ('/' :: text) ts) := by
  have hdigits : ∀ d ∈ text.takeWhile Char.isDigit, d.isDigit = true :=
    List.all_eq_true.mp List.all_takeWhile
  have hhead := head?_dropWhile (p := Char.isDigit) text
  have hnext := Cursor.next_slash hdigits hhead position
  rw [List.takeWhile_append_dropWhile] at hnext
  cases hd : Cursor.distance (position + 1) (text.takeWhile Char.isDigit) with
  | error e =>
    rw [hd] at hnext
    cases (Cursor.tokens_of_error hnext).symm.trans h
  | ok token =>
    rw [hd] at hnext
    obtain ⟨hne, hlt, rfl⟩ := Cursor.distance_eq_ok hd
    obtain ⟨us, hus, rfl⟩ := Cursor.tokens_eq_ok_of_next hnext h
    refine ⟨_, us, hus, ?_⟩
    intro hrest
    have hspells := Spells.within hne hdigits hlt hhead hrest
    rwa [List.takeWhile_append_dropWhile] at hspells

theorem tokens_run {c : Char} (hc : isQueryChar c = true) {text : List Char} {position : Nat}
    {ts : List Token} (h : Cursor.tokens ⟨position, c :: text⟩ = .ok ts) :
    ∃ position' us, Cursor.tokens ⟨position', text.dropWhile isQueryChar⟩ = .ok us ∧
      (Spells (text.dropWhile isQueryChar) us → Spells (c :: text) ts) := by
  have hrun : ∀ d ∈ c :: text.takeWhile isQueryChar, isQueryChar d = true :=
    List.forall_mem_cons.mpr ⟨hc, List.all_eq_true.mp List.all_takeWhile⟩
  have hhead : Closed (text.dropWhile isQueryChar) := head?_dropWhile text
  have hnext := Cursor.next_run (List.cons_ne_nil c _) hrun hhead position
  rw [List.cons_append, List.takeWhile_append_dropWhile] at hnext
  obtain ⟨us, hus, rfl⟩ := Cursor.tokens_eq_ok_of_next hnext h
  refine ⟨_, us, hus, ?_⟩
  intro hrest
  have hspells := Spells.run (List.cons_ne_nil c _) hrun hhead hrest
  rwa [List.cons_append, List.takeWhile_append_dropWhile] at hspells

/-- Where the cursor reads tokens, the text spells them, unless a quote is left open. The induction
is on the length of the text, as one token takes several characters. -/
theorem spells_of_tokens : ∀ {text : List Char} {position : Nat} {ts : List Token},
    Cursor.tokens ⟨position, text⟩ = .ok ts → text.count '"' % 2 = 0 → Spells text ts
  | [], position, ts, h, _ => by
    rw [Cursor.tokens_of_end rfl] at h
    cases h
    exact .nil
  | c :: text, position, ts, h, hquotes => by
    by_cases hquote : c = '"'
    · subst hquote
      obtain ⟨inside, rest, rfl, hinside, hrest⟩ := exists_closing_quote hquotes
      obtain ⟨us, hus, rfl⟩ := Cursor.tokens_eq_ok_of_next (Cursor.next_phrase hinside position) h
      exact .phrase hinside (spells_of_tokens hus hrest)
    have htext : text.count '"' % 2 = 0 := by simpa [hquote] using hquotes
    by_cases hstart : startsToken c = false
    · rw [Cursor.tokens_congr (Cursor.next_separator hstart position)] at h
      exact .separator hstart (spells_of_tokens h htext)
    by_cases hleft : c = '('
    · subst hleft
      obtain ⟨us, hus, rfl⟩ := Cursor.tokens_eq_ok_of_next (Cursor.next_leftParen position) h
      exact .leftParen (spells_of_tokens hus htext)
    by_cases hright : c = ')'
    · subst hright
      obtain ⟨us, hus, rfl⟩ := Cursor.tokens_eq_ok_of_next (Cursor.next_rightParen position) h
      exact .rightParen (spells_of_tokens hus htext)
    by_cases hslash : c = '/'
    · subst hslash
      obtain ⟨position', us, hus, hspells⟩ := tokens_slash h
      have hlength := (List.dropWhile_sublist Char.isDigit (l := text)).length_le
      rw [← count_dropWhile (p := Char.isDigit) (by decide)] at htext
      exact hspells (spells_of_tokens hus htext)
    -- what is left are the characters of runs
    have hc : isQueryChar c = true := by
      simpa [startsToken, hleft, hright, hquote, hslash] using hstart
    obtain ⟨position', us, hus, hspells⟩ := tokens_run hc h
    have hlength := (List.dropWhile_sublist isQueryChar (l := text)).length_le
    rw [← count_dropWhile (p := isQueryChar) (by decide)] at htext
    exact hspells (spells_of_tokens hus htext)
termination_by text => text.length

end Concordance.Query
