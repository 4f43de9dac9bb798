import Concordance.Proofs.Query.Places
/-!
How far reading has come. Each call passes over some text in front of the cursor
(`exists_passes_next`), so the cursor never leaves the query (`Inside.next`). Unless nothing is
left, it passes over one character at least (`position_lt_next`), and an error is passed over as a
token is, a `/` with all digits behind it (`passes_of_error`). So the calls come to the end and stay
there (`exists_end`).
-/
namespace Concordance.Query

namespace Cursor

variable {c c' c'' : Cursor} {text more : List Char} {query : String} {e : Error}

/-! ## One call -/

/-- From one cursor to the other, this text is passed over. -/
structure Passes (c : Cursor) (text : List Char) (c' : Cursor) : Prop where
  rest_eq : c.rest = text ++ c'.rest
  position_eq : c'.position = c.position + text.length

theorem Passes.trans (h : c.Passes text c') (h' : c'.Passes more c'') :
    c.Passes (text ++ more) c'' where
  rest_eq := by rw [h.rest_eq, h'.rest_eq, List.append_assoc]
  position_eq := by rw [h'.position_eq, h.position_eq, List.length_append, Nat.add_assoc]

theorem passes_seek (c : Cursor) : c.Passes (c.rest.takeWhile (!startsToken ·)) c.seek where
  rest_eq := List.takeWhile_append_dropWhile.symm
  position_eq := rfl

theorem passes_advance (c : Cursor) (n : Nat) : c.Passes (c.rest.take n) (c.advance n) where
  rest_eq := (List.take_append_drop n c.rest).symm
  position_eq := by
    rw [List.length_take]
    rfl

theorem exists_passes_read (c : Cursor) : ∃ text, c.Passes text c.read.2 := by
  unfold read
  split
  · exact ⟨[], rfl, rfl⟩
  · split
    · exact ⟨_, passes_advance c _⟩
    split
    · exact ⟨_, passes_advance c _⟩
    split
    · exact ⟨_, passes_advance c _⟩
    split <;> exact ⟨_, passes_advance c _⟩

theorem exists_passes_next (c : Cursor) : ∃ text, c.Passes text c.next.2 := by
  obtain ⟨text, hread⟩ := exists_passes_read c.seek
  exact ⟨_, (passes_seek c).trans hread⟩

/-- A token, or an error, is one character long at least. -/
theorem position_lt_next (h : c.next.1 ≠ .ok none) : c.position < c.next.2.position := by
  obtain ⟨text, hpasses⟩ := exists_passes_next c
  have hlength := congrArg List.length hpasses.rest_eq
  have hlt := next_length_lt h
  rw [List.length_append] at hlength
  rw [hpasses.position_eq]
  omega

theorem read_eq_error (h : c.read.1 = .error e) : ∃ rest, c.rest = '/' :: rest := by
  unfold read at h
  split at h
  · cases h
  · next first rest hrest =>
    split at h
    · cases h
    split at h
    · cases h
    split at h
    · cases h
    split at h
    · next hslash => exact ⟨rest, hslash ▸ hrest⟩
    · cases h

theorem passes_of_error (h : c.next.1 = .error e) : ∃ skipped digits,
    c.Passes (skipped ++ '/' :: digits) c.next.2 ∧ (∀ x ∈ skipped, startsToken x = false) ∧
    (∀ x ∈ digits, x.isDigit = true) ∧ (∀ x ∈ c.next.2.rest.head?, x.isDigit = false) ∧
    distance (c.position + skipped.length + 1) digits = .error e := by
  obtain ⟨rest, hrest⟩ := read_eq_error h
  have hdigits : ∀ d ∈ rest.takeWhile Char.isDigit, d.isDigit = true :=
    List.all_eq_true.mp List.all_takeWhile
  have hskipped : ∀ d ∈ c.rest.takeWhile (!startsToken ·), startsToken d = false := by
    intro d hd
    simpa using List.all_eq_true.mp List.all_takeWhile d hd
  have hseek : c.seek = ⟨c.seek.position, '/' :: rest⟩ := by rw [← hrest]
  -- what is read as an error begins with a `/`, behind what no token begins with
  have hnext : c.next = next ⟨c.seek.position, '/' :: rest⟩ := by
    rw [next_of_startsToken (by decide), ← hseek]
    rfl
  have hslash := next_slash hdigits (head?_dropWhile rest) c.seek.position
  rw [List.takeWhile_append_dropWhile] at hslash
  rw [hnext, hslash] at h ⊢
  refine ⟨_, rest.takeWhile Char.isDigit, (passes_seek c).trans ⟨?_, rfl⟩, hskipped, hdigits,
    head?_dropWhile rest, ?_⟩
  · rw [hrest, List.cons_append, List.takeWhile_append_dropWhile]
  · cases hd : distance (c.seek.position + 1) (rest.takeWhile Char.isDigit) with
    | error e' =>
      rw [hd] at h
      obtain rfl : e' = e := Except.error.inj h
      exact hd
    | ok token =>
      rw [hd] at h
      cases h

/-! ## The end -/

theorem map_some_ne_none (x : Except Error Token) : x.map some ≠ .ok none := by
  intro h
  cases x with
  | error e => cases h
  | ok token => cases Except.ok.inj h

theorem read_eq_none (h : c.read.1 = .ok none) : c.rest = [] := by
  unfold read at h
  split at h
  · next hrest => exact hrest
  · next first rest hrest =>
    split at h
    · cases h
    split at h
    · cases h
    split at h
    · cases h
    split at h
    · exact absurd h (map_some_ne_none _)
    · cases h

theorem next_of_nil (h : c.rest = []) : c.next = (.ok none, c) := by
  obtain ⟨position, rest⟩ := c
  subst h
  rfl

theorem atEnd_iff : c.atEnd = true ↔ c.rest = [] := List.isEmpty_iff

/-- Where nothing is read, the cursor comes to the end. -/
theorem next_rest_of_none (h : c.next.1 = .ok none) : c.next.2.rest = [] := by
  have hseek := read_eq_none h
  have hread : c.seek.read = (.ok none, c.seek) := by
    unfold read
    rw [hseek]
  rw [next, hread, hseek]

/-! ## Many calls -/

/-- The cursor after so many calls. -/
def after (c : Cursor) : Nat → Cursor
  | 0 => c
  | n + 1 => (c.after n).next.2

theorem after_succ (c : Cursor) (n : Nat) : c.after (n + 1) = c.next.2.after n := by
  induction n with
  | zero => rfl
  | succ n ih =>
    rw [after, ih]
    rfl

theorem after_of_nil (h : c.rest = []) (n : Nat) : c.after n = c := by
  induction n with
  | zero => rfl
  | succ n ih => rw [after, ih, next_of_nil h]

/-- The calls come to the end, at the latest when there have been as many as there are characters,
and stay there. The induction is on the length of what is left. -/
theorem exists_end (c : Cursor) : ∃ n ≤ c.rest.length,
    (∀ m < n, (c.after m).next.1 ≠ .ok none) ∧
    ∀ m, n ≤ m → (c.after m).next.1 = .ok none ∧ (c.after (m + 1)).atEnd = true := by
  by_cases h : c.next.1 = .ok none
  · have hrest := next_rest_of_none h
    refine ⟨0, Nat.zero_le _, fun m hm => absurd hm (Nat.not_lt_zero m), fun m _ => ?_⟩
    rw [after_succ, after_of_nil hrest, atEnd_iff]
    refine ⟨?_, hrest⟩
    cases m with
    | zero => exact h
    | succ m => rw [after_succ, after_of_nil hrest, next_of_nil hrest]
  -- one call less is needed from the next cursor on
  · have hlt := next_length_lt h
    obtain ⟨n, hn, hbefore, hend⟩ := exists_end c.next.2
    refine ⟨n + 1, by omega, fun m hm => ?_, fun m hm => ?_⟩
    · cases m with
      | zero => exact h
      | succ m =>
        rw [after_succ]
        exact hbefore m (by omega)
    · obtain ⟨m, rfl⟩ : ∃ k, m = k + 1 := ⟨m - 1, by omega⟩
      rw [after_succ, after_succ]
      exact hend m (by omega)
termination_by c.rest.length

/-! ## Inside the query -/

/-- The cursor stands inside the query, in front of what is left of it. -/
structure Inside (query : String) (c : Cursor) : Prop where
  position_le : c.position ≤ query.length
  rest_eq : c.rest = query.toList.drop c.position

theorem inside_start (query : String) : (start query).Inside query where
  position_le := Nat.zero_le _
  rest_eq := rfl

theorem Inside.of_passes (h : c.Inside query) (hp : c.Passes text c') : c'.Inside query := by
  have hdrop : query.toList.drop c.position = text ++ c'.rest := h.rest_eq.symm.trans hp.rest_eq
  have hlength := congrArg List.length hdrop
  rw [List.length_drop, List.length_append, String.length_toList] at hlength
  have hle := h.position_le
  constructor
  · rw [hp.position_eq]
    omega
  · rw [hp.position_eq, ← List.drop_drop, hdrop, List.drop_left]

theorem Inside.next (h : c.Inside query) : c.next.2.Inside query := by
  obtain ⟨text, hpasses⟩ := exists_passes_next c
  exact h.of_passes hpasses

theorem Inside.after (h : c.Inside query) (n : Nat) : (c.after n).Inside query := by
  induction n with
  | zero => exact h
  | succ n ih => exact ih.next

theorem Inside.nextFrom_eq (h : c.Inside query) :
    nextFrom query.toList c.position = some (c.next.1, c.next.2.position) := by
  rw [Query.nextFrom_eq, ← h.rest_eq]

/-- However often the next token of a query is asked for, nothing is read outside of the query. Each
call that does not come to the end moves the cursor on, inside the query, and an error is passed
over with its `/` and all the digits behind it. After as many calls as there are characters, if not
before, the end is reached, and all further calls stay there. -/
theorem calls_exact (query : String) :
    (∀ n, let c := (start query).after n
      c.Inside query ∧
      nextFrom query.toList c.position = some (c.next.1, c.next.2.position) ∧
      (c.next.1 ≠ .ok none →
        c.position < c.next.2.position ∧ c.next.2.position ≤ query.length) ∧
      ∀ e, c.next.1 = .error e → ∃ skipped digits,
        c.Passes (skipped ++ '/' :: digits) c.next.2 ∧
        (∀ x ∈ skipped, startsToken x = false) ∧ (∀ x ∈ digits, x.isDigit = true) ∧
        (∀ x ∈ c.next.2.rest.head?, x.isDigit = false) ∧
        distance (c.position + skipped.length + 1) digits = .error e) ∧
    ∃ n ≤ query.length, (∀ m < n, ((start query).after m).next.1 ≠ .ok none) ∧
      ∀ m, n ≤ m → ((start query).after m).next.1 = .ok none ∧
        ((start query).after (m + 1)).atEnd = true := by
  constructor
  · intro n c
    have hinside : c.Inside query := (inside_start query).after n
    refine ⟨hinside, hinside.nextFrom_eq, fun h => ?_, fun e => passes_of_error⟩
    exact ⟨position_lt_next h, hinside.next.position_le⟩
  · have hend := exists_end (start query)
    rwa [start, String.length_toList] at hend

/-- A `/` without digits and one with too many, both passed over. -/
theorem calls_exact_faulty :
    let c := (start "a /b /4294967296").after
    (c 1).next.1 = .error (.missingDistance 3) ∧ (c 1).position < (c 2).position ∧
    (c 3).next.1 = .error (.distanceTooLarge "4294967296") ∧ (c 3).position < (c 4).position ∧
    ∃ n ≤ 16, ∀ m, n ≤ m → (c m).next.1 = .ok none ∧ (c (m + 1)).atEnd = true := by
  obtain ⟨hcalls, n, hn, -, hend⟩ := calls_exact "a /b /4294967296"
  obtain ⟨-, -, hmissing, -⟩ := hcalls 1
  obtain ⟨-, -, hlarge, -⟩ := hcalls 3
  have hfirst : ((start "a /b /4294967296").after 1).next.1 = .error (.missingDistance 3) := rfl
  have hsecond : ((start "a /b /4294967296").after 3).next.1 =
      .error (.distanceTooLarge "4294967296") := rfl
  refine ⟨hfirst, (hmissing ?_).1, hsecond, (hlarge ?_).1, n, hn, hend⟩
  · rw [hfirst]
    intro h
    cases h
  · rw [hsecond]
    intro h
    cases h

end Cursor
end Concordance.Query
