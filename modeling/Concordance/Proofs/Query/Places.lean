import Concordance.Proofs.Query.Lexing
/-!
Reading by places. A cursor holds the text that is left, and so has nothing to read beyond it.
`nextFrom` reads the same tokens from the whole text, by the numbers of its places: a character is
asked for at a place, and at places behind the text there is none. Main statement: such a place is
never asked for, and what is read is what the cursor reads (`nextFrom_eq`). Everything rests on the
one loop that the readers of runs share (`stopFrom_eq`).
-/
namespace Concordance.Query

/-- The place from `i` on at which `p` holds no more, or the end. There is no result if a character
is read that the text does not have. -/
def stopFrom (p : Char → Bool) (text : List Char) (i : Nat) : Option { j // i ≤ j } :=
  if i < text.length then do
    let c ← text[i]?
    if p c then
      let ⟨j, hj⟩ ← stopFrom p text (i + 1)
      return ⟨j, Nat.le_of_succ_le hj⟩
    else return ⟨i, Nat.le_refl i⟩
  else return ⟨i, Nat.le_refl i⟩
termination_by text.length - i

def segment (text : List Char) (i j : Nat) : List Char := (text.drop i).take (j - i)

/-- Reads the next token from place `i` on, and says at which place reading goes on. There is no
result if a character is read that the text does not have. -/
def nextFrom (text : List Char) (i : Nat) : Option (Except Error (Option Token) × Nat) := do
  let ⟨i, _⟩ ← stopFrom isBlank text i
  if text.length ≤ i then return (.ok none, i)
  let first ← text[i]?
  if first = '(' then return (.ok (some .leftParen), i + 1)
  else if first = ')' then return (.ok (some .rightParen), i + 1)
  else if first = '"' then
    let ⟨j, _⟩ ← stopFrom (· != '"') text (i + 1)
    return (.ok (some (.phrase (String.ofList (segment text (i + 1) j)))),
      if j < text.length then j + 1 else j)
  else if first = '/' then
    let ⟨j, _⟩ ← stopFrom Char.isDigit text (i + 1)
    return ((Cursor.distance (i + 1) (segment text (i + 1) j)).map some, j)
  else if isQueryChar first then
    let ⟨j, _⟩ ← stopFrom isQueryChar text i
    return (.ok (some (Token.ofRun (String.ofList (segment text i j)))), j)
  else nextFrom text (i + 1)
termination_by text.length - i

/-! ## One loop -/

theorem stopFrom_eq (p : Char → Bool) (text : List Char) (i : Nat) :
    stopFrom p text i = some ⟨i + ((text.drop i).takeWhile p).length, Nat.le_add_right _ _⟩ := by
  rw [stopFrom]
  split
  · next h =>
    have ih := stopFrom_eq p text (i + 1)
    have hrest := List.drop_eq_getElem_cons h
    rw [List.getElem?_eq_getElem h, Option.bind_eq_bind, Option.bind_some]
    split
    · next hp =>
      have htake : (text.drop i).takeWhile p = text[i] :: (text.drop (i + 1)).takeWhile p := by
        rw [hrest, List.takeWhile_cons_of_pos hp]
      simp only [ih, htake, List.length_cons, Nat.add_assoc, Nat.add_comm 1]
      rfl
    · next hp =>
      have htake : (text.drop i).takeWhile p = [] := by
        rw [hrest, List.takeWhile_cons_of_neg hp]
      simp only [htake, List.length_nil, Nat.add_zero]
      rfl
  · next h =>
    have htake : (text.drop i).takeWhile p = [] := by
      rw [List.drop_eq_nil_of_le (Nat.not_lt.mp h), List.takeWhile_nil]
    simp only [htake, List.length_nil, Nat.add_zero]
    rfl
termination_by text.length - i

theorem segment_stop {text rest : List Char} {i : Nat} (h : text.drop i = rest) (p : Char → Bool) :
    segment text i (i + (rest.takeWhile p).length) = rest.takeWhile p := by
  rw [segment, Nat.add_sub_cancel_left, h]
  exact (List.prefix_iff_eq_take.mp (List.takeWhile_prefix p)).symm

theorem drop_stop (p : Char → Bool) (text : List Char) (i : Nat) :
    text.drop (i + ((text.drop i).takeWhile p).length) = (text.drop i).dropWhile p := by
  rw [← List.drop_drop]
  generalize text.drop i = rest
  calc rest.drop (rest.takeWhile p).length
      = (rest.takeWhile p ++ rest.dropWhile p).drop (rest.takeWhile p).length := by
        rw [List.takeWhile_append_dropWhile]
    _ = rest.dropWhile p := List.drop_left

/-! ## One token -/

theorem Cursor.next_blanks (position : Nat) (text : List Char) : next ⟨position, text⟩ =
    next ⟨position + (text.takeWhile isBlank).length, text.dropWhile isBlank⟩ := by
  induction text generalizing position with
  | nil => rfl
  | cons c text ih =>
    cases hc : isBlank c with
    | false =>
      rw [List.takeWhile_cons_of_neg (by simp [hc]), List.dropWhile_cons_of_neg (by simp [hc])]
      rfl
    | true =>
      rw [List.takeWhile_cons_of_pos hc, List.dropWhile_cons_of_pos hc,
        next_separator (startsToken_of_isBlank hc), ih, List.length_cons, Nat.add_assoc,
        Nat.add_comm 1]

theorem ahead_of_drop {text : List Char} {i : Nat} {first : Char} {rest : List Char}
    (h : text.drop i = first :: rest) : text[i]? = some first ∧ text.drop (i + 1) = rest ∧
      text.length = i + 1 + rest.length := by
  have hlength := congrArg List.length h
  rw [List.length_drop, List.length_cons] at hlength
  refine ⟨?_, ?_, by omega⟩
  · rw [← List.head?_drop, h, List.head?_cons]
  · rw [← List.drop_drop, h, List.drop_succ_cons, List.drop_zero]

/-- Reading by places never leaves the text, and reads what the cursor reads. -/
theorem nextFrom_eq (text : List Char) (i : Nat) : nextFrom text i =
    some ((Cursor.next ⟨i, text.drop i⟩).1, (Cursor.next ⟨i, text.drop i⟩).2.position) := by
  rw [Cursor.next_blanks, ← drop_stop, nextFrom, stopFrom_eq]
  simp only [Option.bind_eq_bind, Option.bind_some]
  have hle : i ≤ i + ((text.drop i).takeWhile isBlank).length := Nat.le_add_right _ _
  generalize i + ((text.drop i).takeWhile isBlank).length = place at hle
  -- the blanks are passed over in both; from here on the first character decides
  cases hrest : text.drop place with
  | nil =>
    rw [if_pos (List.drop_eq_nil_iff.mp hrest)]
    rfl
  | cons first rest =>
    obtain ⟨hfirst, hbehind, hlength⟩ := ahead_of_drop hrest
    rw [if_neg (by omega), hfirst, Option.bind_some]
    by_cases hleft : first = '('
    · rw [if_pos hleft, hleft, Cursor.next_leftParen]
      rfl
    by_cases hright : first = ')'
    · rw [if_neg hleft, if_pos hright, hright, Cursor.next_rightParen]
      rfl
    by_cases hquote : first = '"'
    · have hle := (List.takeWhile_sublist (· != '"') (l := rest)).length_le
      subst hquote
      rw [if_neg hleft, if_neg hright, if_pos rfl, stopFrom_eq, Option.bind_some,
        Cursor.next_of_startsToken (by decide)]
      simp only [hbehind, segment_stop hbehind, Cursor.read, hleft, hright, if_false, if_true]
      refine congrArg some (Prod.ext rfl ?_)
      simp only [Cursor.advance, List.length_cons]
      split <;> omega
    by_cases hslash : first = '/'
    · have hle := (List.takeWhile_sublist Char.isDigit (l := rest)).length_le
      subst hslash
      rw [if_neg hleft, if_neg hright, if_neg hquote, if_pos rfl, stopFrom_eq, Option.bind_some,
        Cursor.next_of_startsToken (by decide)]
      simp only [hbehind, segment_stop hbehind, Cursor.read, hleft, hright, hquote, if_false,
        if_true]
      refine congrArg some (Prod.ext rfl ?_)
      simp only [Cursor.advance, List.length_cons]
      omega
    by_cases hquery : isQueryChar first = true
    · have hle := (List.takeWhile_sublist isQueryChar (l := first :: rest)).length_le
      rw [if_neg hleft, if_neg hright, if_neg hquote, if_neg hslash, if_pos hquery, stopFrom_eq,
        Option.bind_some, Cursor.next_of_startsToken (startsToken_of_isQueryChar hquery)]
      simp only [hrest, segment_stop hrest, Cursor.read, hleft, hright, hquote, hslash, if_false]
      refine congrArg some (Prod.ext rfl ?_)
      simp only [Cursor.advance]
      omega
    -- no token begins here, and reading goes on one place further
    · have hstart : startsToken first = false := by
        simpa [startsToken, hleft, hright, hquote, hslash] using hquery
      rw [if_neg hleft, if_neg hright, if_neg hquote, if_neg hslash, if_neg hquery, nextFrom_eq,
        Cursor.next_separator hstart, hbehind]
termination_by text.length - i

end Concordance.Query
