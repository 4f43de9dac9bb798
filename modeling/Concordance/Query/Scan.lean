import Concordance.Decimal.Digits
import Concordance.Query.Error
import Concordance.Query.Token
/-!
Reading tokens off a query. A `Cursor` stands at a place in the text; `Cursor.next` moves it past
one token, or past one malformed `/`, and so always forward (`Cursor.next_length_lt`).
-/
namespace Concordance.Query

/-- A place in a query: how many characters lie behind it, and the text ahead. -/
structure Cursor where
  position : Nat
  rest : List Char
  deriving DecidableEq, Repr

namespace Cursor

def start (query : String) : Cursor := ⟨0, query.toList⟩

def atEnd (c : Cursor) : Bool := c.rest.isEmpty

/-- Moves `n` characters on, or to the end where fewer are left. -/
def advance (c : Cursor) (n : Nat) : Cursor :=
  ⟨c.position + min n c.rest.length, c.rest.drop n⟩

/-- Moves to the next character that can begin a token. -/
def seek (c : Cursor) : Cursor :=
  ⟨c.position + (c.rest.takeWhile (!startsToken ·)).length, c.rest.dropWhile (!startsToken ·)⟩

/-- The distance that the digits after a `/` name, where `position` is the place after the `/`. -/
def distance (position : Nat) (digits : List Char) : Except Error Token :=
  if digits.isEmpty then .error (.missingDistance position)
  else
    let n := Decimal.natOfDigits digits
    if n < UInt32.size then .ok (.within (.ofNat n))
    else .error (.distanceTooLarge (String.ofList digits))

/-- Reads the token that begins at the cursor. A phrase runs to the next quote or, without one, to
the end. A `/` is read together with all digits after it, also where that is an error. -/
def read (c : Cursor) : Except Error (Option Token) × Cursor :=
  match c.rest with
  | [] => (.ok none, c)
  | first :: rest =>
    if first = '(' then (.ok (some .leftParen), c.advance 1)
    else if first = ')' then (.ok (some .rightParen), c.advance 1)
    else if first = '"' then
      let text := rest.takeWhile (· != '"')
      (.ok (some (.phrase (String.ofList text))), c.advance (text.length + 2))
    else if first = '/' then
      let digits := rest.takeWhile Char.isDigit
      ((distance (c.position + 1) digits).map some, c.advance (digits.length + 1))
    else
      let run := (first :: rest).takeWhile isQueryChar
      (.ok (some (Token.ofRun (String.ofList run))), c.advance run.length)

/-- Reads the next token, and `none` at the end of the query. -/
def next (c : Cursor) : Except Error (Option Token) × Cursor := c.seek.read

/-! ## The cursor moves forward and stays inside the query -/

theorem advance_length_lt {c : Cursor} {n : Nat} (hn : 0 < n) (hc : c.rest ≠ []) :
    (c.advance n).rest.length < c.rest.length := by
  have := List.length_pos_iff.2 hc
  simp [advance]
  omega

theorem seek_length_le (c : Cursor) : c.seek.rest.length ≤ c.rest.length :=
  (List.dropWhile_sublist _).length_le

theorem startsToken_of_seek {c : Cursor} {first : Char} {rest : List Char}
    (h : c.seek.rest = first :: rest) : startsToken first = true := by
  have := List.head?_dropWhile_not (!startsToken ·) c.rest
  rw [show c.rest.dropWhile (!startsToken ·) = first :: rest from h] at this
  simpa using this

/-- Where a token begins, reading takes at least one character. -/
theorem read_length_lt {c : Cursor} {first : Char} {rest : List Char} (h : c.rest = first :: rest)
    (hs : startsToken first = true) : c.read.2.rest.length < c.rest.length := by
  have hne : c.rest ≠ [] := by simp [h]
  unfold read
  split
  · contradiction
  · rename_i heq
    obtain ⟨rfl, rfl⟩ := List.cons.inj (heq.symm.trans h)
    split <;> rename_i h1
    · exact advance_length_lt (by omega) hne
    split <;> rename_i h2
    · exact advance_length_lt (by omega) hne
    split <;> rename_i h3
    · exact advance_length_lt (by omega) hne
    split <;> rename_i h4
    · exact advance_length_lt (by omega) hne
    · refine advance_length_lt ?_ hne
      simp only [startsToken, h1, h2, h3, h4, beq_iff_eq, Bool.or_eq_true, false_or] at hs
      simp [hs]

/-- A token, or an error, takes at least one character. -/
theorem next_length_lt {c : Cursor} (h : c.next.1 ≠ .ok none) :
    c.next.2.rest.length < c.rest.length := by
  cases hr : c.seek.rest with
  | nil => simp [next, read, hr] at h
  | cons first rest =>
    exact Nat.lt_of_lt_of_le (read_length_lt hr (startsToken_of_seek hr)) c.seek_length_le

/-- The tokens from the cursor to the end of the query, or the first error. -/
def tokens (c : Cursor) : Except Error (List Token) :=
  match h : c.next with
  | (.error e, _) => .error e
  | (.ok none, _) => .ok []
  | (.ok (some token), after) =>
    have : after.rest.length < c.rest.length := by
      simpa [h] using next_length_lt (c := c) (by simp [h])
    after.tokens.map (token :: ·)
termination_by c.rest.length

end Cursor

def tokens (query : String) : Except Error (List Token) := (Cursor.start query).tokens

end Concordance.Query
