import Concordance.Proofs.Query.Recovery
/-!
`NOT`s in a row. Wherever no `/k` waits for its word, such a row counts by its parity and by nothing
else (`ofTokens_nots`), whatever takes up the negation behind it: the unit that begins next, the unit
before it at an `AND`, an `OR`, a `/k` or the end, or nothing at all. So two `NOT`s may be put in, or
left out, without a change to the nodes or to the error (`ofTokens_not_not`).
-/
namespace Concordance.Query

open State

namespace State

theorem reads_nots {s : State} (h : s.current.Ready) (nots : Nat) (ts : List Token) :
    s.reads (List.replicate nots .not ++ ts) = s.reads (List.replicate (nots % 2) .not ++ ts) := by
  obtain ⟨o, frames⟩ := s
  rw [reads_append, reads_append, run_nots nots h, run_nots (nots % 2) h, Nat.mod_mod]

end State

/-- Anywhere but directly behind a `/k`, a row of `NOT`s is read as one of them or none. -/
theorem ofTokens_nots (left right : List Token) (h : ∀ k, left.getLast? ≠ some (.within k))
    (nots : Nat) : ofTokens (left ++ (List.replicate nots .not ++ right)) =
      ofTokens (left ++ (List.replicate (nots % 2) .not ++ right)) := by
  have hsplit : ∀ us, ofTokens (left ++ us) = run {} left >>= fun s => s.reads us :=
    fun us => (ofTokens_eq _).trans (reads_append {} left us)
  rw [hsplit, hsplit]
  cases hrun : run {} left with
  | error e => rfl
  | ok s =>
    have hready : s.current.Ready := run_ready hrun (Open.ready_fresh [] false) h
    exact reads_nots hready nots right

/-- Two `NOT`s put in anywhere but directly behind a `/k` leave the query as it is: its nodes, or
its error. -/
theorem ofTokens_not_not (left right : List Token) (h : ∀ k, left.getLast? ≠ some (.within k)) :
    ofTokens (left ++ .not :: .not :: right) = ofTokens (left ++ right) :=
  ofTokens_nots left right h 2

/-- The two `NOT`s come behind a third one, which waits on the right-hand side of an `OR`, in a `(`
that nothing closes. -/
def waiting : List Token × List Token :=
  ([.not, .leftParen, .word "a", .or, .phrase "b c", .not], [.and, .word "d", .within 2, .word "e"])

theorem ofTokens_not_not_waiting : (∀ k, waiting.1.getLast? ≠ some (.within k)) ∧
    ofTokens (waiting.1 ++ .not :: .not :: waiting.2) = ofTokens (waiting.1 ++ waiting.2) ∧
    ofTokens (waiting.1 ++ waiting.2) = .ok [.group true [
      .or false [.leaf false (.term "a"), .leaf true (.phrase ["b", "c"])],
      .leaf false (.proximity "d" "e" 2)]] := by
  have h : ∀ k, waiting.1.getLast? ≠ some (.within k) := by
    intro k hk
    cases hk
  exact ⟨h, ofTokens_not_not waiting.1 waiting.2 h, (ofTokens_eq _).trans rfl⟩

/-- Directly behind a `/k`, a `NOT` is in the way of the word. -/
example : ofTokens [.word "d", .within 2, .not, .not, .word "e"] = .error (.withinWithoutRight 2) :=
  (ofTokens_eq _).trans rfl

end Concordance.Query
