import Concordance.Ascending
import Concordance.Document
import Concordance.Text.Blank
import Concordance.Text.Pieces
/-!
The words of a text and their positions. A text is cut at its blanks, and each piece gives its
first run of word characters, in lower case. A piece without one gives no word and takes no
position.
-/
namespace Concordance

/-- A word as the index stores it. -/
abbrev Term := String

/-- Index words are made of ASCII letters and digits and the apostrophe. -/
def isWordChar (c : Char) : Bool := c.isAlphanum || c == '\''

/-- The first run of word characters in a piece of text, in lower case. -/
def firstWord? (piece : List Char) : Option Term :=
  match (piece.dropWhile (!isWordChar ·)).takeWhile isWordChar with
  | [] => none
  | run => some (String.ofList (run.map Char.toLower))

/-- The words of a text, in order. -/
def words (text : String) : List Term :=
  (pieces isBlank text.toList).filterMap firstWord?

/-- A word at its place in a text. -/
structure Occurrence where
  term : Term
  position : Position
  deriving DecidableEq, Repr

/-- The words of a text, numbered from zero in steps of one. -/
def occurrences (text : String) : List Occurrence :=
  (words text).zipIdx.map fun (term, i) => ⟨term, .ofNat i⟩

/-- The distinct words of a list, ascending, each with the number of times it stands there. -/
def counts (terms : List Term) : List (Term × UInt32) :=
  (ascending terms).map fun term => (term, .ofNat (terms.count term))

end Concordance
