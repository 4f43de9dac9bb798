import Concordance.Index.Posting
import Concordance.Runs
/-!
Occurrences of two terms near each other. Both lists of postings are walked once; in a document
with both terms a window slides over the positions of the right-hand term.
-/
namespace Concordance

/-- The last position that is at most `k` places behind `p`. No position is behind the largest. -/
def reach (p : Position) (k : UInt32) : Position :=
  .ofNat (min (p.toNat + k.toNat) (UInt32.size - 1))

/-- Where the right-hand occurrence may stand. -/
inductive Side where
  | following
  | either
  deriving DecidableEq, Repr

def Side.allows : Side → Position → Position → Bool
  | following, left, right => left < right
  | either, _, _ => true

/-- A window that slides over the right-hand positions. What it has left behind is gone. -/
structure Window where
  /-- The positions in the window. They come in at its end and leave it at its front. -/
  inside : List Position
  /-- The positions that it has not come to. -/
  ahead : List Position
  deriving DecidableEq, Repr

namespace Window

/-- Takes in what a left-hand position reaches. -/
def takeIn (k : UInt32) (a : Position) (w : Window) : Window where
  inside := w.inside ++ w.ahead.takeWhile (· ≤ reach a k)
  ahead := w.ahead.dropWhile (· ≤ reach a k)

/-- Lets go of what does not reach a left-hand position. -/
def letGo (k : UInt32) (a : Position) (w : Window) : Window :=
  { w with inside := w.inside.dropWhile (reach · k < a) }

/-- Moves the window on to a left-hand position. -/
def moveTo (k : UInt32) (a : Position) (w : Window) : Window := (w.takeIn k a).letGo k a

/-- Each of the left-hand positions with each position that is in the window then. -/
def pairs (side : Side) (k : UInt32) (w : Window) : List Position → List (Position × Position)
  | [] => []
  | a :: left =>
    let next := w.moveTo k a
    (next.inside.filter (side.allows a)).map (a, ·) ++ next.pairs side k left

end Window

/-- The pairs of near positions of one document. -/
def nearPairs (side : Side) (k : UInt32) (left right : List Position) :
    List (Position × Position) :=
  Window.pairs side k ⟨[], right⟩ left

/-- The postings of the documents that occur in both lists, side by side. -/
def joinDocs : List Posting → List Posting → List (Posting × Posting)
  | l :: ls, r :: rs =>
    if l.doc < r.doc then joinDocs ls (r :: rs)
    else if r.doc < l.doc then joinDocs (l :: ls) rs
    else (l, r) :: joinDocs ls rs
  | [], _ => []
  | _, [] => []
termination_by ls rs => ls.length + rs.length

/-- An occurrence of one term and a near occurrence of another in the same document. -/
structure Match where
  doc : DocId
  left : Position
  right : Position
  deriving DecidableEq, Repr

def nearMatches (side : Side) (k : UInt32) (left right : List Posting) : List Match :=
  (joinDocs left right).flatMap fun (l, r) =>
    (nearPairs side k l.positions r.positions).map fun (a, b) => ⟨l.doc, a, b⟩

/-- The left-hand occurrences that have a right-hand occurrence near them. Where one has several,
their pairs stand together. -/
def nearPostings (side : Side) (k : UInt32) (left right : List Posting) : List Posting :=
  (joinDocs left right).filterMap fun (l, r) =>
    let found := (runs (nearPairs side k l.positions r.positions)).map (·.1)
    if found.isEmpty then none else some ⟨l.doc, found⟩

end Concordance
