import Concordance.Ascending
import Concordance.Document
/-!
Ranked documents. A better score comes first, and of two documents with the same score the one with
the smaller id. Scores are compared by a total order on all doubles, in which the two zeros differ
and every NaN has a place of its own.
-/
namespace Concordance

/-- A double, kept by its bits, so that no two NaNs are taken for one. -/
structure Score where
  bits : UInt64
  deriving DecidableEq, Repr

namespace Score

def ofFloat (x : Float) : Score := ⟨x.toBits⟩

def toFloat (s : Score) : Float := .ofBits s.bits

instance : Coe Float Score := ⟨ofFloat⟩

instance : Coe Score Float := ⟨toFloat⟩

/-- The place of a score in the total order: the bits of a negative one count downwards, below
those of all others. -/
def key (s : Score) : Nat :=
  let bits := s.bits.toNat
  if bits < 1 <<< 63 then (1 <<< 63) + bits else UInt64.size - 1 - bits

end Score

structure Ranked where
  doc : DocId
  score : Score
  deriving DecidableEq, Repr

/-- The order of ranks: the higher score first, and of two equal scores the smaller id. -/
def Ranked.order : Ranked → Ranked → Ordering :=
  compareLex (fun a b => compare b.score.key a.score.key) (compareOn doc)

def rank (results : List Ranked) : List Ranked := inOrder Ranked.order results

/-! ## The best of many

The best documents seen so far are kept in a queue that holds the worst of them in front. -/

def Ranked.enqueue (r : Ranked) : List Ranked → List Ranked
  | [] => [r]
  | s :: rest => if s.order r = .lt then r :: s :: rest else s :: enqueue r rest

/-- Offers a document to a queue for `k` of them. In a full queue it takes the place of the worst
one, if it is ranked before that. -/
def Ranked.offer (k : Nat) (queue : List Ranked) (r : Ranked) : List Ranked :=
  if queue.length < k then r.enqueue queue
  else match queue with
    | [] => []
    | worst :: rest => if r.order worst = .lt then r.enqueue rest else worst :: rest

/-- The `k` best documents, in the order of their ranks. -/
def best (k : Nat) (results : List Ranked) : List Ranked :=
  (results.foldl (Ranked.offer k) []).reverse

/-! ## Memory

Memory for the whole queue is asked for before the first document is looked at. -/

/-- How much memory there is for one request, in bytes. -/
structure Memory where
  limit : Nat

/-- A request for so many bytes that is not met. -/
structure Shortage where
  bytes : Nat
  deriving DecidableEq, Repr

/-- What a queue for `k` documents asks for: 16 bytes for each, and for one more. Documents are
counted in 64 bits, and the count wraps around, as it does where overflow is not checked. -/
def queueSize (k : Nat) : Nat := (k + 1) % UInt64.size * 16

/-- Whether there is room for a queue for `k` documents. No request may be larger than the greatest
signed number of 64 bits. Nothing is asked for where no document is wanted. -/
def Memory.HasRoom (memory : Memory) (k : Nat) : Prop :=
  k = 0 ∨ queueSize k < 1 <<< 63 ∧ queueSize k ≤ memory.limit

instance (memory : Memory) : DecidablePred memory.HasRoom :=
  fun _ => inferInstanceAs (Decidable (_ ∨ _))

/-- The `k` best documents, where there is room for them. -/
def topK (memory : Memory) (k : Nat) (results : List Ranked) : Except Shortage (List Ranked) :=
  if memory.HasRoom k then .ok (best k results) else .error ⟨queueSize k⟩

/-- All documents in order, or only the `k` best. -/
def rankUpTo (memory : Memory) : Option Nat → List Ranked → Except Shortage (List Ranked)
  | none, results => .ok (rank results)
  | some k, results => topK memory k results

end Concordance
