import Concordance.Text.Occurrence
/-!
Queries. A query is a list of nodes, all of which a document has to satisfy. Every node carries a
negation of its own, which is never pushed into its operands.
-/
namespace Concordance.Query

/-- A condition that mentions words and no other condition. -/
inductive Leaf where
  | term (word : Term)
  /-- The words stand side by side in this order. -/
  | phrase (words : List Term)
  /-- The two words stand at most `distance` places apart, in either order. -/
  | proximity (left right : Term) (distance : UInt32)
  deriving DecidableEq, Repr

/-- A condition on documents. -/
inductive Node where
  | leaf (negated : Bool) (leaf : Leaf)
  /-- Some operand holds. -/
  | or (negated : Bool) (operands : List Node)
  /-- All children hold. -/
  | group (negated : Bool) (children : List Node)
  deriving Repr

namespace Node

mutual

def decEq : (a b : Node) → Decidable (a = b)
  | leaf a l, leaf b m =>
    if h : a = b ∧ l = m then isTrue (by rw [h.1, h.2])
    else isFalse fun e => h (by injection e; exact ⟨‹_›, ‹_›⟩)
  | or a ns, or b ms =>
    match decEqList ns ms with
    | isTrue hl =>
      if h : a = b then isTrue (by rw [h, hl]) else isFalse fun e => h (by injection e)
    | isFalse hl => isFalse fun e => hl (by injection e)
  | group a ns, group b ms =>
    match decEqList ns ms with
    | isTrue hl =>
      if h : a = b then isTrue (by rw [h, hl]) else isFalse fun e => h (by injection e)
    | isFalse hl => isFalse fun e => hl (by injection e)
  | leaf .., or .. | leaf .., group .. | or .., leaf .. | or .., group .. | group .., leaf ..
  | group .., or .. => isFalse (by simp)

def decEqList : (ns ms : List Node) → Decidable (ns = ms)
  | [], [] => isTrue rfl
  | n :: ns, m :: ms =>
    match decEq n m, decEqList ns ms with
    | isTrue h, isTrue hs => isTrue (by rw [h, hs])
    | isFalse h, _ => isFalse fun e => h (by injection e)
    | _, isFalse hs => isFalse fun e => hs (by injection e)
  | [], _ :: _ | _ :: _, [] => isFalse (by simp)

end

instance : DecidableEq Node := decEq

def negated : Node → Bool
  | leaf b _ | or b _ | group b _ => b

def withNegated (b : Bool) : Node → Node
  | leaf _ l => leaf b l
  | or _ operands => or b operands
  | group _ children => group b children

/-- The node, negated once more where `b` holds. -/
def negateIf (b : Bool) (node : Node) : Node := node.withNegated (node.negated ^^ b)

def negate (node : Node) : Node := node.negateIf true

def kindName : Node → String
  | leaf _ (.term _) => "term"
  | leaf _ (.phrase _) => "phrase"
  | leaf _ (.proximity ..) => "proximity"
  | or .. => "or"
  | group .. => "group"

end Node

/-! ## Rendering -/

def Leaf.render : Leaf → String
  | term word => word
  | phrase words => "\"" ++ " ".intercalate words ++ "\""
  | proximity left right distance => s!"{left} /{distance} {right}"

/-- The query text of a node. The operands of an `or` stand without parentheses. -/
def Node.render : Node → String
  | leaf b l => (if b then "NOT " else "") ++ l.render
  | or b operands => (if b then "NOT " else "") ++ " OR ".intercalate (operands.map render)
  | group b children =>
    (if b then "NOT " else "") ++ "(" ++ " AND ".intercalate (children.map render) ++ ")"

/-- The query text of a list of nodes. -/
def render (nodes : List Node) : String := " AND ".intercalate (nodes.map Node.render)

end Concordance.Query
