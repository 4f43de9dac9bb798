import Concordance.Proofs.Query.Reading
/-!
The grammar of queries. A derivation has tokens and nodes, both by recursion on it, and
`ofTokens_tokens` says that the parser takes the one to the other. So every query of the grammar is
read, and read in one way: `OR` binds tighter than `AND`, a row of `NOT`s counts by its parity, and
what stands in parentheses stays one node.
-/
namespace Concordance.Query.Grammar

mutual

/-- `query := and_expr (AND and_expr)*` -/
inductive Conjunction where
  | last (conjunct : Conjunct)
  | and (conjunct : Conjunct) (rest : Conjunction)

/-- `and_expr := NOT* unit [OR and_expr]` -/
inductive Conjunct where
  | last (nots : Nat) (atom : Atom)
  | or (nots : Nat) (atom : Atom) (rest : Conjunct)

/-- `unit := TERM | TERM /k TERM | PHRASE | '(' query ')'` -/
inductive Atom where
  | word (text : String)
  | proximity (left : String) (distance : UInt32) (right : String)
  | phrase (text : String)
  | paren (query : Conjunction)

end

/-! ## The tokens of a derivation -/

mutual

def Conjunction.tokens : Conjunction → List Token
  | .last conjunct => conjunct.tokens
  | .and conjunct rest => conjunct.tokens ++ .and :: rest.tokens

def Conjunct.tokens : Conjunct → List Token
  | .last nots atom => List.replicate nots .not ++ atom.tokens
  | .or nots atom rest => (List.replicate nots .not ++ atom.tokens) ++ .or :: rest.tokens

def Atom.tokens : Atom → List Token
  | .word text => [.word text]
  | .proximity left distance right => [.word left, .within distance, .word right]
  | .phrase text => [.phrase text]
  | .paren query => .leftParen :: query.tokens ++ [.rightParen]

end

/-! ## The nodes of a derivation -/

mutual

def Conjunction.nodes : Conjunction → List Node
  | .last conjunct => [conjunct.node]
  | .and conjunct rest => conjunct.node :: rest.nodes

/-- A conjunct without `OR` is its unit. All others are one `or`, which is not negated itself. -/
def Conjunct.node : Conjunct → Node
  | .last nots atom => atom.node (nots % 2 == 1)
  | .or nots atom rest => .or false (atom.node (nots % 2 == 1) :: rest.operands)

/-- The units of a conjunct in order, each negated if its own `NOT`s are odd in number. -/
def Conjunct.operands : Conjunct → List Node
  | .last nots atom => [atom.node (nots % 2 == 1)]
  | .or nots atom rest => atom.node (nots % 2 == 1) :: rest.operands

/-- The node of a unit. Its words are those that the index would store. -/
def Atom.node (negated : Bool) : Atom → Node
  | .word text => .leaf negated (.term (normalize text))
  | .proximity left distance right =>
    .leaf negated (.proximity (normalize left) (normalize right) distance)
  | .phrase text => .leaf negated (.phrase (words text))
  | .paren query => .group negated query.nodes

end

theorem Atom.isOr_node (negated : Bool) (atom : Atom) : (atom.node negated).isOr = false := by
  cases atom <;> simp only [Atom.node] <;> rfl

theorem Atom.withNegated_node (a b : Bool) (atom : Atom) :
    (atom.node a).withNegated b = atom.node b := by
  cases atom <;> simp only [Atom.node] <;> rfl

/-- To the right of an `OR` a conjunct gives its operands, not its node. -/
theorem Conjunct.orOf_node (left : Node) (conjunct : Conjunct) :
    orOf left [conjunct.node] = .or false (left :: conjunct.operands) := by
  cases conjunct with
  | last nots atom =>
    simp only [Conjunct.node, Conjunct.operands]
    exact orOf_single left (atom.isOr_node _)
  | or nots atom rest =>
    simp only [Conjunct.node, Conjunct.operands]
    exact orOf_or left (List.cons_ne_nil _ _)

/-- An atom behind its `NOT`s. -/
theorem Atom.isOperand {atom : Atom} (h : IsUnit atom.tokens (atom.node false)) (nots : Nat) :
    IsOperand (List.replicate nots .not ++ atom.tokens) (atom.node (nots % 2 == 1)) := by
  have ho := IsOperand.nots h nots
  rwa [Atom.withNegated_node] at ho

mutual

theorem Conjunction.isConjunction : ∀ query : Conjunction,
    IsConjunction query.tokens query.nodes
  | .last conjunct => by
    simp only [Conjunction.tokens, Conjunction.nodes]
    exact IsConjunction.conjunct conjunct.isConjunct
  | .and conjunct rest => by
    simp only [Conjunction.tokens, Conjunction.nodes]
    exact IsConjunction.and conjunct.isConjunct rest.isConjunction

theorem Conjunct.isConjunct : ∀ conjunct : Conjunct, IsConjunct conjunct.tokens conjunct.node
  | .last nots atom => by
    simp only [Conjunct.tokens, Conjunct.node]
    exact IsConjunct.operand (Atom.isOperand atom.isUnit nots)
  | .or nots atom rest => by
    -- the operands of the rest join the atom
    have h := IsConjunct.or (Atom.isOperand atom.isUnit nots) rest.isConjunct
    rw [Conjunct.orOf_node] at h
    simpa only [Conjunct.tokens, Conjunct.node] using h

theorem Atom.isUnit : ∀ atom : Atom, IsUnit atom.tokens (atom.node false)
  | .word text => by
    simp only [Atom.tokens, Atom.node]
    exact IsUnit.word text
  | .proximity left distance right => by
    simp only [Atom.tokens, Atom.node]
    exact IsUnit.proximity left right distance
  | .phrase text => by
    simp only [Atom.tokens, Atom.node]
    exact IsUnit.phrase text
  | .paren query => by
    simp only [Atom.tokens, Atom.node]
    exact IsUnit.paren query.isConjunction

end

/-- The tokens of a derivation are read as its nodes. -/
theorem ofTokens_tokens (query : Conjunction) : ofTokens query.tokens = .ok query.nodes :=
  ofTokens_of_isConjunction query.isConjunction

end Concordance.Query.Grammar
