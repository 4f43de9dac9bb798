import Concordance.Query.Node
import Concordance.Query.Scan
/-!
From tokens to nodes, by recursion on ranges of tokens. Each range is a conjunction. What is read of
it so far is a `Draft`; the right-hand side of an `OR` and what stands in parentheses are ranges of
their own.

`OR` binds tighter than `AND`: its right-hand side reaches to the next `AND` outside of parentheses.
Units without an operator between them are joined as by `AND`. Missing operands of `AND` and `NOT`
and unmatched parentheses are no errors: a `(` without a `)` reaches to the end of its range, and a
`)` without a `(` is passed over.
-/
namespace Concordance.Query

/-- The word by which a query word is looked up: its first index word. -/
def normalize (text : String) : Term := (words text).headD ""

/-- The operands that the right-hand side of an `OR` contributes: those of a lone `OR`, a lone node
itself, and several nodes as one group. -/
def operandsOf : List Node → List Node
  | [.or false operands] => operands
  | [] => []
  | [node] => [node]
  | nodes => [.group false nodes]

/-- Without a right-hand side the node of an `OR` is the left one. -/
def orOf (left : Node) (right : List Node) : Node :=
  match operandsOf right with
  | [] => left
  | operands => .or false (left :: operands)

/-! ## Parentheses -/

/-- How many parentheses are open behind a token, where `opened` are open before it. -/
def Token.nest (opened : Nat) : Token → Nat
  | .leftParen => opened + 1
  | .rightParen => opened - 1
  | _ => opened

/-- The place of the first such token outside of parentheses, where `opened` are open before the
tokens. For a `)`, behind a `(`, this is the one that closes it. -/
def outside? (sought : Token) : Nat → List Token → Option Nat
  | _, [] => none
  | opened, token :: ts =>
    if token = sought ∧ opened = 0 then some 0
    else (outside? sought (token.nest opened) ts).map (· + 1)

/-! ## Conjunctions -/

/-- A conjunction of which not all has been read. -/
structure Draft where
  /-- The nodes that are complete. -/
  done : List Node := []
  /-- The unit that an `OR`, a `/k` or a `NOT` behind it can still take. -/
  last : Option Node := none
  /-- An odd number of `NOT`s waits for its unit. -/
  negate : Bool := false

namespace Draft

def unit? (d : Draft) : Option Node := d.last.map (·.negateIf d.negate)

def nodes (d : Draft) : List Node := d.done ++ d.unit?.toList

/-- Begins a new unit, for which the waiting negation is. -/
def push (d : Draft) (node : Node) : Draft :=
  { done := d.done ++ d.last.toList, last := node.withNegated d.negate }

/-- Ends the unit at hand at an `AND`. Without one, nothing happens. -/
def commit (d : Draft) : Draft :=
  match d.unit? with
  | some node => { done := d.done ++ [node] }
  | none => d

/-- The node of a `/k` with this token behind it. A `/k` takes the word at the end. -/
def within (d : Draft) (distance : UInt32) (next? : Option Token) : Except Error Node :=
  match d.unit? with
  | some (.leaf negated (.term left)) =>
    match next? with
    | some (.word right) => .ok (.leaf negated (.proximity left (normalize right) distance))
    | _ => .error (.withinWithoutRight distance)
  | _ => .error (.withinWithoutLeft distance)

/-- The nodes of a conjunction that goes on with these tokens and ends there. -/
def read (d : Draft) : List Token → Except Error (List Node)
  | [] => .ok d.nodes
  | .word text :: ts => read (d.push (.leaf false (.term (normalize text)))) ts
  | .phrase text :: ts => read (d.push (.leaf false (.phrase (words text)))) ts
  | .not :: ts => read { d with negate := !d.negate } ts
  | .and :: ts => read d.commit ts
  | .or :: ts =>
    match d.unit? with
    | none => .error .orWithoutLeft
    | some left => do
      let stop := (outside? .and 0 ts).getD ts.length
      let right ← read {} (ts.take stop)
      read { done := d.done, last := orOf left right } (ts.drop stop)
  | .within distance :: ts => do
    let node ← d.within distance ts.head?
    read { done := d.done, last := node } ts.tail
  | .leftParen :: ts => do
    let close := (outside? .rightParen 0 ts).getD ts.length
    let children ← read {} (ts.take close)
    read (d.push (.group false children)) (ts.drop (close + 1))
  | .rightParen :: ts => read d ts
termination_by ts => ts.length

end Draft

/-- The nodes of a list of tokens. -/
def ofTokens (tokens : List Token) : Except Error (List Node) := Draft.read {} tokens

/-- The nodes of a query. -/
def parse (query : String) : Except Error (List Node) := do
  ofTokens (← tokens query)

end Concordance.Query
