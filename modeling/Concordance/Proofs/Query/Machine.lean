import Concordance.Query.Parse
/-!
The parser as a machine that reads its tokens once, from left to right. What has been read of the
conjunction at hand is an `Open`; the conjunctions around it, each suspended at an `OR` or at a `(`,
wait on a stack of `Frame`s. No token is looked up ahead: an `AND` ends the right-hand sides of `OR`
that are open at its nesting, and a `)` ends what the nearest `(` began.

The proofs about the parser are proofs about runs of this machine, one token after the other.
`ofTokens_eq` says that it reads all lists of tokens as the recursion on ranges does.
-/
namespace Concordance.Query

/-- What the conjunction at hand ends in. -/
inductive Last where
  | nothing
  /-- A unit that an `OR`, a `/k` or a `NOT` behind it can still take. -/
  | unit (node : Node)
  /-- A word and a `/k` that waits for the word on its right. -/
  | within (negated : Bool) (left : Term) (distance : UInt32)
  deriving Repr

/-- A conjunction of which not all has been read. -/
structure Open where
  /-- The nodes that are complete. -/
  done : List Node := []
  last : Last := .nothing
  /-- An odd number of `NOT`s waits for its unit. -/
  negate : Bool := false
  deriving Repr

/-- A conjunction that waits for another one inside it to end. -/
inductive Frame where
  /-- The conjunction inside is the right-hand side of an `OR`. -/
  | operand (done : List Node) (left : Node)
  /-- The conjunction inside stands in parentheses. -/
  | paren (done : List Node) (negated : Bool)
  deriving Repr

namespace Open

def unit? (o : Open) : Option Node :=
  match o.last with
  | .unit node => some (node.negateIf o.negate)
  | _ => none

def nodes (o : Open) : List Node := o.done ++ o.unit?.toList

/-- The complete nodes once another unit begins. The waiting negation is for that unit. -/
def flushed (o : Open) : List Node :=
  match o.last with
  | .unit node => o.done ++ [node]
  | _ => o.done

def push (o : Open) (node : Node) : Open :=
  { done := o.flushed, last := .unit (node.withNegated o.negate) }

/-- Ends the unit at hand at an `AND`. Without one, nothing happens. -/
def commit (o : Open) : Open :=
  match o.unit? with
  | some node => { done := o.done ++ [node] }
  | none => o

end Open

def Frame.close : Frame → List Node → Open
  | operand done left, nodes => { done, last := .unit (orOf left nodes) }
  | paren done negated, nodes => { done, last := .unit (.group negated nodes) }

/-- The state of the parser: the conjunction at hand and those around it, the nearest first. -/
structure State where
  current : Open := {}
  frames : List Frame := []
  deriving Repr

/-- Ends the right-hand sides that are open at this nesting. -/
def settle : Open → List Frame → Open × List Frame
  | o, .operand done left :: frames => settle ((Frame.operand done left).close o.nodes) frames
  | o, frames => (o, frames)

namespace State

def step (s : State) (token : Token) : Except Error State :=
  let ⟨o, frames⟩ := s
  match o.last, token with
  | .within negated left distance, .word text =>
    .ok { s with current.last := .unit (.leaf negated (.proximity left (normalize text) distance)) }
  | .within _ _ distance, _ => .error (.withinWithoutRight distance)
  | _, .word text => .ok { s with current := o.push (.leaf false (.term (normalize text))) }
  | _, .phrase text => .ok { s with current := o.push (.leaf false (.phrase (words text))) }
  | _, .not => .ok { s with current.negate := !o.negate }
  | _, .and =>
    let (o, frames) := settle o frames
    .ok ⟨o.commit, frames⟩
  | _, .or =>
    match o.unit? with
    | some left => .ok ⟨{}, .operand o.done left :: frames⟩
    | none => .error .orWithoutLeft
  | _, .within distance =>
    match o.unit? with
    | some (.leaf negated (.term left)) =>
      .ok ⟨{ done := o.done, last := .within negated left distance }, frames⟩
    | _ => .error (.withinWithoutLeft distance)
  | _, .leftParen => .ok ⟨{}, .paren o.flushed o.negate :: frames⟩
  | _, .rightParen =>
    match settle o frames with
    | (inner, .paren done negated :: outer) =>
      .ok ⟨(Frame.paren done negated).close inner.nodes, outer⟩
    | _ => .ok s

def run (s : State) (tokens : List Token) : Except Error State := tokens.foldlM step s

def closeAll : Open → List Frame → List Node
  | o, [] => o.nodes
  | o, frame :: frames => closeAll (frame.close o.nodes) frames

def finish (s : State) : Except Error (List Node) :=
  match s.current.last with
  | .within _ _ distance => .error (.withinWithoutRight distance)
  | _ => .ok (closeAll s.current s.frames)

end State

end Concordance.Query
