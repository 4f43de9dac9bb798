import Concordance.Proofs.Query.Descent
/-!
No word of a query is lost, repeated or moved. The leaves of the nodes, read from left to right,
mention exactly what the word and phrase tokens mention, in their order (`ofTokens_mentions`).

On its way into the result a unit passes through many hands: the conjunction at hand, the left side
of an `OR`, a `/k` that waits, the stack. The invariant reads all of them in one order, the
outermost conjunction first, and every step adds to the end of this reading what its token mentions.
-/
namespace Concordance.Query

/-- What stands at one place of a query: a word that is looked up on its own, or a phrase. -/
inductive Mention where
  | word (word : Term)
  | phrase (words : List Term)
  deriving DecidableEq, Repr

/-- What a token mentions, in the words that the index would store. -/
def Token.mention? : Token → Option Mention
  | .word text => some (.word (normalize text))
  | .phrase text => some (.phrase (words text))
  | _ => none

def Leaf.mentions : Leaf → List Mention
  | .term word => [.word word]
  | .phrase words => [.phrase words]
  | .proximity left right _ => [.word left, .word right]

def Node.mentions : Node → List Mention
  | .leaf _ l => l.mentions
  | .or _ operands => operands.flatMap mentions
  | .group _ children => children.flatMap mentions

def mentions (nodes : List Node) : List Mention := nodes.flatMap Node.mentions

@[simp] theorem mentions_nil : mentions [] = [] := rfl

@[simp] theorem mentions_cons (node : Node) (nodes : List Node) :
    mentions (node :: nodes) = node.mentions ++ mentions nodes := rfl

@[simp] theorem mentions_append (nodes others : List Node) :
    mentions (nodes ++ others) = mentions nodes ++ mentions others := by
  simp [mentions]

@[simp] theorem Node.mentions_leaf (negated : Bool) (leaf : Leaf) :
    (Node.leaf negated leaf).mentions = leaf.mentions := by
  rw [Node.mentions]

@[simp] theorem Node.mentions_or (negated : Bool) (operands : List Node) :
    (Node.or negated operands).mentions = Query.mentions operands := by
  rw [Node.mentions, Query.mentions]

@[simp] theorem Node.mentions_group (negated : Bool) (children : List Node) :
    (Node.group negated children).mentions = Query.mentions children := by
  rw [Node.mentions, Query.mentions]

@[simp] theorem Node.mentions_withNegated (b : Bool) (node : Node) :
    (node.withNegated b).mentions = node.mentions := by
  cases node <;> simp [withNegated]

@[simp] theorem Node.mentions_negateIf (b : Bool) (node : Node) :
    (node.negateIf b).mentions = node.mentions :=
  mentions_withNegated _ _

/-! ## The node of an `OR` -/

theorem mentions_operandsOf (nodes : List Node) : mentions (operandsOf nodes) = mentions nodes := by
  unfold operandsOf
  split <;> simp

/-- The left operand comes first. -/
theorem mentions_orOf (left : Node) (right : List Node) :
    (orOf left right).mentions = left.mentions ++ mentions right := by
  have hright := mentions_operandsOf right
  unfold orOf
  split
  · next hnil =>
    rw [hnil] at hright
    simp [← hright]
  · simp [hright]

/-! ## The invariant -/

def Last.mentions : Last → List Mention
  | .nothing => []
  | .unit node => node.mentions
  | .within _ left _ => [.word left]

def Open.mentions (o : Open) : List Mention := Query.mentions o.done ++ o.last.mentions

def Frame.mentions : Frame → List Mention
  | .operand done left => Query.mentions done ++ left.mentions
  | .paren done _ => Query.mentions done

/-- What has been read before the conjunction at hand, the outermost conjunction first. -/
def behind : List Frame → List Mention
  | [] => []
  | frame :: frames => behind frames ++ frame.mentions

def State.mentions (s : State) : List Mention := behind s.frames ++ s.current.mentions

section
variable {o : Open} {frames : List Frame}

@[simp] theorem Open.mentions_unit (done : List Node) (node : Node) (negate : Bool) :
    (Open.mk done (.unit node) negate).mentions = Query.mentions done ++ node.mentions := rfl

@[simp] theorem Open.mentions_nothing (done : List Node) (negate : Bool) :
    (Open.mk done .nothing negate).mentions = Query.mentions done :=
  List.append_nil _

theorem Open.Ready.mentions_nodes (h : o.Ready) : Query.mentions o.nodes = o.mentions := by
  rcases h.cases with ⟨done, negate, rfl⟩ | ⟨done, node, negate, rfl⟩ <;>
    simp [Open.nodes, Open.unit?]

theorem Open.Ready.mentions_flushed (h : o.Ready) : Query.mentions o.flushed = o.mentions := by
  rcases h.cases with ⟨done, negate, rfl⟩ | ⟨done, node, negate, rfl⟩ <;> simp [Open.flushed]

theorem Open.Ready.mentions_commit (h : o.Ready) : o.commit.mentions = o.mentions := by
  rcases h.cases with ⟨done, negate, rfl⟩ | ⟨done, node, negate, rfl⟩ <;>
    simp [Open.commit, Open.unit?]

theorem Open.Ready.mentions_push (h : o.Ready) (node : Node) :
    (o.push node).mentions = o.mentions ++ node.mentions := by
  simp [Open.push, h.mentions_flushed]

theorem mentions_settle : ∀ {o : Open} (frames : List Frame), o.Ready →
    behind (settle o frames).2 ++ (settle o frames).1.mentions = behind frames ++ o.mentions
  | _, [], _ => rfl
  | _, .paren .. :: _, _ => rfl
  | o, .operand done left :: frames, h => by
    rw [settle_operand, mentions_settle frames (Open.ready_unit _ _ _), Open.mentions_unit,
      mentions_orOf, h.mentions_nodes]
    simp [behind, Frame.mentions]

theorem mentions_closeAll : ∀ {o : Open} (frames : List Frame), o.Ready →
    mentions (State.closeAll o frames) = behind frames ++ o.mentions
  | o, [], h => h.mentions_nodes
  | o, .operand done left :: frames, h => by
    have ih := mentions_closeAll frames (Open.ready_unit done (orOf left o.nodes) false)
    rw [Open.mentions_unit, mentions_orOf, h.mentions_nodes] at ih
    simpa [State.closeAll, Frame.close, behind, Frame.mentions] using ih
  | o, .paren done negated :: frames, h => by
    have ih := mentions_closeAll frames (Open.ready_unit done (.group negated o.nodes) false)
    rw [Open.mentions_unit, Node.mentions_group, h.mentions_nodes] at ih
    simpa [State.closeAll, Frame.close, behind, Frame.mentions] using ih

end

/-! ## Steps -/

namespace State

/-- Every step adds what its token mentions, at the end. -/
theorem step_mentions {s s' : State} {token : Token} (h : Step s token s') :
    s'.mentions = s.mentions ++ token.mention?.toList := by
  cases h with
  | word text hr => simp [mentions, Token.mention?, hr.mentions_push, Leaf.mentions]
  | phrase text hr => simp [mentions, Token.mention?, hr.mentions_push, Leaf.mentions]
  | not => simp [mentions, Token.mention?, Open.mentions]
  | @and o frames hr =>
    have hcommit := (settle_ready frames hr).mentions_commit
    have hsettle := mentions_settle frames hr
    simpa [mentions, Token.mention?, hcommit] using hsettle
  | or done node negate frames => simp [mentions, behind, Frame.mentions, Token.mention?]
  | left => simp [mentions, Token.mention?, Open.mentions, Last.mentions, Leaf.mentions]
  | right =>
    -- the word before the `/k` has been mentioned already
    simp [mentions, Token.mention?, Open.mentions, Last.mentions, Leaf.mentions]
  | leftParen hr =>
    simp [mentions, behind, Frame.mentions, Token.mention?, hr.mentions_flushed]
  | @rightParen o inner frames outer done negated hr hs =>
    have hinner : inner.Ready := by simpa [hs] using settle_ready frames hr
    have hsettle := mentions_settle frames hr
    rw [hs] at hsettle
    simpa [mentions, behind, Frame.mentions, Token.mention?, hinner.mentions_nodes] using hsettle
  | stray => simp [Token.mention?]

theorem run_mentions : ∀ {ts : List Token} {s s' : State}, s.run ts = .ok s' →
    s'.mentions = s.mentions ++ ts.filterMap Token.mention?
  | [], s, s', h => by
    cases h
    simp
  | token :: ts, s, s', h => by
    obtain ⟨next, hstep, hrest⟩ := run_cons_eq_ok h
    rw [run_mentions hrest, step_mentions hstep, List.append_assoc]
    cases hm : token.mention? <;> simp [hm]

end State

/-- The nodes of a query mention what its tokens mention, in the same order and equally often. -/
theorem ofTokens_mentions {ts : List Token} {nodes : List Node} (h : ofTokens ts = .ok nodes) :
    mentions nodes = ts.filterMap Token.mention? := by
  obtain ⟨s, hrun, hready, hclose⟩ := State.ofTokens_eq_ok h
  calc mentions nodes = behind s.frames ++ s.current.mentions := by
        rw [← hclose, mentions_closeAll s.frames hready]
    _ = State.mentions {} ++ ts.filterMap Token.mention? := State.run_mentions hrun
    _ = ts.filterMap Token.mention? := rfl

/-- The tokens of `A ) OR b /2 A "c  D" OR NOT e AND ( f OR`: a `)` too many, a `(` without its `)`,
and an `OR` whose right-hand side is two units, the second with an `OR` of its own. -/
def crossedTokens : List Token :=
  [.word "A", .rightParen, .or, .word "b", .within 2, .word "A", .phrase "c  D", .or, .not,
    .word "e", .and, .leftParen, .word "f", .or]

def crossedNodes : List Node :=
  [.or false [.leaf false (.term "a"),
    .group false [.leaf false (.proximity "b" "a" 2),
      .or false [.leaf false (.phrase ["c", "d"]), .leaf true (.term "e")]]],
    .group false [.leaf false (.term "f")]]

theorem ofTokens_mentions_crossed : ofTokens crossedTokens = .ok crossedNodes ∧
    mentions crossedNodes =
      [.word "a", .word "b", .word "a", .phrase ["c", "d"], .word "e", .word "f"] := by
  have hnodes : ofTokens crossedTokens = .ok crossedNodes := (ofTokens_eq _).trans rfl
  exact ⟨hnodes, ofTokens_mentions hnodes⟩

end Concordance.Query
