import Concordance.Proofs.Query.Mentions
import Concordance.Proofs.Query.Rendering
import Mathlib.Data.List.Forall2
/-!
What a parsed query looks up. All its nodes are in normal form, at every depth, and the words that
they look up on their own, alone or on either side of a `/k`, are those of the query, one for each
word token and in the same order (`sought_ofTokens`). Such a word is spelled in the alphabet of index
words, and it is empty only if the token has no character of that alphabet in either case
(`lookedUpBy_normalize`).
-/
namespace Concordance.Query

def Token.word? : Token → Option String
  | .word text => some text
  | _ => none

/-- The query word is looked up by this index word, or by nothing if it has no character of one. -/
structure LookedUpBy (text : String) (word : Term) : Prop where
  alphabet : ∀ c ∈ word.toList, isTermChar c = true
  empty_iff : word = "" ↔ ∀ c ∈ text.toList, isWordChar c = false

theorem lookedUpBy_normalize (text : String) : LookedUpBy text (normalize text) where
  alphabet := (isLookup_normalize text).alphabet
  empty_iff := normalize_eq_empty_iff

/-! ## Words among the mentions -/

/-- The word of a mention that is looked up on its own. -/
def Mention.word? : Mention → Option Term
  | .word term => some term
  | .phrase _ => none

theorem Leaf.sought_eq (leaf : Leaf) : leaf.sought = leaf.mentions.filterMap Mention.word? := by
  cases leaf <;> rfl

theorem Node.sought_eq : ∀ node : Node, node.sought = node.mentions.filterMap Mention.word?
  | .leaf _ l => by
    rw [Node.sought, Node.mentions_leaf, l.sought_eq]
  | .or _ operands => by
    rw [Node.sought, Node.mentions_or, Query.mentions, List.filterMap_flatMap]
    exact List.flatMap_congr fun node hn => Node.sought_eq node
  | .group _ children => by
    rw [Node.sought, Node.mentions_group, Query.mentions, List.filterMap_flatMap]
    exact List.flatMap_congr fun node hn => Node.sought_eq node

theorem Token.word?_mention? (token : Token) :
    token.mention?.bind Mention.word? = token.word?.map normalize := by
  cases token <;> rfl

/-- The nodes of a query look up its words, in the same order and equally often. -/
theorem sought_ofTokens {ts : List Token} {nodes : List Node} (h : ofTokens ts = .ok nodes) :
    nodes.flatMap Node.sought = (ts.filterMap Token.word?).map normalize := by
  calc nodes.flatMap Node.sought
      = nodes.flatMap fun node => node.mentions.filterMap Mention.word? := by
        exact List.flatMap_congr fun node _ => node.sought_eq
    _ = (mentions nodes).filterMap Mention.word? := by rw [mentions, List.filterMap_flatMap]
    _ = ts.filterMap fun token => token.mention?.bind Mention.word? := by
        rw [ofTokens_mentions h, List.filterMap_filterMap]
    _ = (ts.filterMap Token.word?).map normalize := by
        simp only [Token.word?_mention?, List.map_filterMap]

/-! ## Parsed queries -/

theorem parse_eq_ok {query : String} {nodes : List Node} (h : parse query = .ok nodes) :
    ∃ ts, tokens query = .ok ts ∧ ofTokens ts = .ok nodes := by
  cases ht : tokens query with
  | error e =>
    rw [parse, ht] at h
    cases h
  | ok ts =>
    rw [parse, ht] at h
    exact ⟨ts, rfl, h⟩

/-- All nodes of a parsed query are in normal form, at every depth. Each word that one of them looks
up on its own is spelled in the alphabet of index words, and it is empty only if the query word at
its place has no character of an index word. -/
theorem parse_normal {query : String} {nodes : List Node} (h : parse query = .ok nodes) :
    ∃ ts, tokens query = .ok ts ∧ (∀ node ∈ nodes, node.Normal) ∧
      List.Forall₂ LookedUpBy (ts.filterMap Token.word?) (nodes.flatMap Node.sought) := by
  obtain ⟨ts, ht, hnodes⟩ := parse_eq_ok h
  refine ⟨ts, ht, ofTokens_normal hnodes, ?_⟩
  rw [sought_ofTokens hnodes, List.forall₂_map_right_iff]
  exact List.forall₂_same.mpr fun text _ => lookedUpBy_normalize text

/-- An `OR` with a chain of operands, one of them in parentheses with a conjunction in it. The word
"é" has no character of an index word, and "ÉA" has one. -/
def accented : String := "NOT é OR \"Q-z 9 --\" OR (c /2 ÉA D) OR e AND"

def accentedNodes : List Node :=
  [.or false [.leaf true (.term ""), .leaf false (.phrase ["q", "9"]),
    .group false [.leaf false (.proximity "c" "a" 2), .leaf false (.term "d")],
    .leaf false (.term "e")]]

theorem parse_normal_accented : parse accented = .ok accentedNodes ∧
    (∀ node ∈ accentedNodes, node.Normal) ∧
    List.Forall₂ LookedUpBy ["é", "c", "ÉA", "D", "e"] ["", "c", "a", "d", "e"] := by
  have htokens : tokens accented = .ok [.not, .word "é", .or, .phrase "Q-z 9 --", .or, .leftParen,
      .word "c", .within 2, .word "ÉA", .word "D", .rightParen, .or, .word "e", .and] := by
    with_unfolding_all rfl
  have hparse : parse accented = .ok accentedNodes := by
    rw [parse, htokens]
    exact (ofTokens_eq _).trans rfl
  obtain ⟨ts, ht, hnormal, hsought⟩ := parse_normal hparse
  obtain rfl := Except.ok.inj (htokens.symm.trans ht)
  have hwords : accentedNodes.flatMap Node.sought = ["", "c", "a", "d", "e"] := by
    simp [accentedNodes, Node.sought, Leaf.sought]
  rw [hwords] at hsought
  exact ⟨hparse, hnormal, hsought⟩

end Concordance.Query
