import Concordance.Proofs.Query.Nesting
import Concordance.Proofs.Query.Rendering
import Concordance.Proofs.Retrieval.Meaning
/-!
Queries made of queries. Two queries in parentheses with `AND` between them have the documents that
both have, with `OR` those that either has, and `NOT` before the parentheses gives all others
(`search_combined`).

The law joins the three stages of a search. A text whose quotes are closed spells the same tokens
inside any other text (`writes_of_tokens`), tokens whose parentheses match are read in the same way
inside any others (`isConjunction_of_balanced`), and the nodes have the meaning of sets
(`evaluate_answers`).
-/
namespace Concordance
namespace Query

/-- A query that can stand in parentheses: its quotes and its parentheses are closed, and it can be
read. -/
structure Enclosable (query : String) : Prop where
  quotes : query.toList.count '"' % 2 = 0
  balanced : ∃ ts, tokens query = .ok ts ∧ Balanced ts
  parses : ∃ nodes, parse query = .ok nodes

theorem Enclosable.empty : Enclosable "" := by
  refine ⟨rfl, ⟨[], Writes.empty.tokens_eq, rfl⟩, [], ?_⟩
  rw [parse, Writes.empty.tokens_eq]
  exact (ofTokens_eq []).trans rfl

/-- With its quotes closed, a text spells its tokens in front of any other text. -/
theorem writes_of_tokens {text : String} {ts : List Token} (h : tokens text = .ok ts)
    (hquotes : text.toList.count '"' % 2 = 0) : Writes text ts :=
  fun _ _ hclosed hafter => (spells_of_tokens h hquotes).append hclosed hafter

theorem Enclosable.rendersUnit {query : String} {nodes : List Node} (h : Enclosable query)
    (hparse : parse query = .ok nodes) :
    RendersUnit ("(" ++ query ++ ")") (.group false nodes) := by
  obtain ⟨ts, hts, hbalanced⟩ := h.balanced
  have hnodes : ofTokens ts = .ok nodes := by
    rw [parse, hts] at hparse
    exact hparse
  have hconjunction := isConjunction_of_balanced hbalanced hnodes
  exact ⟨_, (writes_of_tokens hts h.quotes).paren, IsUnit.paren hconjunction⟩

section
variable {text text' : String} {node node' : Node}

theorem RendersUnit.operand (h : RendersUnit text node) :
    ∃ ts, Writes text ts ∧ IsOperand ts (node.withNegated false) := by
  obtain ⟨ts, hw, hu⟩ := h
  exact ⟨ts, hw, IsOperand.nots hu 0⟩

theorem parse_of_isConjunction {ts : List Token} {nodes : List Node} (hw : Writes text ts)
    (h : IsConjunction ts nodes) : parse text = .ok nodes := by
  rw [parse, hw.tokens_eq]
  exact ofTokens_of_isConjunction h

theorem RendersUnit.parse_and (h : RendersUnit text node) (h' : RendersUnit text' node') :
    parse (text ++ " AND " ++ text') = .ok [node.withNegated false, node'.withNegated false] := by
  obtain ⟨ts, hw, ho⟩ := h.operand
  obtain ⟨us, hw', ho'⟩ := h'.operand
  have htext : Writes (text ++ " AND " ++ text') (ts ++ .and :: us) := by
    simpa using Writes.join .and hw hw'
  exact parse_of_isConjunction htext (.and (.operand ho) (.conjunct (.operand ho')))

theorem RendersUnit.parse_or (h : RendersUnit text node) (h' : RendersUnit text' node') :
    parse (text ++ " OR " ++ text') =
      .ok [orOf (node.withNegated false) [node'.withNegated false]] := by
  obtain ⟨ts, hw, ho⟩ := h.operand
  obtain ⟨us, hw', ho'⟩ := h'.operand
  have htext : Writes (text ++ " OR " ++ text') (ts ++ .or :: us) := by
    simpa using Writes.join .or hw hw'
  exact parse_of_isConjunction htext (.conjunct (.or ho (.operand ho')))

theorem RendersUnit.parse_not (h : RendersUnit text node) :
    parse ("NOT " ++ text) = .ok [node.withNegated true] := by
  obtain ⟨ts, hw, ho⟩ := h.negated true
  exact parse_of_isConjunction hw (.conjunct (.operand ho))

end
end Query

theorem Settings.validate_of_saturation {settings : Settings} (hsize : settings.gramSize ≠ 0)
    (hs : settings.saturation = 2.0) : settings.validate = .ok () := by
  have hbounds : minSaturation ≤ 2.0 ∧ 2.0 ≤ maxSaturation := by decide +kernel
  simp [validate, hsize, hs, hbounds]

theorem Settings.validate_default : Settings.validate {} = .ok () :=
  validate_of_saturation (by decide) rfl

open Query (Node Enclosable)

namespace Index
variable {index : Index} {settings : Settings} {d : DocId}

/-- The answer to a query is the list of the documents for which the condition holds, in ascending
order. -/
def Finds (index : Index) (settings : Settings) (query : String) (p : DocId → Prop) : Prop :=
  ∃ ds, index.search settings query = .ok ds ∧ Ascending ds ∧ ∀ d, d ∈ ds ↔ p d

theorem search_of_parse {query : String} {nodes : List Node} (hs : settings.validate = .ok ())
    (h : Query.parse query = .ok nodes) :
    index.search settings query = .ok (index.evaluate settings nodes) := by
  rw [search, hs, h]
  rfl

/-- Which documents an evaluation lists, among all documents and not only those of the index. -/
theorem mem_evaluate (hi : index.Sound) {nodes : List Node} : d ∈ index.evaluate settings nodes ↔
    d ∈ index.docIds ∧ index.SatisfiesQuery settings d nodes := by
  have ha : index.Answers (index.evaluate settings nodes)
      (index.SatisfiesQuery settings · nodes) := evaluate_answers hi nodes
  constructor
  · intro hd
    have hu := ha.lists.subset d hd
    exact ⟨hu, (ha.mem_iff d hu).mp hd⟩
  · rintro ⟨hu, hsat⟩
    exact (ha.mem_iff d hu).mpr hsat

theorem finds_of_parse (hi : index.Sound) {query : String} {nodes : List Node}
    (hs : settings.validate = .ok ()) (h : Query.parse query = .ok nodes) {p : DocId → Prop}
    (hp : ∀ d, d ∈ index.docIds ∧ index.SatisfiesQuery settings d nodes ↔ p d) :
    index.Finds settings query p :=
  ⟨_, search_of_parse hs h, (evaluate_answers hi nodes).lists.ascending,
    fun d => (mem_evaluate hi).trans (hp d)⟩

/-! ## Combining -/

/-- A query in parentheses asks for what it asks for without them. -/
theorem satisfies_group (negated : Bool) (nodes : List Node) :
    index.Satisfies settings d (.group negated nodes) ↔
      flipped negated (index.SatisfiesQuery settings d nodes) := by
  rw [Satisfies, SatisfiesQuery]

theorem satisfiesQuery_single (node : Node) :
    index.SatisfiesQuery settings d [node] ↔ index.Satisfies settings d node := by
  simp [SatisfiesQuery, SatisfiesEvery]

theorem satisfiesQuery_pair (node node' : Node) :
    index.SatisfiesQuery settings d [node, node'] ↔
      index.Satisfies settings d node ∧ index.Satisfies settings d node' := by
  simp [SatisfiesQuery, SatisfiesEvery]

theorem satisfies_or_pair (node node' : Node) :
    index.Satisfies settings d (.or false [node, node']) ↔
      index.Satisfies settings d node ∨ index.Satisfies settings d node' := by
  simp [Satisfies, SatisfiesSome, flipped]

section
variable {nodes others : List Node}

theorem mem_both (hi : index.Sound) :
    d ∈ index.docIds ∧
        index.SatisfiesQuery settings d [.group false nodes, .group false others] ↔
      d ∈ index.evaluate settings nodes ∧ d ∈ index.evaluate settings others := by
  rw [satisfiesQuery_pair, satisfies_group, satisfies_group, mem_evaluate hi, mem_evaluate hi]
  exact and_and_left

theorem mem_either (hi : index.Sound) :
    d ∈ index.docIds ∧
        index.SatisfiesQuery settings d [.or false [.group false nodes, .group false others]] ↔
      d ∈ index.evaluate settings nodes ∨ d ∈ index.evaluate settings others := by
  rw [satisfiesQuery_single, satisfies_or_pair, satisfies_group, satisfies_group, mem_evaluate hi,
    mem_evaluate hi]
  exact and_or_left

theorem mem_others (hi : index.Sound) :
    d ∈ index.docIds ∧ index.SatisfiesQuery settings d [.group true nodes] ↔
      d ∈ index.docIds ∧ d ∉ index.evaluate settings nodes := by
  rw [satisfiesQuery_single, satisfies_group, mem_evaluate hi]
  apply and_congr_right
  intro hu
  simp [flipped, hu]

end

/-- In parentheses, queries combine as their answers do as sets. -/
theorem search_combined {order : TableOrder} (calls : List Builder.Call)
    (h : (Builder.ofCalls calls).build order = .ok index) (hs : settings.validate = .ok ())
    {q r : String} (hq : Enclosable q) (hr : Enclosable r) :
    ∃ dq dr, index.search settings q = .ok dq ∧ index.search settings r = .ok dr ∧
      index.Finds settings ("(" ++ q ++ ") AND (" ++ r ++ ")") (fun d => d ∈ dq ∧ d ∈ dr) ∧
      index.Finds settings ("(" ++ q ++ ") OR (" ++ r ++ ")") (fun d => d ∈ dq ∨ d ∈ dr) ∧
      index.Finds settings ("NOT (" ++ q ++ ")") (fun d => d ∈ index.docIds ∧ d ∉ dq) := by
  have hi := Builder.build_sound h
  obtain ⟨nq, hnq⟩ := hq.parses
  obtain ⟨nr, hnr⟩ := hr.parses
  have hleft := hq.rendersUnit hnq
  have hright := hr.rendersUnit hnr
  -- the texts are cut where the rules of rendering join them
  have hand : "(" ++ q ++ ")" ++ " AND " ++ ("(" ++ r ++ ")") =
      "(" ++ q ++ ") AND (" ++ r ++ ")" := by
    rw [← String.toList_inj]
    simp
  have hor : "(" ++ q ++ ")" ++ " OR " ++ ("(" ++ r ++ ")") =
      "(" ++ q ++ ") OR (" ++ r ++ ")" := by
    rw [← String.toList_inj]
    simp
  have hnot : "NOT " ++ ("(" ++ q ++ ")") = "NOT (" ++ q ++ ")" := by
    rw [← String.toList_inj]
    simp
  refine ⟨_, _, search_of_parse hs hnq, search_of_parse hs hnr, ?_, ?_, ?_⟩
  · rw [← hand]
    exact finds_of_parse hi hs (hleft.parse_and hright) fun _ => mem_both hi
  · rw [← hor]
    exact finds_of_parse hi hs (hleft.parse_or hright) fun _ => mem_either hi
  · rw [← hnot]
    exact finds_of_parse hi hs hleft.parse_not fun _ => mem_others hi

/-- A phrase with a `(` inside, and an `OR` without a right-hand side. -/
theorem enclosable_phrase_or : Enclosable "\"the (cat\" OR" := by
  have hspells : Query.Spells ('"' :: ("the (cat".toList ++ '"' :: ' ' :: ("OR".toList ++ [])))
      ([.phrase "the (cat", .or] ++ []) :=
    .phrase (by decide)
      (.separator (by decide) (Query.Writes.or [] [] (by simp [Query.Closed]) .nil))
  have htokens : Query.tokens "\"the (cat\" OR" = .ok [.phrase "the (cat", .or] :=
    hspells.tokens_eq 0
  refine ⟨by decide, ⟨_, htokens, by simp [Query.Balanced, Query.BalancedFrom]⟩, ?_⟩
  rw [Query.parse, htokens]
  exact ⟨_, (Query.ofTokens_eq _).trans rfl⟩

theorem search_combined_empty : ∃ index, (Builder.ofCalls catCalls).build .byTerm = .ok index ∧
    Settings.validate {} = .ok () ∧ Enclosable "\"the (cat\" OR" ∧ Enclosable "" ∧
    ∃ dq dr, index.search {} "\"the (cat\" OR" = .ok dq ∧ index.search {} "" = .ok dr ∧
      index.Finds {} "(\"the (cat\" OR) AND ()" (fun d => d ∈ dq ∧ d ∈ dr) ∧
      index.Finds {} "(\"the (cat\" OR) OR ()" (fun d => d ∈ dq ∨ d ∈ dr) ∧
      index.Finds {} "NOT (\"the (cat\" OR)" (fun d => d ∈ index.docIds ∧ d ∉ dq) := by
  have hsettings := Settings.validate_default
  have hknown : (Builder.ofCalls catCalls).lengthTable .byTerm ≠ [] := by decide +kernel
  have hbuild := Builder.build_of_ne_nil hknown
  have hcombined := search_combined catCalls hbuild hsettings enclosable_phrase_or .empty
  exact ⟨_, hbuild, hsettings, enclosable_phrase_or, .empty, hcombined⟩

end Index
end Concordance
