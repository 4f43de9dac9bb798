import Concordance.Proofs.Query.Lexing
import Concordance.Proofs.Query.NormalForm
import Concordance.Proofs.Query.Reading
/-!
Rendering and reading again. `Writes` says which tokens a text spells in front of any other, and
its rules follow the way texts of queries are put together. A node in normal form whose words are
not empty renders to a text whose tokens are read as this node (`Node.Normal.renders`), which
together with the normal form of every parse makes rendering the inverse of parsing
(`parse_render`).
-/
namespace Concordance.Query

/-! ## Writing tokens -/

/-- The text spells the tokens, in front of any text in which no run goes on. -/
def Writes (text : String) (ts : List Token) : Prop :=
  ∀ (after : List Char) (us : List Token), Closed after → Spells after us →
    Spells (text.toList ++ after) (ts ++ us)

theorem normalize_of_isTerm {word : Term} (h : IsTerm word) : normalize word = word := by
  rw [normalize, words_of_isTerm h]
  rfl

/-- A word is none of the keywords, as these are in capitals. -/
theorem ofRun_of_isTerm {word : Term} (h : IsTerm word) : Token.ofRun word = .word word := by
  have hcapital : ∀ c ∈ word.toList, c.isUpper = false := fun c hc =>
    of_ascii (fun c => isTermChar c = true → c.isUpper = false) (by decide)
      (toNat_lt_of_isWordChar (isWordChar_of_isTermChar (h.alphabet c hc))) (h.alphabet c hc)
  have hne : ∀ keyword : String, keyword.toList.any Char.isUpper = true → word ≠ keyword := by
    rintro _ hany rfl
    obtain ⟨c, hc, hupper⟩ := List.any_eq_true.mp hany
    rw [hcapital c hc] at hupper
    cases hupper
  rw [Token.ofRun, if_neg (hne "AND" (by decide)), if_neg (hne "OR" (by decide)),
    if_neg (hne "NOT" (by decide))]

theorem Token.ofRun_of_not_keyword {text : String} (h : text ∉ ["AND", "OR", "NOT"]) :
    Token.ofRun text = .word text := by
  simp only [List.mem_cons, List.not_mem_nil, or_false, not_or] at h
  rw [Token.ofRun, if_neg h.1, if_neg h.2.1, if_neg h.2.2]

theorem mem_intercalate {sep : String} {c : Char} : ∀ {parts : List String},
    c ∈ (sep.intercalate parts).toList → c ∈ sep.toList ∨ ∃ part ∈ parts, c ∈ part.toList
  | [], h => by simp at h
  | [part], h => .inr ⟨part, List.mem_cons_self, by rwa [String.intercalate_singleton] at h⟩
  | part :: part' :: parts, h => by
    rw [String.intercalate_cons_cons, String.toList_append, String.toList_append, List.mem_append,
      List.mem_append] at h
    rcases h with (h | h) | h
    · exact .inr ⟨part, List.mem_cons_self, h⟩
    · exact .inl h
    · rcases mem_intercalate h with h | ⟨p, hp, h⟩
      · exact .inl h
      · exact .inr ⟨p, List.mem_cons_of_mem part hp, h⟩

namespace Writes

variable {text text' : String} {ts us : List Token}

theorem empty : Writes "" [] := fun _ _ _ h => h

theorem run (hne : text.toList ≠ []) (h : ∀ c ∈ text.toList, isQueryChar c = true) :
    Writes text [Token.ofRun text] := by
  intro after us hclosed hafter
  have hrun := Spells.run hne h hclosed hafter
  rwa [String.ofList_toList] at hrun

theorem word {word : Term} (h : IsTerm word) : Writes word [.word word] := by
  rw [← ofRun_of_isTerm h]
  exact run h.toList_ne_nil fun c hc => isQueryChar_of_isTermChar (h.alphabet c hc)

theorem and : Writes "AND" [.and] :=
  run (by decide) (List.all_eq_true.mp (by decide))

theorem or : Writes "OR" [.or] :=
  run (by decide) (List.all_eq_true.mp (by decide))

theorem not : Writes "NOT" [.not] :=
  run (by decide) (List.all_eq_true.mp (by decide))

theorem within (k : UInt32) : Writes ("/" ++ toString k) [.within k] := by
  intro after us hclosed hafter
  have htext : ("/" ++ toString k).toList = '/' :: Nat.toDigits 10 k.toNat := by
    rw [String.toList_append, show toString k = Nat.repr k.toNat from rfl, Nat.toList_repr]
    rfl
  have hdigits : ∀ c ∈ Nat.toDigits 10 k.toNat, c.isDigit = true :=
    fun _ hc => Nat.isDigit_of_mem_toDigits (by decide) (by decide) hc
  have hvalue := Cursor.natOfDigits_toDigits k.toNat
  have hspells := Spells.within Nat.toDigits_ne_nil hdigits (hvalue.symm ▸ k.toNat_lt_size)
    hclosed.not_isDigit hafter
  rw [hvalue, UInt32.ofNat_toNat] at hspells
  rw [htext]
  exact hspells

theorem quoted {inside : String} (h : '"' ∉ inside.toList) :
    Writes ("\"" ++ inside ++ "\"") [.phrase inside] := by
  intro after us _ hafter
  have hspells := Spells.phrase h hafter
  rw [String.ofList_toList] at hspells
  simpa [String.toList_append] using hspells

theorem phrase {words : List Term} (h : ∀ word ∈ words, IsTerm word) :
    Writes ("\"" ++ " ".intercalate words ++ "\"") [.phrase (" ".intercalate words)] := by
  apply quoted
  -- a quote is neither a blank nor in the alphabet
  intro hc
  rcases mem_intercalate hc with hc | ⟨word, hword, hc⟩
  · exact absurd hc (by decide)
  · exact absurd ((h word hword).alphabet _ hc) (by decide)

/-- A blank keeps tokens apart. -/
theorem seq (h : Writes text ts) (h' : Writes text' us) :
    Writes (text ++ " " ++ text') (ts ++ us) := by
  intro after vs hclosed hafter
  have hblank : Spells (' ' :: (text'.toList ++ after)) (us ++ vs) :=
    .separator (by decide) (h' after vs hclosed hafter)
  have hspells := h _ _ (by simp [Closed]; decide) hblank
  simpa [String.toList_append] using hspells

theorem join {token : Token} {name : String} (hname : Writes name [token]) (h : Writes text ts)
    (h' : Writes text' us) : Writes (text ++ (" " ++ name ++ " ") ++ text') (ts ++ token :: us) := by
  have hspells := (h.seq hname).seq h'
  simpa only [String.append_assoc, List.append_assoc, List.singleton_append] using hspells

theorem paren (h : Writes text ts) :
    Writes ("(" ++ text ++ ")") (.leftParen :: ts ++ [.rightParen]) := by
  intro after us _ hafter
  have hspells := h _ _ (by simp [Closed]; decide) (Spells.rightParen hafter)
  simpa [String.toList_append] using Spells.leftParen hspells

theorem tokens_eq (h : Writes text ts) : tokens text = .ok ts := by
  have hspells := h [] [] (by simp [Closed]) .nil
  rw [List.append_nil, List.append_nil] at hspells
  exact hspells.tokens_eq 0

end Writes

/-! ## Rendering nodes -/

/-- The text of the node is read as a unit, apart from its negation. -/
def RendersUnit (text : String) (node : Node) : Prop := ∃ ts, Writes text ts ∧ IsUnit ts node

def RendersOperand (node : Node) : Prop := ∃ ts, Writes node.render ts ∧ IsOperand ts node

def RendersConjunct (node : Node) : Prop := ∃ ts, Writes node.render ts ∧ IsConjunct ts node

def RendersConjunction (nodes : List Node) : Prop :=
  ∃ ts, Writes (render nodes) ts ∧ IsConjunction ts nodes

theorem RendersOperand.conjunct {node : Node} (h : RendersOperand node) : RendersConjunct node := by
  obtain ⟨ts, hw, ho⟩ := h
  exact ⟨ts, hw, .operand ho⟩

theorem RendersUnit.negated {text : String} {node : Node} (h : RendersUnit text node) (b : Bool) :
    ∃ ts, Writes ((if b then "NOT " else "") ++ text) ts ∧ IsOperand ts (node.withNegated b) := by
  obtain ⟨ts, hw, hu⟩ := h
  cases b with
  | false => exact ⟨ts, by simpa using hw, IsOperand.nots hu 0⟩
  | true => exact ⟨.not :: ts, Writes.not.seq hw, IsOperand.nots hu 1⟩

/-- The text of an `or` of two operands or more: the first, and the `or` of the others. -/
theorem rendersConjunct_or : ∀ {left right : Node} {rest : List Node},
    (∀ node ∈ left :: right :: rest, node.isOr = false ∧ RendersOperand node) →
      RendersConjunct (.or false (left :: right :: rest))
  | left, right, [], h => by
    obtain ⟨ts, hw, hl⟩ := (h left (by simp)).2
    obtain ⟨us, hw', hr⟩ := (h right (by simp)).2
    have hnode := IsConjunct.or hl (.operand hr)
    rw [orOf_single left (h right (by simp)).1] at hnode
    refine ⟨_, ?_, hnode⟩
    simpa [Node.render] using Writes.join .or hw hw'
  | left, right, third :: rest, h => by
    obtain ⟨ts, hw, hl⟩ := (h left List.mem_cons_self).2
    obtain ⟨us, hw', hr⟩ :=
      rendersConjunct_or fun node hn => h node (List.mem_cons_of_mem left hn)
    have hnode := IsConjunct.or hl hr
    -- the text of the others is read as an `or`, whose operands join the first
    rw [orOf_or left (List.cons_ne_nil _ _)] at hnode
    refine ⟨_, ?_, hnode⟩
    simpa [Node.render] using Writes.join .or hw hw'

theorem rendersConjunction : ∀ {nodes : List Node}, (∀ node ∈ nodes, RendersConjunct node) →
    RendersConjunction nodes
  | [], _ => ⟨[], Writes.empty, .nil⟩
  | [node], h => by
    obtain ⟨ts, hw, hc⟩ := h node List.mem_cons_self
    refine ⟨ts, ?_, .conjunct hc⟩
    simpa [render] using hw
  | node :: node' :: nodes, h => by
    obtain ⟨ts, hw, hc⟩ := h node List.mem_cons_self
    obtain ⟨us, hw', hcs⟩ :=
      rendersConjunction fun n hn => h n (List.mem_cons_of_mem node hn)
    refine ⟨_, ?_, .and hc hcs⟩
    simpa [render] using Writes.join .and hw hw'

def Leaf.sought : Leaf → List Term
  | term word => [word]
  | phrase _ => []
  | proximity left right _ => [left, right]

/-- The words of a node that are looked up on their own, at every depth. -/
def Node.sought : Node → List Term
  | leaf _ l => l.sought
  | or _ operands => operands.flatMap sought
  | group _ children => children.flatMap sought

theorem Leaf.Normal.renders {leaf : Leaf} (h : leaf.Normal) (hs : "" ∉ leaf.sought) :
    RendersUnit leaf.render (.leaf false leaf) := by
  have hterm : ∀ {word}, IsLookup word → word ∈ leaf.sought → IsTerm word := by
    rintro word (rfl | hword) hmem
    · exact absurd hmem hs
    · exact hword
  -- what a word is looked up by is a word again, so that reading it changes nothing
  cases h with
  | @term word hword =>
    have hword := hterm hword List.mem_cons_self
    have hunit := IsUnit.word word
    rw [normalize_of_isTerm hword] at hunit
    exact ⟨_, .word hword, hunit⟩
  | @phrase parts hparts =>
    have hunit := IsUnit.phrase (" ".intercalate parts)
    rw [words_intercalate hparts] at hunit
    exact ⟨_, .phrase hparts, hunit⟩
  | @proximity left right distance hleft hright =>
    have hleft := hterm hleft List.mem_cons_self
    have hright := hterm hright (List.mem_cons_of_mem left List.mem_cons_self)
    have hunit := IsUnit.proximity left right distance
    rw [normalize_of_isTerm hleft, normalize_of_isTerm hright] at hunit
    have htext : (Leaf.proximity left right distance).render =
        left ++ " " ++ ("/" ++ toString distance) ++ " " ++ right := by
      calc (Leaf.proximity left right distance).render
          = left ++ " /" ++ toString distance ++ " " ++ right := rfl
        _ = left ++ (" " ++ "/") ++ toString distance ++ " " ++ right := rfl
        _ = _ := by simp only [String.append_assoc]
    refine ⟨_, ?_, hunit⟩
    rw [htext]
    exact ((Writes.word hleft).seq (.within distance)).seq (.word hright)

theorem exists_of_two_le_length {nodes : List Node} (h : 2 ≤ nodes.length) :
    ∃ left right rest, nodes = left :: right :: rest := by
  obtain _ | ⟨left, _ | ⟨right, rest⟩⟩ := nodes
  · simp at h
  · simp at h
  · exact ⟨left, right, rest, rfl⟩

/-- A node in normal form is read from its text, unless it has an empty word. -/
theorem Node.Normal.renders {node : Node} (h : node.Normal) : "" ∉ node.sought →
    RendersConjunct node ∧ (node.isOr = false → RendersOperand node) := by
  induction h with
  | @leaf negated leaf hleaf =>
    intro hs
    rw [Node.sought] at hs
    have hoperand : RendersOperand (.leaf negated leaf) := by
      rw [RendersOperand, Node.render]
      exact (hleaf.renders hs).negated negated
    exact ⟨hoperand.conjunct, fun _ => hoperand⟩
  | @or operands hlength hor _ ih =>
    intro hs
    rw [Node.sought] at hs
    -- an `or` is no operand, so that it need not stand in parentheses
    refine ⟨?_, fun h => by cases h⟩
    obtain ⟨left, right, rest, rfl⟩ := exists_of_two_le_length hlength
    refine rendersConjunct_or fun node hn => ⟨hor node hn, (ih node hn ?_).2 (hor node hn)⟩
    exact fun hmem => hs (List.mem_flatMap.mpr ⟨node, hn, hmem⟩)
  | @group negated children _ ih =>
    intro hs
    rw [Node.sought] at hs
    have hoperand : RendersOperand (.group negated children) := by
      obtain ⟨ts, hw, hc⟩ := rendersConjunction fun node hn =>
        (ih node hn fun hmem => hs (List.mem_flatMap.mpr ⟨node, hn, hmem⟩)).1
      rw [RendersOperand, Node.render, String.append_assoc, String.append_assoc]
      exact RendersUnit.negated ⟨_, String.append_assoc .. ▸ hw.paren, IsUnit.paren hc⟩ negated
    exact ⟨hoperand.conjunct, fun _ => hoperand⟩

/-- The text of a query that was parsed is parsed to the same nodes. -/
theorem parse_render {query : String} {nodes : List Node} (h : parse query = .ok nodes)
    (hs : "" ∉ nodes.flatMap Node.sought) : parse (render nodes) = .ok nodes := by
  have hnormal : ∀ node ∈ nodes, node.Normal := by
    cases ht : tokens query with
    | error e => rw [parse, ht] at h; cases h
    | ok ts =>
      rw [parse, ht] at h
      exact ofTokens_normal h
  obtain ⟨ts, hw, hc⟩ := rendersConjunction fun node hn =>
    ((hnormal node hn).renders fun hmem => hs (List.mem_flatMap.mpr ⟨node, hn, hmem⟩)).1
  calc parse (render nodes) = (tokens (render nodes) >>= ofTokens) := rfl
    _ = ofTokens ts := by rw [hw.tokens_eq]; rfl
    _ = .ok nodes := ofTokens_of_isConjunction hc

/-- The nodes of `a OR NOT b c`, whose text `a OR (NOT b AND c)` is another one. -/
def regrouped : List Node :=
  [.or false [.leaf false (.term "a"),
    .group false [.leaf true (.term "b"), .leaf false (.term "c")]]]

theorem parse_render_regrouped : parse "a OR NOT b c" = .ok regrouped ∧
    "" ∉ regrouped.flatMap Node.sought ∧ parse (render regrouped) = .ok regrouped := by
  have ha : IsTerm "a" := ⟨by decide, List.all_eq_true.mp (by decide)⟩
  have hb : IsTerm "b" := ⟨by decide, List.all_eq_true.mp (by decide)⟩
  have hc : IsTerm "c" := ⟨by decide, List.all_eq_true.mp (by decide)⟩
  have htokens : tokens "a OR NOT b c" = .ok [.word "a", .or, .not, .word "b", .word "c"] :=
    (((((Writes.word ha).seq .or).seq .not).seq (.word hb)).seq (.word hc)).tokens_eq
  have hparse : parse "a OR NOT b c" = .ok regrouped := by
    rw [parse, htokens]
    exact (ofTokens_eq _).trans rfl
  have hsought : "" ∉ regrouped.flatMap Node.sought := by
    simp [regrouped, Node.sought, Leaf.sought]
  exact ⟨hparse, hsought, parse_render hparse hsought⟩

end Concordance.Query
