import Concordance.Proofs.Query.Descent
import Concordance.Proofs.Text.Words
/-!
The normal form of queries. Every node that the parser makes is in normal form, at every depth
(`ofTokens_normal`). It is an invariant of the machine: the nodes that are complete are in normal
form, and so is the unit at the end, which moreover is no `or` as long as operators can take it.
-/
namespace Concordance.Query

/-- What a query word is looked up by: a word, or nothing where the query word has none. -/
def IsLookup (word : Term) : Prop := word = "" ∨ IsTerm word

theorem isLookup_normalize (text : String) : IsLookup (normalize text) := by
  rw [normalize]
  cases h : words text with
  | nil => exact .inl rfl
  | cons word ws => exact .inr (isTerm_of_mem_words (h ▸ List.mem_cons_self))

theorem IsLookup.alphabet {word : Term} (h : IsLookup word) :
    ∀ c ∈ word.toList, isTermChar c = true := by
  obtain rfl | hword := h
  · exact List.forall_mem_nil _
  · exact hword.alphabet

/-- Only a query word without a character of index words is looked up by nothing. -/
theorem normalize_eq_empty_iff {text : String} :
    normalize text = "" ↔ ∀ c ∈ text.toList, isWordChar c = false := by
  rw [← words_eq_nil_iff, normalize]
  cases h : words text with
  | nil => simp
  | cons word ws =>
    have hne := (isTerm_of_mem_words (h ▸ List.mem_cons_self)).ne_empty
    simpa using hne

inductive Leaf.Normal : Leaf → Prop where
  | term {word : Term} : IsLookup word → Normal (.term word)
  | phrase {words : List Term} : (∀ word ∈ words, IsTerm word) → Normal (.phrase words)
  | proximity {left right : Term} {distance : UInt32} : IsLookup left → IsLookup right →
    Normal (.proximity left right distance)

/-- An `or` is not negated, joins two nodes or more, and none of them is an `or` again. -/
inductive Node.Normal : Node → Prop where
  | leaf {negated : Bool} {leaf : Leaf} : leaf.Normal → Normal (.leaf negated leaf)
  | or {operands : List Node} : 2 ≤ operands.length → (∀ node ∈ operands, node.isOr = false) →
    (∀ node ∈ operands, Normal node) → Normal (.or false operands)
  | group {negated : Bool} {children : List Node} : (∀ node ∈ children, Normal node) →
    Normal (.group negated children)

theorem Node.Normal.withNegated {node : Node} (h : node.Normal) (hor : node.isOr = false)
    (b : Bool) : (node.withNegated b).Normal := by
  cases h with
  | leaf hleaf => exact .leaf hleaf
  | or => cases hor
  | group hchildren => exact .group hchildren

theorem Node.Normal.negateIf {node : Node} (h : node.Normal) (hor : node.isOr = false) (b : Bool) :
    (node.negateIf b).Normal :=
  h.withNegated hor _

/-! ## The node of an `OR` -/

/-- What the right-hand side of an `OR` contributes are nodes in normal form, and no `or`s. -/
theorem operandsOf_normal {nodes : List Node} (h : ∀ node ∈ nodes, node.Normal) :
    ∀ node ∈ operandsOf nodes, node.Normal ∧ node.isOr = false := by
  unfold operandsOf
  split
  · next operands =>
    -- the operands of a lone `or` are no `or`s, which is why they may join another one
    cases h _ List.mem_cons_self with
    | or _ hor hnormal => exact fun node hn => ⟨hnormal node hn, hor node hn⟩
  · exact fun node hn => absurd hn List.not_mem_nil
  · next right hne =>
    rintro node hn
    obtain rfl := List.mem_singleton.mp hn
    refine ⟨h node List.mem_cons_self, ?_⟩
    cases h node List.mem_cons_self with
    | leaf => rfl
    | group => rfl
    | or => exact absurd rfl (hne _)
  · rintro node hn
    obtain rfl := List.mem_singleton.mp hn
    exact ⟨.group h, rfl⟩

theorem orOf_normal {left : Node} {right : List Node} (hl : left.Normal)
    (hor : left.isOr = false) (hr : ∀ node ∈ right, node.Normal) : (orOf left right).Normal := by
  have hoperands := operandsOf_normal hr
  unfold orOf
  split
  · exact hl
  · next hne =>
    refine .or ?_ ?_ ?_
    · have := List.length_pos_iff.mpr hne
      simp only [List.length_cons]
      omega
    · exact List.forall_mem_cons.mpr ⟨hor, fun node hn => (hoperands node hn).2⟩
    · exact List.forall_mem_cons.mpr ⟨hl, fun node hn => (hoperands node hn).1⟩

/-! ## The invariant -/

/-- What has been read of a conjunction is in normal form. Between two tokens the unit at the end is
no `or`: an `or` is only made where its conjunct ends. -/
structure Open.Normal (o : Open) : Prop where
  done : ∀ node ∈ o.done, node.Normal
  unit : ∀ node, o.last = .unit node → node.Normal ∧ node.isOr = false
  within : ∀ negated left distance, o.last = .within negated left distance → IsLookup left

def Frame.Normal : Frame → Prop
  | .operand done left => (∀ node ∈ done, node.Normal) ∧ left.Normal ∧ left.isOr = false
  | .paren done _ => ∀ node ∈ done, node.Normal

structure State.Normal (s : State) : Prop where
  current : s.current.Normal
  frames : ∀ frame ∈ s.frames, frame.Normal

namespace Open.Normal

variable {o : Open} {done : List Node} {node : Node} {negate : Bool}

theorem fresh (h : ∀ node ∈ done, node.Normal) (negate : Bool) :
    Open.Normal ⟨done, .nothing, negate⟩ where
  done := h
  unit _ he := by cases he
  within _ _ _ he := by cases he

theorem ofUnit (h : ∀ node ∈ done, node.Normal) (hn : node.Normal) (hor : node.isOr = false)
    (negate : Bool) : Open.Normal ⟨done, .unit node, negate⟩ where
  done := h
  unit _ he := by cases he; exact ⟨hn, hor⟩
  within _ _ _ he := by cases he

theorem unit? (h : o.Normal) : ∀ node ∈ o.unit?, node.Normal ∧ node.isOr = false := by
  intro node hn
  unfold Open.unit? at hn
  split at hn
  · next unit hu =>
    obtain rfl := Option.some.inj hn
    obtain ⟨hunit, hor⟩ := h.unit unit hu
    exact ⟨hunit.negateIf hor _, by rw [Node.isOr_negateIf, hor]⟩
  · cases hn

theorem nodes (h : o.Normal) : ∀ node ∈ o.nodes, node.Normal := by
  intro node hn
  rcases List.mem_append.mp hn with hn | hn
  · exact h.done node hn
  · exact (h.unit? node (Option.mem_toList.mp hn)).1

theorem flushed (h : o.Normal) : ∀ node ∈ o.flushed, node.Normal := by
  unfold Open.flushed
  split
  · next unit hu =>
    exact List.forall_mem_append.mpr ⟨h.done, List.forall_mem_singleton.mpr (h.unit unit hu).1⟩
  · exact h.done

theorem push (h : o.Normal) (hn : node.Normal) (hor : node.isOr = false) : (o.push node).Normal :=
  ofUnit h.flushed (hn.withNegated hor _) (by rw [Node.isOr_withNegated, hor]) _

theorem commit (hr : o.Ready) (h : ∀ node ∈ o.nodes, node.Normal) : o.commit.Normal := by
  rcases hr.cases with ⟨done, negate, rfl⟩ | ⟨done, node, negate, rfl⟩
  · exact fresh (fun node hn => h node (List.mem_append_left _ hn)) negate
  · exact fresh h false

end Open.Normal

/-- Settling makes `or`s of the right-hand sides it ends, so that afterwards only the nodes of the
conjunction are known to be in normal form. -/
theorem settle_normal : ∀ {o : Open} {frames : List Frame}, (∀ node ∈ o.nodes, node.Normal) →
    (∀ frame ∈ frames, frame.Normal) → (∀ node ∈ (settle o frames).1.nodes, node.Normal) ∧
      ∀ frame ∈ (settle o frames).2, frame.Normal
  | _, [], h, hf => ⟨h, hf⟩
  | _, .paren .. :: _, h, hf => ⟨h, hf⟩
  | o, .operand done left :: frames, h, hf => by
    obtain ⟨⟨hdone, hleft, hor⟩, hframes⟩ := List.forall_mem_cons.mp hf
    rw [settle_operand]
    refine settle_normal ?_ hframes
    have hnode := orOf_normal hleft hor h
    simpa [Open.nodes, Open.unit?, or_imp, forall_and] using ⟨hdone, hnode⟩

namespace State

theorem closeAll_normal : ∀ {o : Open} {frames : List Frame}, (∀ node ∈ o.nodes, node.Normal) →
    (∀ frame ∈ frames, frame.Normal) → ∀ node ∈ closeAll o frames, node.Normal
  | _, [], h, _ => h
  | o, .operand done left :: frames, h, hf => by
    obtain ⟨⟨hdone, hleft, hor⟩, hframes⟩ := List.forall_mem_cons.mp hf
    rw [closeAll]
    refine closeAll_normal ?_ hframes
    have hnode := orOf_normal hleft hor h
    simpa [Frame.close, Open.nodes, Open.unit?, or_imp, forall_and] using ⟨hdone, hnode⟩
  | o, .paren done negated :: frames, h, hf => by
    obtain ⟨hdone, hframes⟩ := List.forall_mem_cons.mp hf
    rw [closeAll]
    exact closeAll_normal (Open.Normal.ofUnit hdone (.group h) rfl false).nodes hframes

/-! ## Steps -/

theorem step_normal {s s' : State} {token : Token} (h : s.Normal) (hs : Step s token s') :
    s'.Normal := by
  obtain ⟨ho, hf⟩ := h
  cases hs with
  | word text => exact ⟨ho.push (.leaf (.term (isLookup_normalize text))) rfl, hf⟩
  | phrase text => exact ⟨ho.push (.leaf (.phrase fun _ => isTerm_of_mem_words)) rfl, hf⟩
  | not => exact ⟨⟨ho.done, ho.unit, ho.within⟩, hf⟩
  | @and _ frames hr =>
    obtain ⟨hnodes, hframes⟩ := settle_normal ho.nodes hf
    exact ⟨.commit (settle_ready frames hr) hnodes, hframes⟩
  | or done node negate frames =>
    obtain ⟨hleft, hor⟩ := ho.unit? _ rfl
    exact ⟨.fresh (List.forall_mem_nil _) false,
      List.forall_mem_cons.mpr ⟨⟨ho.done, hleft, hor⟩, hf⟩⟩
  | left done negated word =>
    -- the word leaves a node in normal form
    have hword : IsLookup word := by
      cases (ho.unit _ rfl).1 with
      | leaf hleaf => cases hleaf with
        | term hword => exact hword
    exact ⟨⟨ho.done, nofun, fun _ _ _ he => by cases he; exact hword⟩, hf⟩
  | right done negated left distance negate frames text =>
    have hleft : IsLookup left := ho.within _ _ _ rfl
    have hleaf : Leaf.Normal (.proximity left (normalize text) distance) :=
      .proximity hleft (isLookup_normalize text)
    exact ⟨.ofUnit ho.done (.leaf hleaf) rfl _, hf⟩
  | leftParen =>
    exact ⟨.fresh (List.forall_mem_nil _) false, List.forall_mem_cons.mpr ⟨ho.flushed, hf⟩⟩
  | rightParen _ hsettle =>
    obtain ⟨hnodes, hframes⟩ := settle_normal ho.nodes hf
    rw [hsettle] at hnodes hframes
    obtain ⟨hdone, houter⟩ := List.forall_mem_cons.mp hframes
    exact ⟨.ofUnit hdone (.group hnodes) rfl false, houter⟩
  | stray => exact ⟨ho, hf⟩

theorem run_normal : ∀ {ts : List Token} {s s' : State}, s.Normal → s.run ts = .ok s' → s'.Normal
  | [], _, _, h, hr => by
    cases hr
    exact h
  | token :: ts, s, s', h, hr => by
    obtain ⟨next, hs, hrest⟩ := run_cons_eq_ok hr
    exact run_normal (step_normal h hs) hrest

end State

theorem ofTokens_normal {ts : List Token} {nodes : List Node} (h : ofTokens ts = .ok nodes) :
    ∀ node ∈ nodes, node.Normal := by
  have hstart : State.Normal {} := ⟨.fresh (List.forall_mem_nil _) false, List.forall_mem_nil _⟩
  obtain ⟨s, hrun, _, hclose⟩ := State.ofTokens_eq_ok h
  have hs := State.run_normal hstart hrun
  rw [← hclose]
  exact State.closeAll_normal hs.current.nodes hs.frames

end Concordance.Query
