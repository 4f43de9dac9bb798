import Concordance.Proofs.Query.Descent
/-!
What a list of tokens is read as, wherever it stands. Four relations, one for each level of the
language: a unit, an operand of an `OR`, a conjunct between two `AND`s, and a whole conjunction.
Each is a statement about runs from any state in which such a thing may begin, so that the rules
below build the reading of a query from the readings of its parts; no rule looks into the parser
again. `ofTokens_of_isConjunction` is where the rules end.
-/
namespace Concordance.Query

open State

/-- In any place the tokens are read as this unit, on top of what stands there. -/
def IsUnit (ts : List Token) (node : Node) : Prop :=
  ∀ (o : Open) (frames : List Frame), o.Ready →
    run ⟨o, frames⟩ ts = .ok ⟨o.push node, frames⟩

/-- Where a conjunct begins, the tokens are read as this operand. -/
def IsOperand (ts : List Token) (node : Node) : Prop :=
  ∀ (done : List Node) (frames : List Frame),
    run ⟨{ done }, frames⟩ ts = .ok ⟨⟨done, .unit node, false⟩, frames⟩

/-- Where a conjunct begins, the tokens amount to this node once their `OR`s are settled. -/
def IsConjunct (ts : List Token) (node : Node) : Prop :=
  ∀ (done : List Node) (frames : List Frame), ∃ s : State,
    run ⟨{ done }, frames⟩ ts = .ok s ∧ s.current.Ready ∧
      settle s.current s.frames = settle ⟨done, .unit node, false⟩ frames

/-- Where a conjunction begins, the tokens amount to these nodes once their `OR`s are settled. -/
def IsConjunction (ts : List Token) (nodes : List Node) : Prop :=
  ∀ (done : List Node) (frames : List Frame), Stopped frames → ∃ (s : State) (o : Open),
    run ⟨{ done }, frames⟩ ts = .ok s ∧ s.current.Ready ∧
      settle s.current s.frames = (o, frames) ∧ o.nodes = done ++ nodes

/-! ## Units -/

namespace IsUnit

theorem word (text : String) : IsUnit [.word text] (.leaf false (.term (normalize text))) :=
  fun _ _ h => run_cons_ok (step_word h text) []

theorem phrase (text : String) : IsUnit [.phrase text] (.leaf false (.phrase (words text))) :=
  fun _ _ h => run_cons_ok (step_phrase h text) []

theorem proximity (left right : String) (distance : UInt32) :
    IsUnit [.word left, .within distance, .word right]
      (.leaf false (.proximity (normalize left) (normalize right) distance)) := by
  intro o frames h
  rw [run_cons_ok (step_word h left), Open.push_leaf, run_cons_ok (step_within_term _ _ _),
    run_cons_ok (step_word_within _ _ _ _), run_nil, Bool.xor_false, Open.push_leaf]

theorem paren {ts : List Token} {nodes : List Node} (h : IsConjunction ts nodes) :
    IsUnit (.leftParen :: ts ++ [.rightParen]) (.group false nodes) := by
  intro o frames ho
  obtain ⟨s, inner, hrun, hready, hsettle, hnodes⟩ :=
    h [] (.paren o.flushed o.negate :: frames) trivial
  rw [List.cons_append, run_cons_ok (step_leftParen ho), run_append_ok hrun,
    run_cons_ok (step_rightParen hready hsettle), run_nil, hnodes, List.nil_append]
  rfl

end IsUnit

/-! ## Operands -/

theorem run_not_unit {ts : List Token} {node : Node} (h : IsUnit ts node) (nots : Nat)
    (done : List Node) (negate : Bool) (frames : List Frame) :
    run ⟨⟨done, .nothing, negate⟩, frames⟩ (List.replicate nots .not ++ ts) =
      .ok ⟨⟨done, .unit (node.withNegated (negate ^^ nots % 2 == 1)), false⟩, frames⟩ := by
  rw [run_append_ok (run_nots nots (Open.ready_fresh done negate) frames),
    h _ _ (Open.ready_fresh _ _)]
  rfl

theorem IsOperand.nots {ts : List Token} {node : Node} (h : IsUnit ts node) (nots : Nat) :
    IsOperand (List.replicate nots .not ++ ts) (node.withNegated (nots % 2 == 1)) := by
  intro done frames
  rw [run_not_unit h nots, Bool.false_xor]

/-! ## Conjuncts -/

theorem IsConjunct.operand {ts : List Token} {node : Node} (h : IsOperand ts node) :
    IsConjunct ts node :=
  fun done frames => ⟨_, h done frames, Open.ready_unit _ _ _, rfl⟩

theorem IsConjunct.or {ts us : List Token} {left right : Node} (hl : IsOperand ts left)
    (hr : IsConjunct us right) : IsConjunct (ts ++ .or :: us) (orOf left [right]) := by
  intro done frames
  obtain ⟨s, hrun, hready, hsettle⟩ := hr [] (.operand done left :: frames)
  refine ⟨s, ?_, hready, ?_⟩
  · rw [run_append_ok (hl done frames), run_cons_ok (step_or_unit _), Node.negateIf_false]
    exact hrun
  · rw [hsettle, settle_operand]
    simp [Open.nodes, Open.unit?]

/-! ## Conjunctions -/

namespace IsConjunction

theorem nil : IsConjunction [] [] := by
  intro done frames h
  exact ⟨_, _, run_nil _, Open.ready_fresh _ _, settle_of_stopped h, by simp [Open.nodes, Open.unit?]⟩

theorem conjunct {ts : List Token} {node : Node} (h : IsConjunct ts node) :
    IsConjunction ts [node] := by
  intro done frames hf
  obtain ⟨s, hrun, hready, hsettle⟩ := h done frames
  refine ⟨s, _, hrun, hready, hsettle.trans (settle_of_stopped hf), ?_⟩
  simp [Open.nodes, Open.unit?]

theorem and {ts us : List Token} {node : Node} {nodes : List Node} (hn : IsConjunct ts node)
    (hns : IsConjunction us nodes) : IsConjunction (ts ++ .and :: us) (node :: nodes) := by
  intro done frames hf
  obtain ⟨s, hrun, hready, hsettle⟩ := hn done frames
  obtain ⟨s', o, hrun', hready', hsettle', hnodes⟩ := hns (done ++ [node]) frames hf
  refine ⟨s', o, ?_, hready', hsettle', by simp [hnodes]⟩
  -- the `AND` settles the conjunct and puts it behind what is done
  have hcommit : (settle s.current s.frames).1.commit = { done := done ++ [node] } := by
    rw [hsettle, settle_of_stopped hf]
    simp [Open.commit, Open.unit?]
  have hframes : (settle s.current s.frames).2 = frames := by
    rw [hsettle, settle_of_stopped hf]
  have hand : step s .and = .ok ⟨{ done := done ++ [node] }, frames⟩ := by
    rw [← hcommit, ← hframes]
    exact step_and hready
  rw [run_append_ok hrun, run_cons_ok hand]
  exact hrun'

end IsConjunction

theorem ofTokens_of_isConjunction {ts : List Token} {nodes : List Node}
    (h : IsConjunction ts nodes) : ofTokens ts = .ok nodes := by
  obtain ⟨s, o, hrun, hready, hsettle, hnodes⟩ := h [] [] trivial
  have hclose : closeAll s.current s.frames = nodes := by
    rw [← closeAll_settle, hsettle]
    exact hnodes
  calc ofTokens ts = (run {} ts >>= finish) := ofTokens_eq ts
    _ = finish s := by rw [hrun]; rfl
    _ = .ok nodes := by rw [← hclose]; exact finish_of_ready hready

end Concordance.Query
