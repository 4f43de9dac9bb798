import Concordance.Proofs.Query.Machine
/-!
One step of the machine, and runs of steps. While no `/k` waits for its right-hand word (`Ready`),
each token has one equation below, and the proofs about runs use these instead of the definition of
`step`. What holds along every run that succeeds is proved by the rules of `Step`, which are all
that a step can do (`step_eq_ok_iff`). Settling ends the right-hand sides that are open at one
nesting: it stops at the next parenthesis or at the bottom of the stack (`settle_stopped`), and
leaves the nodes of the whole query as they are (`closeAll_settle`).
-/
namespace Concordance.Query

namespace Open

/-- No `/k` waits for the word on its right. -/
def Ready (o : Open) : Prop := ∀ negated left distance, o.last ≠ .within negated left distance

theorem ready_fresh (done : List Node) (negate : Bool) : Ready ⟨done, .nothing, negate⟩ := by
  intro _ _ _ h
  cases h

theorem ready_unit (done : List Node) (node : Node) (negate : Bool) :
    Ready ⟨done, .unit node, negate⟩ := by
  intro _ _ _ h
  cases h

theorem Ready.cases {o : Open} (h : o.Ready) :
    (∃ done negate, o = ⟨done, .nothing, negate⟩) ∨
      ∃ done node negate, o = ⟨done, .unit node, negate⟩ := by
  obtain ⟨done, last, negate⟩ := o
  cases last with
  | nothing => exact .inl ⟨done, negate, rfl⟩
  | unit node => exact .inr ⟨done, node, negate, rfl⟩
  | within negated left distance => exact absurd rfl (h negated left distance)

theorem push_leaf (o : Open) (negated : Bool) (leaf : Leaf) :
    o.push (.leaf negated leaf) = ⟨o.flushed, .unit (.leaf o.negate leaf), false⟩ := rfl

theorem push_ready (o : Open) (node : Node) : (o.push node).Ready := ready_unit _ _ _

end Open

@[simp] theorem Node.withNegated_negated (node : Node) : node.withNegated node.negated = node := by
  cases node <;> rfl

@[simp] theorem Node.negateIf_false (node : Node) : node.negateIf false = node := by
  rw [negateIf, Bool.xor_false, withNegated_negated]

/-! ## The node of an `OR` -/

/-- Whether the node joins its operands by `OR`. -/
def Node.isOr : Node → Bool
  | .or .. => true
  | _ => false

@[simp] theorem Node.isOr_withNegated (b : Bool) (node : Node) :
    (node.withNegated b).isOr = node.isOr := by
  cases node <;> rfl

@[simp] theorem Node.isOr_negateIf (b : Bool) (node : Node) : (node.negateIf b).isOr = node.isOr :=
  isOr_withNegated _ _

theorem orOf_single (left : Node) {right : Node} (h : right.isOr = false) :
    orOf left [right] = .or false [left, right] := by
  cases right with
  | or => cases h
  | leaf => rfl
  | group => rfl

theorem orOf_or (left : Node) {operands : List Node} (h : operands ≠ []) :
    orOf left [.or false operands] = .or false (left :: operands) := by
  cases operands with
  | nil => exact absurd rfl h
  | cons node nodes => rfl

/-! ## Settling -/

/-- No right-hand side is open at this nesting. -/
def Stopped : List Frame → Prop
  | .operand .. :: _ => False
  | _ => True

theorem settle_of_stopped {o : Open} {frames : List Frame} (h : Stopped frames) :
    settle o frames = (o, frames) := by
  match frames with
  | [] => rfl
  | .paren .. :: _ => rfl
  | .operand .. :: _ => exact absurd h (by simp [Stopped])

theorem settle_operand (o : Open) (done : List Node) (left : Node) (frames : List Frame) :
    settle o (.operand done left :: frames) =
      settle ⟨done, .unit (orOf left o.nodes), false⟩ frames := rfl

theorem settle_stopped : ∀ (o : Open) (frames : List Frame), Stopped (settle o frames).2
  | _, [] => trivial
  | _, .paren .. :: _ => trivial
  | _, .operand done left :: frames => by
    rw [settle_operand]
    exact settle_stopped _ frames

theorem settle_ready : ∀ {o : Open} (frames : List Frame), o.Ready → (settle o frames).1.Ready
  | _, [], h => h
  | _, .paren .. :: _, h => h
  | _, .operand done left :: frames, _ => by
    rw [settle_operand]
    exact settle_ready frames (Open.ready_unit _ _ _)

/-! ## Open parentheses -/

def depth : List Frame → Nat
  | [] => 0
  | .operand .. :: frames => depth frames
  | .paren .. :: frames => depth frames + 1

theorem depth_settle : ∀ (o : Open) (frames : List Frame), depth (settle o frames).2 = depth frames
  | _, [] => rfl
  | _, .paren .. :: _ => rfl
  | _, .operand .. :: frames => by
    rw [settle_operand]
    exact depth_settle _ frames

theorem settle_of_depth_zero {frames : List Frame} (o : Open) (h : depth frames = 0) :
    ∃ inner, settle o frames = (inner, []) := by
  have hd := depth_settle o frames
  have hs := settle_stopped o frames
  rw [h] at hd
  match he : settle o frames with
  | (inner, []) => exact ⟨inner, rfl⟩
  | (_, .operand .. :: _) => rw [he] at hs; exact absurd hs (by simp [Stopped])
  | (_, .paren .. :: _) => rw [he] at hd; simp [depth] at hd

theorem settle_of_depth_ne_zero {frames : List Frame} (o : Open) (h : depth frames ≠ 0) :
    ∃ inner done negated outer, settle o frames = (inner, .paren done negated :: outer) ∧
      depth outer = depth frames - 1 := by
  have hd := depth_settle o frames
  have hs := settle_stopped o frames
  match he : settle o frames with
  | (_, []) => rw [he] at hd; exact absurd hd.symm h
  | (_, .operand .. :: _) => rw [he] at hs; exact absurd hs (by simp [Stopped])
  | (inner, .paren done negated :: outer) =>
    rw [he] at hd
    exact ⟨inner, done, negated, outer, rfl, by simp [depth] at hd; omega⟩

namespace State

/-- Ending right-hand sides early changes nothing at the end of the query. -/
theorem closeAll_settle : ∀ (o : Open) (frames : List Frame),
    closeAll (settle o frames).1 (settle o frames).2 = closeAll o frames
  | _, [] => rfl
  | _, .paren .. :: _ => rfl
  | _, .operand done left :: frames => by
    rw [settle_operand, closeAll_settle _ frames]
    rfl

theorem finish_of_ready {o : Open} {frames : List Frame} (h : o.Ready) :
    finish ⟨o, frames⟩ = .ok (closeAll o frames) := by
  rcases h.cases with ⟨done, negate, rfl⟩ | ⟨done, node, negate, rfl⟩ <;> rfl

/-! ## Steps -/

section
variable {o : Open} {frames : List Frame}

theorem step_word (h : o.Ready) (text : String) : step ⟨o, frames⟩ (.word text) =
    .ok ⟨o.push (.leaf false (.term (normalize text))), frames⟩ := by
  rcases h.cases with ⟨done, negate, rfl⟩ | ⟨done, node, negate, rfl⟩ <;> rfl

theorem step_phrase (h : o.Ready) (text : String) : step ⟨o, frames⟩ (.phrase text) =
    .ok ⟨o.push (.leaf false (.phrase (words text))), frames⟩ := by
  rcases h.cases with ⟨done, negate, rfl⟩ | ⟨done, node, negate, rfl⟩ <;> rfl

theorem step_not (h : o.Ready) : step ⟨o, frames⟩ .not =
    .ok ⟨{ o with negate := !o.negate }, frames⟩ := by
  rcases h.cases with ⟨done, negate, rfl⟩ | ⟨done, node, negate, rfl⟩ <;> rfl

theorem step_and (h : o.Ready) : step ⟨o, frames⟩ .and =
    .ok ⟨(settle o frames).1.commit, (settle o frames).2⟩ := by
  rcases h.cases with ⟨done, negate, rfl⟩ | ⟨done, node, negate, rfl⟩ <;> rfl

theorem step_leftParen (h : o.Ready) : step ⟨o, frames⟩ .leftParen =
    .ok ⟨{}, .paren o.flushed o.negate :: frames⟩ := by
  rcases h.cases with ⟨done, negate, rfl⟩ | ⟨done, node, negate, rfl⟩ <;> rfl

theorem step_rightParen {inner : Open} {done : List Node} {negated : Bool} {outer : List Frame}
    (h : o.Ready) (hs : settle o frames = (inner, .paren done negated :: outer)) :
    step ⟨o, frames⟩ .rightParen =
      .ok ⟨⟨done, .unit (.group negated inner.nodes), false⟩, outer⟩ := by
  rcases h.cases with ⟨d, negate, rfl⟩ | ⟨d, node, negate, rfl⟩ <;> simp only [step, hs] <;> rfl

theorem step_rightParen_stray {inner : Open} (h : o.Ready) (hs : settle o frames = (inner, [])) :
    step ⟨o, frames⟩ .rightParen = .ok ⟨o, frames⟩ := by
  rcases h.cases with ⟨d, negate, rfl⟩ | ⟨d, node, negate, rfl⟩ <;> simp only [step, hs]

end

section
variable {done : List Node} {negate : Bool} {frames : List Frame}

theorem step_or_unit (node : Node) : step ⟨⟨done, .unit node, negate⟩, frames⟩ .or =
    .ok ⟨{}, .operand done (node.negateIf negate) :: frames⟩ := rfl

theorem step_or_nothing : step ⟨⟨done, .nothing, negate⟩, frames⟩ .or = .error .orWithoutLeft := rfl

theorem step_within_term (negated : Bool) (word : Term) (distance : UInt32) :
    step ⟨⟨done, .unit (.leaf negated (.term word)), negate⟩, frames⟩ (.within distance) =
      .ok ⟨⟨done, .within (negated ^^ negate) word distance, false⟩, frames⟩ := rfl

theorem step_within_error {last : Last} (distance : UInt32)
    (hlast : ∀ negated word, last ≠ .unit (.leaf negated (.term word)))
    (h : Open.Ready ⟨done, last, negate⟩) :
    step ⟨⟨done, last, negate⟩, frames⟩ (.within distance) =
      .error (.withinWithoutLeft distance) := by
  match last with
  | .nothing => rfl
  | .unit (.leaf negated (.term word)) => exact absurd rfl (hlast negated word)
  | .unit (.leaf _ (.phrase _)) => rfl
  | .unit (.leaf _ (.proximity ..)) => rfl
  | .unit (.or ..) => rfl
  | .unit (.group ..) => rfl
  | .within .. => exact absurd rfl (h _ _ _)

theorem step_word_within (negated : Bool) (left : Term) (distance : UInt32) (text : String) :
    step ⟨⟨done, .within negated left distance, negate⟩, frames⟩ (.word text) =
      .ok ⟨⟨done, .unit (.leaf negated (.proximity left (normalize text) distance)), negate⟩,
        frames⟩ := rfl

theorem step_within_waiting (negated : Bool) (left : Term) (distance : UInt32) {token : Token}
    (h : ∀ text, token ≠ .word text) :
    step ⟨⟨done, .within negated left distance, negate⟩, frames⟩ token =
      .error (.withinWithoutRight distance) := by
  cases token with
  | word text => exact absurd rfl (h text)
  | _ => rfl

end

/-! ## Runs -/

@[simp] theorem run_nil (s : State) : s.run [] = .ok s := rfl

theorem run_cons (s : State) (token : Token) (ts : List Token) :
    s.run (token :: ts) = s.step token >>= fun s => s.run ts := rfl

theorem run_cons_ok {s s' : State} {token : Token} (h : s.step token = .ok s') (ts : List Token) :
    s.run (token :: ts) = s'.run ts := by
  rw [run_cons, h]
  rfl

theorem run_cons_error {s : State} {token : Token} {e : Error} (h : s.step token = .error e)
    (ts : List Token) : s.run (token :: ts) = .error e := by
  rw [run_cons, h]
  rfl

theorem run_append (s : State) (ts us : List Token) :
    s.run (ts ++ us) = s.run ts >>= fun s => s.run us :=
  List.foldlM_append

theorem run_append_ok {s s' : State} {ts : List Token} (h : s.run ts = .ok s') (us : List Token) :
    s.run (ts ++ us) = s'.run us := by
  rw [run_append, h]
  rfl

theorem run_nots : ∀ (nots : Nat) {o : Open}, o.Ready → ∀ frames : List Frame,
    run ⟨o, frames⟩ (List.replicate nots .not) =
      .ok ⟨{ o with negate := o.negate ^^ nots % 2 == 1 }, frames⟩
  | 0, o, _, frames => by simp
  | nots + 1, o, h, frames => by
    have hnext : Open.Ready { o with negate := !o.negate } := h
    have hparity : (!o.negate ^^ nots % 2 == 1) = (o.negate ^^ (nots + 1) % 2 == 1) := by
      rcases Nat.mod_two_eq_zero_or_one nots with hn | hn <;>
        cases o.negate <;> simp [Nat.add_mod, hn]
    rw [List.replicate_succ, run_cons_ok (step_not h), run_nots nots hnext, hparity]

/-! ## Steps that succeed -/

/-- What a step can do, with one rule for each way in which it succeeds. -/
inductive Step : State → Token → State → Prop where
  | word {o : Open} {frames : List Frame} (text : String) : o.Ready →
    Step ⟨o, frames⟩ (.word text) ⟨o.push (.leaf false (.term (normalize text))), frames⟩
  | phrase {o : Open} {frames : List Frame} (text : String) : o.Ready →
    Step ⟨o, frames⟩ (.phrase text) ⟨o.push (.leaf false (.phrase (words text))), frames⟩
  | not {o : Open} {frames : List Frame} : o.Ready →
    Step ⟨o, frames⟩ .not ⟨{ o with negate := !o.negate }, frames⟩
  | and {o : Open} {frames : List Frame} : o.Ready →
    Step ⟨o, frames⟩ .and ⟨(settle o frames).1.commit, (settle o frames).2⟩
  | or (done : List Node) (node : Node) (negate : Bool) (frames : List Frame) :
    Step ⟨⟨done, .unit node, negate⟩, frames⟩ .or
      ⟨{}, .operand done (node.negateIf negate) :: frames⟩
  | left (done : List Node) (negated : Bool) (word : Term) (negate : Bool) (frames : List Frame)
    (distance : UInt32) :
    Step ⟨⟨done, .unit (.leaf negated (.term word)), negate⟩, frames⟩ (.within distance)
      ⟨⟨done, .within (negated ^^ negate) word distance, false⟩, frames⟩
  | right (done : List Node) (negated : Bool) (left : Term) (distance : UInt32) (negate : Bool)
    (frames : List Frame) (text : String) :
    Step ⟨⟨done, .within negated left distance, negate⟩, frames⟩ (.word text)
      ⟨⟨done, .unit (.leaf negated (.proximity left (normalize text) distance)), negate⟩, frames⟩
  | leftParen {o : Open} {frames : List Frame} : o.Ready →
    Step ⟨o, frames⟩ .leftParen ⟨{}, .paren o.flushed o.negate :: frames⟩
  | rightParen {o inner : Open} {frames outer : List Frame} {done : List Node} {negated : Bool} :
    o.Ready → settle o frames = (inner, .paren done negated :: outer) →
    Step ⟨o, frames⟩ .rightParen ⟨⟨done, .unit (.group negated inner.nodes), false⟩, outer⟩
  | stray {o inner : Open} {frames : List Frame} : o.Ready → settle o frames = (inner, []) →
    Step ⟨o, frames⟩ .rightParen ⟨o, frames⟩

theorem Step.eq_ok {s s' : State} {token : Token} (h : Step s token s') :
    s.step token = .ok s' := by
  cases h with
  | word text hr => exact step_word hr text
  | phrase text hr => exact step_phrase hr text
  | not hr => exact step_not hr
  | and hr => exact step_and hr
  | or done node negate frames => exact step_or_unit node
  | left => exact step_within_term _ _ _
  | right => exact step_word_within _ _ _ _
  | leftParen hr => exact step_leftParen hr
  | rightParen hr hs => exact step_rightParen hr hs
  | stray hr hs => exact step_rightParen_stray hr hs

/-- A `)` either closes a `(` or is stray, as settling stops at the nearest `(` or at the bottom. -/
theorem step_rightParen_cases {o : Open} (frames : List Frame) (h : o.Ready) :
    ∃ s', Step ⟨o, frames⟩ .rightParen s' := by
  have hstop := settle_stopped o frames
  match he : settle o frames with
  | (inner, []) => exact ⟨_, .stray h he⟩
  | (_, .operand .. :: _) => rw [he] at hstop; exact absurd hstop (by simp [Stopped])
  | (inner, .paren done negated :: outer) => exact ⟨_, .rightParen h he⟩

/-- While no `/k` waits, only an `OR` or a `/k` can fail. -/
theorem step_of_ready {o : Open} {frames : List Frame} {token : Token} {s' : State} (h : o.Ready)
    (hs : step ⟨o, frames⟩ token = .ok s') : Step ⟨o, frames⟩ token s' := by
  have of_rule : ∀ {s : State}, Step ⟨o, frames⟩ token s → Step ⟨o, frames⟩ token s' := by
    intro s hrule
    have he : s = s' := Except.ok.inj (hrule.eq_ok.symm.trans hs)
    rwa [← he]
  cases token with
  | word text => exact of_rule (.word text h)
  | phrase text => exact of_rule (.phrase text h)
  | not => exact of_rule (.not h)
  | and => exact of_rule (.and h)
  | leftParen => exact of_rule (.leftParen h)
  | rightParen =>
    obtain ⟨s, hrule⟩ := step_rightParen_cases frames h
    exact of_rule hrule
  | or =>
    rcases h.cases with ⟨done, negate, rfl⟩ | ⟨done, node, negate, rfl⟩
    · cases step_or_nothing.symm.trans hs
    · exact of_rule (.or done node negate frames)
  | within distance =>
    obtain ⟨done, last, negate⟩ := o
    by_cases hterm : ∃ negated word, last = .unit (.leaf negated (.term word))
    · obtain ⟨negated, word, rfl⟩ := hterm
      exact of_rule (.left done negated word negate frames distance)
    · cases (step_within_error distance (fun n w he => hterm ⟨n, w, he⟩) h).symm.trans hs

/-- The rules are all that a step can do. -/
theorem step_eq_ok_iff {s s' : State} {token : Token} :
    s.step token = .ok s' ↔ Step s token s' := by
  refine ⟨fun hs => ?_, Step.eq_ok⟩
  obtain ⟨⟨done, last, negate⟩, frames⟩ := s
  cases last with
  | nothing => exact step_of_ready (Open.ready_fresh _ _) hs
  | unit node => exact step_of_ready (Open.ready_unit _ _ _) hs
  | within negated left distance =>
    by_cases hw : ∃ text, token = .word text
    · obtain ⟨text, rfl⟩ := hw
      cases (step_word_within _ _ _ _).symm.trans hs
      exact .right done negated left distance negate frames text
    · cases (step_within_waiting _ _ _ fun text ht => hw ⟨text, ht⟩).symm.trans hs

theorem run_cons_eq_ok {s s' : State} {token : Token} {ts : List Token}
    (h : s.run (token :: ts) = .ok s') : ∃ next, Step s token next ∧ next.run ts = .ok s' := by
  cases hs : s.step token with
  | error e => cases (run_cons_error hs ts).symm.trans h
  | ok next => exact ⟨next, step_eq_ok_iff.mp hs, (run_cons_ok hs ts).symm.trans h⟩

/-- A run that succeeds ends with a step that does. -/
theorem run_concat_eq_ok {s s' : State} {token : Token} {ts : List Token}
    (h : s.run (ts ++ [token]) = .ok s') : ∃ before, s.run ts = .ok before ∧ Step before token s' := by
  rw [run_append] at h
  cases hbefore : s.run ts with
  | error e =>
    rw [hbefore] at h
    cases h
  | ok before =>
    rw [hbefore] at h
    obtain ⟨next, hstep, hnext⟩ := run_cons_eq_ok h
    cases hnext
    exact ⟨before, rfl, hstep⟩

/-- A query that is read ends in a state in which no `/k` waits. -/
theorem finish_eq_ok {s : State} {nodes : List Node} (h : s.finish = .ok nodes) :
    s.current.Ready ∧ closeAll s.current s.frames = nodes := by
  obtain ⟨⟨done, last, negate⟩, frames⟩ := s
  cases last with
  | nothing => exact ⟨Open.ready_fresh _ _, Except.ok.inj h⟩
  | unit node => exact ⟨Open.ready_unit _ _ _, Except.ok.inj h⟩
  | within => cases h

/-! ## Reading on -/

/-- What the query is read as, if it goes on with these tokens and ends. -/
def reads (s : State) (ts : List Token) : Except Error (List Node) := s.run ts >>= finish

theorem reads_append (s : State) (ts us : List Token) :
    s.reads (ts ++ us) = s.run ts >>= fun s => s.reads us := by
  rw [reads, run_append, bind_assoc]
  rfl

theorem reads_cons_ok {s s' : State} {token : Token} (h : s.step token = .ok s')
    (ts : List Token) : s.reads (token :: ts) = s'.reads ts := by
  rw [reads, run_cons_ok h, reads]

theorem reads_cons_error {s : State} {token : Token} {e : Error} (h : s.step token = .error e)
    (ts : List Token) : s.reads (token :: ts) = .error e := by
  rw [reads, run_cons_error h]
  rfl

theorem reads_eq_ok {s : State} {ts : List Token} {nodes : List Node}
    (h : s.reads ts = .ok nodes) : ∃ s' : State, s.run ts = .ok s' ∧ s'.current.Ready ∧
      closeAll s'.current s'.frames = nodes := by
  cases hr : s.run ts with
  | error e => rw [reads, hr] at h; cases h
  | ok s' =>
    rw [reads, hr] at h
    exact ⟨s', rfl, finish_eq_ok h⟩

end State
end Concordance.Query
