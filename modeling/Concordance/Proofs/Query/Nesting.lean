import Concordance.Proofs.Query.Reading
/-!
A query whose parentheses match is read in the same way wherever it stands
(`isConjunction_of_balanced`): none of its steps looks below the conjunction in which it begins.

So a run is moved as a whole. `State.on` puts a state on top of a conjunction that already has some
nodes and of the frames around it, and each step goes on as before there (`Step.on`).
Only a `)` that closes nothing in the run itself would notice: it would close a `(` of the frames.
-/
namespace Concordance.Query

/-! ## Matching parentheses -/

/-- Whether the parentheses match, where `opened` of them are open before the tokens. -/
def BalancedFrom : Nat → List Token → Prop
  | opened, [] => opened = 0
  | opened, .leftParen :: ts => BalancedFrom (opened + 1) ts
  | 0, .rightParen :: _ => False
  | opened + 1, .rightParen :: ts => BalancedFrom opened ts
  | opened, _ :: ts => BalancedFrom opened ts

/-- Whether every parenthesis has its partner. -/
def Balanced (ts : List Token) : Prop := BalancedFrom 0 ts

/-- The machine keeps count: its stack knows how many parentheses are open. -/
theorem balancedFrom_of_step {s s' : State} {token : Token} {ts : List Token}
    (h : State.Step s token s') (hb : BalancedFrom (depth s.frames) (token :: ts)) :
    (token = .rightParen → depth s.frames ≠ 0) ∧ BalancedFrom (depth s'.frames) ts := by
  cases h with
  | word => exact ⟨by simp, by simpa [BalancedFrom] using hb⟩
  | phrase => exact ⟨by simp, by simpa [BalancedFrom] using hb⟩
  | not => exact ⟨by simp, by simpa [BalancedFrom] using hb⟩
  | and => exact ⟨by simp, by simpa [BalancedFrom, depth_settle] using hb⟩
  | or => exact ⟨by simp, by simpa [BalancedFrom, depth] using hb⟩
  | left => exact ⟨by simp, by simpa [BalancedFrom] using hb⟩
  | right => exact ⟨by simp, by simpa [BalancedFrom] using hb⟩
  | leftParen => exact ⟨by simp, by simpa [BalancedFrom, depth] using hb⟩
  | @rightParen o _ frames _ _ _ _ hs =>
    have hdepth := depth_settle o frames
    rw [hs, depth] at hdepth
    rw [← hdepth] at hb ⊢
    exact ⟨fun _ => Nat.succ_ne_zero _, by simpa [BalancedFrom] using hb⟩
  | @stray o _ frames _ hs =>
    have hdepth := depth_settle o frames
    rw [hs, depth] at hdepth
    rw [← hdepth] at hb
    exact absurd hb (by simp [BalancedFrom])

/-! ## Moving a conjunction -/

def Open.after (nodes : List Node) (o : Open) : Open := { o with done := nodes ++ o.done }

/-- The suspended conjunction with complete nodes before its own. -/
def Frame.after (nodes : List Node) : Frame → Frame
  | .operand done left => .operand (nodes ++ done) left
  | .paren done negated => .paren (nodes ++ done) negated

/-- What stands before a conjunction with these frames around it: the nodes, if it is the outermost
one. -/
def lead (nodes : List Node) : List Frame → List Node
  | [] => nodes
  | _ :: _ => []

/-- The frames on top of others, the outermost conjunction with nodes before its own. -/
def framesOn (nodes : List Node) (base : List Frame) : List Frame → List Frame
  | [] => base
  | frame :: frames => frame.after (lead nodes frames) :: framesOn nodes base frames

/-- The state on top of frames, the outermost conjunction with nodes before its own. -/
def State.on (nodes : List Node) (base : List Frame) (s : State) : State :=
  ⟨s.current.after (lead nodes s.frames), framesOn nodes base s.frames⟩

namespace Open
variable {o : Open} {nodes : List Node}

theorem Ready.after (h : o.Ready) (nodes : List Node) : (o.after nodes).Ready := h

theorem flushed_after (nodes : List Node) (o : Open) :
    (o.after nodes).flushed = nodes ++ o.flushed := by
  obtain ⟨done, last, negate⟩ := o
  cases last <;> simp [Open.after, flushed]

theorem push_after (nodes : List Node) (o : Open) (node : Node) :
    (o.after nodes).push node = (o.push node).after nodes := by
  rw [push, flushed_after]
  rfl

theorem commit_after (nodes : List Node) (o : Open) :
    (o.after nodes).commit = o.commit.after nodes := by
  obtain ⟨done, last, negate⟩ := o
  cases last <;> simp [Open.after, commit, unit?]

theorem nodes_after (nodes : List Node) (o : Open) :
    (o.after nodes).nodes = nodes ++ o.nodes := by
  simp [Open.after, Open.nodes, unit?]

end Open

section
variable (nodes : List Node) {base : List Frame}

theorem settle_on (hb : Stopped base) : ∀ (o : Open) (frames : List Frame),
    settle (o.after (lead nodes frames)) (framesOn nodes base frames) =
      ((settle o frames).1.after (lead nodes (settle o frames).2),
        framesOn nodes base (settle o frames).2)
  | _, [] => settle_of_stopped hb
  | _, .paren .. :: _ => rfl
  | o, .operand done left :: frames => by
    have ih := settle_on hb ⟨done, .unit (orOf left o.nodes), false⟩ frames
    rw [settle_operand, ← ih]
    exact settle_operand _ _ _ _

namespace State

/-- A step that succeeds does the same on top of other frames, unless it is a stray `)`. -/
theorem Step.on {s s' : State} {token : Token} (hb : Stopped base)
    (hd : token = .rightParen → depth s.frames ≠ 0) (h : Step s token s') :
    Step (s.on nodes base) token (s'.on nodes base) := by
  -- each rule holds of the larger state, once its parts are brought into the form of the rule
  cases h with
  | @word o frames text hr =>
    have hstep : Step ⟨o.after (lead nodes frames), framesOn nodes base frames⟩ (.word text) _ :=
      .word text (hr.after _)
    rw [Open.push_after] at hstep
    exact hstep
  | @phrase o frames text hr =>
    have hstep : Step ⟨o.after (lead nodes frames), framesOn nodes base frames⟩ (.phrase text) _ :=
      .phrase text (hr.after _)
    rw [Open.push_after] at hstep
    exact hstep
  | not hr => exact .not (hr.after _)
  | @and o frames hr =>
    have hsettle := settle_on nodes hb o frames
    have hstep : Step ⟨o.after (lead nodes frames), framesOn nodes base frames⟩ .and _ :=
      .and (hr.after _)
    rw [hsettle, Open.commit_after] at hstep
    exact hstep
  | or done node negate frames => exact .or _ node negate _
  | left done negated word negate frames distance => exact .left _ negated word negate _ distance
  | right done negated left distance negate frames text =>
    exact .right _ negated left distance negate _ text
  | @leftParen o frames hr =>
    have hstep : Step ⟨o.after (lead nodes frames), framesOn nodes base frames⟩ .leftParen _ :=
      .leftParen (hr.after _)
    rw [Open.flushed_after] at hstep
    exact hstep
  | @rightParen o inner frames outer done negated hr hs =>
    have hsettle := settle_on nodes hb o frames
    rw [hs] at hsettle
    exact .rightParen (hr.after _) hsettle
  | @stray o inner frames hr hs =>
    have hdepth := depth_settle o frames
    rw [hs] at hdepth
    exact absurd hdepth.symm (hd rfl)

theorem run_on (hb : Stopped base) : ∀ {ts : List Token} {s s' : State},
    BalancedFrom (depth s.frames) ts → s.run ts = .ok s' →
      depth s'.frames = 0 ∧ run (s.on nodes base) ts = .ok (s'.on nodes base)
  | [], s, s', hbal, h => by
    cases h
    exact ⟨hbal, rfl⟩
  | token :: ts, s, s', hbal, h => by
    obtain ⟨next, hstep, hrest⟩ := run_cons_eq_ok h
    obtain ⟨hd, hbal'⟩ := balancedFrom_of_step hstep hbal
    obtain ⟨hdepth, hrun⟩ := run_on hb hbal' hrest
    exact ⟨hdepth, by rw [run_cons_ok (hstep.on nodes hb hd).eq_ok, hrun]⟩

end State

end

/-- Where the parentheses of a query match, it is read in the same way in any place where a
conjunction may begin. -/
theorem isConjunction_of_balanced {ts : List Token} {nodes : List Node} (hb : Balanced ts)
    (h : ofTokens ts = .ok nodes) : IsConjunction ts nodes := by
  intro done frames hframes
  obtain ⟨s, hrun, hready, hclose⟩ := State.ofTokens_eq_ok h
  have hstarts : BalancedFrom (depth (State.frames {})) ts := hb
  obtain ⟨hdepth, hon⟩ := State.run_on done hframes hstarts hrun
  -- no parenthesis is open any more, so that settling ends the whole query
  obtain ⟨inner, hsettle⟩ := settle_of_depth_zero s.current hdepth
  have hnodes : inner.nodes = nodes := by
    rw [← hclose, ← State.closeAll_settle, hsettle]
    rfl
  have hstart : State.on done frames {} = ⟨{ done }, frames⟩ := by
    simp [State.on, lead, framesOn, Open.after]
  have hmoved := settle_on done hframes s.current s.frames
  rw [hsettle] at hmoved
  refine ⟨s.on done frames, inner.after done, ?_, hready.after _, hmoved, ?_⟩
  · rw [← hstart]
    exact hon
  · rw [Open.nodes_after, hnodes]

end Concordance.Query
