import Concordance.Proofs.Query.Recovery
/-!
An `AND` outside of all parentheses separates two queries. If the parentheses on its left match and
a unit stands directly before it, the whole is read as the left half and then the right half, each
as if it stood alone, and the error is that of the first half that has one
(`ofTokens_append_and`). The right half may be any tokens, with parentheses that do not match.

When such a left half has been read, no parenthesis is open (`depth_run`) and a unit stands last
(`Step.last_unit`). So the `AND` ends every right-hand side of an `OR` that is still open, and all
that it leaves are the nodes of the left half (`step_and_of_unit`). On top of complete nodes and
nothing else, any tokens are read as they are read alone (`reads_behind`): not even a stray `)` finds
anything below that it could close.
-/
namespace Concordance.Query

/-! ## Reading on top of complete nodes -/

theorem Frame.close_after (nodes inner : List Node) (frame : Frame) :
    (frame.after nodes).close inner = (frame.close inner).after nodes := by
  cases frame <;> rfl

namespace State
variable {s s' : State} {token : Token} (nodes : List Node)

/-- With no frames below, a stray `)` is stray there as well, so that every step goes on as before. -/
theorem Step.on_bottom (h : Step s token s') : Step (s.on nodes []) token (s'.on nodes []) := by
  by_cases hstray : token = .rightParen ∧ depth s.frames = 0
  · obtain ⟨rfl, hzero⟩ := hstray
    cases h with
    | @rightParen o _ frames _ _ _ _ hs =>
      have hdepth := depth_settle o frames
      rw [hs, hzero] at hdepth
      exact absurd hdepth (Nat.succ_ne_zero _)
    | @stray o inner frames hr hs =>
      have hbottom : Stopped [] := trivial
      have hsettle := settle_on nodes hbottom o frames
      rw [hs] at hsettle
      exact .stray (hr.after _) hsettle
  · exact h.on nodes trivial fun ht hzero => hstray ⟨ht, hzero⟩

theorem run_on_bottom : ∀ {ts : List Token} {s s' : State}, s.run ts = .ok s' →
    (s.on nodes []).run ts = .ok (s'.on nodes [])
  | [], _, _, h => by
    cases h
    rfl
  | token :: ts, s, s', h => by
    obtain ⟨next, hstep, hrest⟩ := run_cons_eq_ok h
    rw [run_cons_ok (hstep.on_bottom nodes).eq_ok, run_on_bottom hrest]

theorem closeAll_on_bottom : ∀ (o : Open) (frames : List Frame),
    closeAll (o.after (lead nodes frames)) (framesOn nodes [] frames) = nodes ++ closeAll o frames
  | o, [] => o.nodes_after nodes
  | o, frame :: frames => by
    have hinner : (o.after []).nodes = o.nodes := o.nodes_after []
    calc closeAll (o.after []) (frame.after (lead nodes frames) :: framesOn nodes [] frames)
        = closeAll ((frame.close o.nodes).after (lead nodes frames)) (framesOn nodes [] frames) := by
          rw [closeAll, hinner, Frame.close_after]
      _ = nodes ++ closeAll (frame.close o.nodes) frames := closeAll_on_bottom _ frames

def behind (nodes : List Node) : State := ⟨{ done := nodes }, []⟩

/-- Whatever follows complete nodes is read as it is read alone, its error included. -/
theorem reads_behind (ts : List Token) :
    (behind nodes).reads ts = (ofTokens ts).map (nodes ++ ·) := by
  cases h : ofTokens ts with
  | ok ms =>
    obtain ⟨s, hrun, hready, hclose⟩ := ofTokens_eq_ok h
    have hstart : State.on nodes [] {} = behind nodes := by
      simp [State.on, lead, framesOn, Open.after, behind]
    have hon := run_on_bottom nodes hrun
    rw [hstart] at hon
    calc (behind nodes).reads ts = finish (s.on nodes []) := by rw [reads, hon]; rfl
      _ = .ok (nodes ++ closeAll s.current s.frames) := by
        rw [← closeAll_on_bottom]
        exact finish_of_ready (hready.after _)
      _ = .ok (nodes ++ ms) := by rw [hclose]
  | error e =>
    -- what is refused, and why, does not depend on the nodes that are complete
    have hon : (behind nodes).verdict ts = accepts 0 .nothing ts :=
      verdict_eq_accepts ts (Open.ready_fresh nodes false)
    have halone : State.verdict {} ts = accepts 0 .nothing ts :=
      verdict_eq_accepts ts (Open.ready_fresh [] false)
    have hmap : ((behind nodes).reads ts).map (fun _ => ()) = (ofTokens ts).map fun _ => () :=
      hon.trans (halone.symm.trans (verdict_eq_ofTokens ts))
    rw [h] at hmap
    cases hreads : (behind nodes).reads ts with
    | ok ms => rw [hreads] at hmap; cases hmap
    | error e' => rw [hreads] at hmap; cases hmap; rfl

end State

/-! ## Before the `AND` -/

def Token.endsUnit : Token → Bool
  | .word _ | .phrase _ | .rightParen => true
  | _ => false

/-- The last token is a word, a phrase or a `)`. -/
def EndsInUnit (ts : List Token) : Prop := ∃ token, ts.getLast? = some token ∧ token.endsUnit

theorem balancedFrom_append {ts us : List Token} : ∀ {opened : Nat},
    BalancedFrom opened (ts ++ us) → BalancedFrom (openBehind opened ts) us := by
  induction ts with
  | nil => exact id
  | cons token ts ih =>
    intro opened h
    rw [openBehind_cons]
    apply ih
    cases token with
    | rightParen =>
      cases opened with
      | zero => exact h.elim
      | succ opened => exact h
    | _ => simpa [BalancedFrom, Token.nest] using h

namespace State
variable {s s' : State} {token : Token} {ts : List Token}

theorem depth_run : ∀ {ts : List Token} {s s' : State}, s.run ts = .ok s' →
    depth s'.frames = openBehind (depth s.frames) ts
  | [], _, _, h => by
    cases h
    rfl
  | token :: ts, s, s', h => by
    obtain ⟨next, hstep, hrest⟩ := run_cons_eq_ok h
    rw [depth_run hrest, hstep.depth_eq, openBehind_cons]

/-- A unit stands last behind a token that ends one, unless that token is a stray `)`. -/
theorem Step.last_unit (h : Step s token s') (ht : token.endsUnit)
    (hd : token = .rightParen → depth s.frames ≠ 0) :
    ∃ done node negate, s'.current = ⟨done, .unit node, negate⟩ := by
  cases h with
  | word => exact ⟨_, _, _, rfl⟩
  | phrase => exact ⟨_, _, _, rfl⟩
  | right => exact ⟨_, _, _, rfl⟩
  | rightParen => exact ⟨_, _, _, rfl⟩
  | @stray o _ frames _ hs =>
    have hdepth := depth_settle o frames
    rw [hs] at hdepth
    exact absurd hdepth.symm (hd rfl)
  | _ => cases ht

theorem run_of_endsInUnit (hb : Balanced ts) (he : EndsInUnit ts) (h : run {} ts = .ok s) :
    depth s.frames = 0 ∧ ∃ done node negate, s.current = ⟨done, .unit node, negate⟩ := by
  obtain ⟨token, hlast, ht⟩ := he
  obtain ⟨before, rfl⟩ := List.getLast?_eq_some_iff.mp hlast
  constructor
  · have hend : BalancedFrom (openBehind 0 (before ++ [token])) [] :=
      balancedFrom_append (by rwa [List.append_nil])
    rw [depth_run h]
    exact hend
  · obtain ⟨m, hbefore, hstep⟩ := run_concat_eq_ok h
    refine hstep.last_unit ht ?_
    rintro rfl hzero
    have hopen : BalancedFrom (openBehind 0 before) [.rightParen] := balancedFrom_append hb
    have hnone : openBehind 0 before = 0 := (depth_run hbefore).symm.trans hzero
    rw [hnone] at hopen
    exact hopen

theorem settle_unit : ∀ (frames : List Frame), depth frames = 0 →
    ∀ (done : List Node) (node : Node) (negate : Bool), ∃ done' node' negate',
      settle ⟨done, .unit node, negate⟩ frames = (⟨done', .unit node', negate'⟩, [])
  | [], _, done, node, negate => ⟨done, node, negate, rfl⟩
  | .operand .. :: frames, h, _, _, _ => by
    rw [settle_operand]
    exact settle_unit frames h _ _ _
  | .paren .. :: _, h, _, _, _ => absurd h (Nat.succ_ne_zero _)

/-- Behind a unit, where no parenthesis is open, an `AND` completes all that has been read. -/
theorem step_and_of_unit {done : List Node} {node : Node} {negate : Bool} {frames : List Frame}
    (h : depth frames = 0) : step ⟨⟨done, .unit node, negate⟩, frames⟩ .and =
      .ok (State.behind (closeAll ⟨done, .unit node, negate⟩ frames)) := by
  obtain ⟨done', node', negate', hsettle⟩ := settle_unit frames h done node negate
  rw [step_and (Open.ready_unit _ _ _), ← closeAll_settle, hsettle]
  rfl

end State

open State

/-- An `AND` outside of all parentheses, behind a unit, separates a query: its nodes are those of
the left half and then those of the right half, and its error is that of the left half, or else that
of the right one. -/
theorem ofTokens_append_and (left right : List Token) (hb : Balanced left)
    (he : EndsInUnit left) : ofTokens (left ++ .and :: right) = do
      let nodes ← ofTokens left
      let others ← ofTokens right
      return nodes ++ others := by
  have hsplit : ofTokens (left ++ .and :: right) =
      run {} left >>= fun s => s.reads (.and :: right) := by
    rw [ofTokens_eq, reads_append]
  cases hrun : run {} left with
  | error e =>
    rw [hsplit, ofTokens_eq, reads, hrun]
    rfl
  | ok s =>
    obtain ⟨⟨done, last, negate⟩, frames⟩ := s
    -- the left half leaves a unit last, and the `AND` completes it
    obtain ⟨hdepth, done, node, negate, hunit⟩ := run_of_endsInUnit hb he hrun
    cases hunit
    have hleft : ofTokens left = .ok (closeAll ⟨done, .unit node, negate⟩ frames) := by
      rw [ofTokens_eq, reads, hrun]
      exact finish_of_ready (Open.ready_unit _ _ _)
    calc ofTokens (left ++ .and :: right)
        = State.reads ⟨⟨done, .unit node, negate⟩, frames⟩ (.and :: right) := by
          rw [hsplit, hrun]
          rfl
      _ = (ofTokens right).map (closeAll ⟨done, .unit node, negate⟩ frames ++ ·) := by
          rw [reads_cons_ok (step_and_of_unit hdepth), reads_behind]
      _ = _ := by
          rw [hleft]
          cases ofTokens right <;> rfl

/-- A left half with an `OR` that reaches up to the `AND`, and a right half with a `)` that closes
nothing and a `(` that nothing closes. -/
def halves : List Token × List Token :=
  ([.not, .leftParen, .word "x", .or, .not, .phrase "y z", .rightParen, .or, .word "u", .within 3,
    .word "v"], [.rightParen, .not, .leftParen, .word "p", .and])

theorem ofTokens_append_and_halves : Balanced halves.1 ∧ EndsInUnit halves.1 ∧
    ofTokens (halves.1 ++ .and :: halves.2) = (do
      let nodes ← ofTokens halves.1
      let others ← ofTokens halves.2
      return nodes ++ others) ∧
    ofTokens (halves.1 ++ .and :: halves.2) = .ok [
      .or false [.group true [.or false [.leaf false (.term "x"), .leaf true (.phrase ["y", "z"])]],
        .leaf false (.proximity "u" "v" 3)],
      .group true [.leaf false (.term "p")]] := by
  have hb : Balanced halves.1 := rfl
  have he : EndsInUnit halves.1 := ⟨.word "v", rfl, rfl⟩
  exact ⟨hb, he, ofTokens_append_and halves.1 halves.2 hb he, (ofTokens_eq _).trans rfl⟩

/-- A `NOT` that waits when the `AND` comes reaches across it, for no unit stands before it. -/
example : ofTokens [.not, .and, .word "p"] = .ok [.leaf true (.term "p")] :=
  (ofTokens_eq _).trans rfl

end Concordance.Query
