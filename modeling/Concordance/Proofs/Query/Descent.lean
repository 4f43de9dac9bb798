import Concordance.Proofs.Query.Run
/-!
The recursion on ranges and the machine that reads token by token are one parser (`ofTokens_eq`).

The recursion looks for the end of a range before it reads the range; the machine notices the end
when it gets there. `Range` says what a range and the tokens behind it have to do with the frames
around it: the range has no token outside of its own parentheses that would end it, and what comes
next does end it. From any conjunction, the machine then reads a range as the recursion does and
goes on behind it with the nearest frame closed (`reads_read`). The induction is on the calls of
the recursion; a range inside another one is a `Range` with one frame more.
-/
namespace Concordance.Query

/-! ## Open parentheses -/

/-- How many parentheses are open behind some tokens. A stray `)` closes none. -/
def openBehind (opened : Nat) (ts : List Token) : Nat :=
  ts.foldl (fun opened token => token.nest opened) opened

theorem openBehind_cons (opened : Nat) (token : Token) (ts : List Token) :
    openBehind opened (token :: ts) = openBehind (token.nest opened) ts := rfl

theorem openBehind_append (opened : Nat) (ts us : List Token) :
    openBehind opened (ts ++ us) = openBehind (openBehind opened ts) us := by
  simp [openBehind]

/-- Where no `)` stands outside of parentheses, one that is open before the tokens stays open. -/
theorem openBehind_succ : ∀ (ts : List Token) (opened : Nat),
    outside? .rightParen opened ts = none → openBehind (opened + 1) ts = openBehind opened ts + 1 := by
  intro ts
  induction ts with
  | nil => intro opened _; rfl
  | cons token ts ih =>
    intro opened h
    rw [outside?] at h
    split at h
    · cases h
    · next hhere =>
      have hnest : token.nest (opened + 1) = token.nest opened + 1 := by
        cases token with
        | rightParen =>
          have hopen : opened ≠ 0 := fun hz => hhere ⟨rfl, hz⟩
          simp only [Token.nest]
          omega
        | _ => rfl
      rw [openBehind_cons, hnest, ih _ (by simpa using h), openBehind_cons]

theorem openBehind_group {inside : List Token} (hclose : outside? .rightParen 0 inside = none)
    (hopen : openBehind 0 inside = 0) :
    openBehind 0 (.leftParen :: inside ++ [.rightParen]) = 0 := by
  have hinside : openBehind (0 + 1) inside = 1 := by rw [openBehind_succ inside 0 hclose, hopen]
  rw [openBehind_append]
  exact congrArg (openBehind · [.rightParen]) hinside

/-! ## The first such token outside of parentheses -/

theorem outside?_append (sought : Token) : ∀ (ts us : List Token) (opened : Nat),
    outside? sought opened (ts ++ us) = (outside? sought opened ts).or
      ((outside? sought (openBehind opened ts) us).map (· + ts.length)) := by
  intro ts us
  induction ts with
  | nil => intro opened; simp [outside?, openBehind]
  | cons token ts ih =>
    intro opened
    rw [List.cons_append, outside?, outside?, ih, openBehind_cons]
    split
    · rfl
    · cases outside? sought (token.nest opened) ts <;>
        simp [Option.map_map, Function.comp_def, Nat.add_assoc]

theorem outside?_append_eq_none {sought : Token} {ts us : List Token} {opened : Nat} :
    outside? sought opened (ts ++ us) = none ↔
      outside? sought opened ts = none ∧ outside? sought (openBehind opened ts) us = none := by
  rw [outside?_append]
  simp

/-- The tokens before the place, the token itself and what follows it. -/
theorem outside?_eq_some {sought : Token} : ∀ {ts : List Token} {opened i : Nat},
    outside? sought opened ts = some i → ∃ before after, ts = before ++ sought :: after ∧
      before.length = i ∧ outside? sought opened before = none ∧ openBehind opened before = 0 := by
  intro ts
  induction ts with
  | nil => intro opened i h; cases h
  | cons token ts ih =>
    intro opened i h
    rw [outside?] at h
    split at h
    · next hhere =>
      obtain ⟨rfl, rfl⟩ := hhere
      cases h
      exact ⟨[], ts, rfl, rfl, rfl, rfl⟩
    · next hhere =>
      obtain ⟨j, hj, rfl⟩ := Option.map_eq_some_iff.mp h
      obtain ⟨before, after, rfl, rfl, hnone, hopen⟩ := ih hj
      refine ⟨token :: before, after, rfl, rfl, ?_, hopen⟩
      rw [outside?, if_neg hhere, hnone]
      rfl

/-- Up to the place no such token stands outside of parentheses, and there stands one, or nothing. -/
theorem outside?_split (sought : Token) (ts : List Token) {i : Nat}
    (hi : (outside? sought 0 ts).getD ts.length = i) : outside? sought 0 (ts.take i) = none ∧
      (ts.drop i = [] ∨ (ts.drop i).head? = some sought ∧ openBehind 0 (ts.take i) = 0) := by
  cases hplace : outside? sought 0 ts with
  | none =>
    obtain rfl : ts.length = i := by rw [← hi, hplace, Option.getD_none]
    exact ⟨by rw [List.take_length, hplace], .inl List.drop_length⟩
  | some j =>
    obtain rfl : j = i := by rw [← hi, hplace, Option.getD_some]
    obtain ⟨before, after, rfl, rfl, hnone, hopen⟩ := outside?_eq_some hplace
    rw [List.take_left, List.drop_left]
    exact ⟨hnone, .inr ⟨rfl, hopen⟩⟩

/-! ## Drafts as conjunctions of the machine -/

namespace Draft

def toOpen (d : Draft) : Open := ⟨d.done, d.last.elim .nothing .unit, d.negate⟩

theorem ready_toOpen (d : Draft) : d.toOpen.Ready := by
  obtain ⟨done, last, negate⟩ := d
  cases last with
  | none => exact Open.ready_fresh _ _
  | some node => exact Open.ready_unit _ _ _

theorem unit?_toOpen (d : Draft) : d.toOpen.unit? = d.unit? := by
  obtain ⟨done, last, negate⟩ := d
  cases last <;> rfl

theorem nodes_toOpen (d : Draft) : d.toOpen.nodes = d.nodes := by
  rw [Open.nodes, unit?_toOpen]
  rfl

theorem push_toOpen (d : Draft) (node : Node) : d.toOpen.push node = (d.push node).toOpen := by
  obtain ⟨done, last, negate⟩ := d
  cases last with
  | none => simp [toOpen, push, Open.push, Open.flushed]
  | some last => rfl

theorem commit_toOpen (d : Draft) : d.toOpen.commit = d.commit.toOpen := by
  obtain ⟨done, last, negate⟩ := d
  cases last <;> rfl

end Draft

/-! ## Ranges -/

/-- The tokens `ts` are what a conjunction with these frames around it goes on with, and `rest` is
what stands behind its end. -/
structure Range (frames : List Frame) (ts rest : List Token) : Prop where
  /-- An `AND` outside of parentheses ends the right-hand side of an `OR`. -/
  no_and : ¬Stopped frames → outside? .and 0 ts = none
  /-- A `)` outside of parentheses ends what stands in parentheses. -/
  no_close : depth frames ≠ 0 → outside? .rightParen 0 ts = none
  /-- A `(` that nothing closes reaches to the end of the query. -/
  closed : rest ≠ [] → openBehind 0 ts = 0
  follows : rest = [] ∨ (¬Stopped frames ∧ rest.head? = some .and) ∨
    (depth frames ≠ 0 ∧ rest.head? = some .rightParen)

namespace Range
variable {frames : List Frame} {ts us rest : List Token} {done : List Node} {negated : Bool}

theorem behind (h : Range frames (us ++ ts) rest) (hus : openBehind 0 us = 0) :
    Range frames ts rest where
  no_and hf := by simpa [hus] using (outside?_append_eq_none.mp (h.no_and hf)).2
  no_close hf := by simpa [hus] using (outside?_append_eq_none.mp (h.no_close hf)).2
  closed hr := by simpa [openBehind_append, hus] using h.closed hr
  follows := h.follows

theorem nil (h : Range frames ts rest) : Range frames [] rest where
  no_and _ := rfl
  no_close _ := rfl
  closed _ := rfl
  follows := h.follows

theorem behind_inner {us : List Token} (h : Range frames (ts ++ us) rest) {sought : Token}
    (hus : us = [] ∨ us.head? = some sought ∧ openBehind 0 ts = 0) : Range frames us rest := by
  rcases hus with rfl | ⟨-, hopen⟩
  · exact h.nil
  · exact h.behind hopen

theorem tail {token : Token} (h : Range frames (token :: ts) rest) (ht : token.nest 0 = 0) :
    Range frames ts rest := by
  have hone : Range frames ([token] ++ ts) rest := h
  exact hone.behind (by simpa [openBehind] using ht)

/-- The right-hand side of an `OR` ends at an `AND` or with the range it stands in. -/
theorem operand {left : Node} (h : Range frames (ts ++ us) rest) (hand : outside? .and 0 ts = none)
    (hus : us = [] ∨ us.head? = some .and ∧ openBehind 0 ts = 0) :
    Range (.operand done left :: frames) ts (us ++ rest) where
  no_and _ := hand
  no_close hf := (outside?_append_eq_none.mp (h.no_close hf)).1
  closed hr := by
    rcases hus with rfl | ⟨-, hopen⟩
    · simpa using h.closed (by simpa using hr)
    · exact hopen
  follows := by
    rcases hus with rfl | ⟨hhead, -⟩
    · rcases h.follows with hr | ⟨-, hr⟩ | hr
      · exact .inl (by simpa using hr)
      · exact .inr (.inl ⟨id, by simpa using hr⟩)
      · exact .inr (.inr hr)
    · exact .inr (.inl ⟨id, by simp [hhead]⟩)

/-- A `(` that nothing closes reaches to the end of the query. -/
theorem rest_eq_nil (h : Range frames (.leftParen :: ts) rest)
    (hclose : outside? .rightParen 0 ts = none) : rest = [] := by
  refine Decidable.byContradiction fun hrest => ?_
  have hopen : openBehind (0 + 1) ts = 0 := h.closed hrest
  rw [openBehind_succ ts 0 hclose] at hopen
  exact Nat.succ_ne_zero _ hopen

theorem paren (h : Range frames (.leftParen :: (ts ++ us)) rest)
    (hclose : outside? .rightParen 0 ts = none)
    (hus : us = [] ∨ us.head? = some .rightParen ∧ openBehind 0 ts = 0) :
    Range (.paren done negated :: frames) ts (us ++ rest) := by
  rcases hus with rfl | ⟨hhead, hopen⟩
  · rw [List.append_nil] at h
    obtain rfl := h.rest_eq_nil hclose
    exact ⟨fun hf => absurd trivial hf, fun _ => hclose, fun hr => absurd rfl hr, .inl rfl⟩
  · exact ⟨fun hf => absurd trivial hf, fun _ => hclose, fun _ => hopen,
      .inr (.inr ⟨Nat.succ_ne_zero _, by simp [hhead]⟩)⟩

theorem behind_paren (h : Range frames (.leftParen :: (ts ++ us)) rest)
    (hclose : outside? .rightParen 0 ts = none)
    (hus : us = [] ∨ us.head? = some .rightParen ∧ openBehind 0 ts = 0) :
    Range frames us.tail rest ∧ (us ++ rest).tail = us.tail ++ rest := by
  rcases hus with rfl | ⟨hhead, hopen⟩
  · rw [List.append_nil] at h
    obtain rfl := h.rest_eq_nil hclose
    exact ⟨h.nil, rfl⟩
  · obtain ⟨us, rfl⟩ := List.head?_eq_some_iff.mp hhead
    have hgroup : Range frames ((.leftParen :: ts ++ [.rightParen]) ++ us) rest := by simpa using h
    exact ⟨hgroup.behind (openBehind_group hclose hopen), rfl⟩

/-- In the right-hand side of an `OR` no `AND` stands outside of parentheses. -/
theorem stopped (h : Range frames (.and :: ts) rest) : Stopped frames := by
  rcases frames with _ | ⟨_ | _, frames⟩
  · trivial
  · exact absurd (h.no_and id) (by simp [outside?])
  · trivial

/-- A `)` outside of parentheses stands only where no `(` is open. -/
theorem depth_eq_zero (h : Range frames (.rightParen :: ts) rest) : depth frames = 0 :=
  Decidable.byContradiction fun hf => absurd (h.no_close hf) (by simp [outside?])

theorem rest_ne_word (h : Range frames ts rest) (text : String) : rest.head? ≠ some (.word text) := by
  rcases h.follows with rfl | ⟨-, hr⟩ | ⟨-, hr⟩ <;> simp_all

end Range

namespace State

/-! ## Reading a range -/

/-- What the query is read as behind a conjunction with these nodes. A `)` behind it is the one that
ends it. -/
def resume : List Frame → List Node → List Token → Except Error (List Node)
  | [], nodes, _ => .ok nodes
  | .operand done left :: frames, nodes, rest =>
    reads ⟨(Frame.operand done left).close nodes, frames⟩ rest
  | .paren done negated :: frames, nodes, rest =>
    reads ⟨(Frame.paren done negated).close nodes, frames⟩ rest.tail

theorem reads_end {o : Open} {frames : List Frame} {rest : List Token} (h : o.Ready)
    (hr : Range frames [] rest) : reads ⟨o, frames⟩ rest = resume frames o.nodes rest := by
  cases frames with
  | nil =>
    rcases hr.follows with rfl | ⟨hf, -⟩ | ⟨hf, -⟩
    · exact finish_of_ready h
    · exact absurd trivial hf
    · exact absurd rfl hf
  | cons frame frames =>
    cases frame with
    | operand done left =>
      have hclosed : Open.Ready ⟨done, .unit (orOf left o.nodes), false⟩ := Open.ready_unit _ _ _
      -- the range of an `OR` ends with the query, at an `AND`, or at a `)` around it
      rcases hr.follows with rfl | ⟨-, hand⟩ | ⟨hopen, hclose⟩
      · exact (finish_of_ready h).trans (finish_of_ready hclosed).symm
      · obtain ⟨rest, rfl⟩ := List.head?_eq_some_iff.mp hand
        exact (reads_cons_ok (step_and h) rest).trans (reads_cons_ok (step_and hclosed) rest).symm
      · obtain ⟨rest, rfl⟩ := List.head?_eq_some_iff.mp hclose
        obtain ⟨_, _, _, _, hs, -⟩ := settle_of_depth_ne_zero o hopen
        exact (reads_cons_ok (step_rightParen h hs) rest).trans
          (reads_cons_ok (step_rightParen hclosed hs) rest).symm
    | paren done negated =>
      rcases hr.follows with rfl | ⟨hf, -⟩ | ⟨-, hclose⟩
      · exact (finish_of_ready h).trans (finish_of_ready (Open.ready_unit _ _ _)).symm
      · exact absurd trivial hf
      · obtain ⟨rest, rfl⟩ := List.head?_eq_some_iff.mp hclose
        exact reads_cons_ok (step_rightParen h rfl) rest

/-- A `/k` waits for a word, in vain if none is next. -/
theorem reads_waiting {done : List Node} {negate : Bool} {frames : List Frame} (negated : Bool)
    (left : Term) (distance : UInt32) {ts : List Token}
    (h : ∀ text, ts.head? ≠ some (.word text)) :
    reads ⟨⟨done, .within negated left distance, negate⟩, frames⟩ ts =
      .error (.withinWithoutRight distance) := by
  cases ts with
  | nil => rfl
  | cons token ts =>
    refine reads_cons_error (step_within_waiting _ _ _ fun text ht => h text ?_) ts
    rw [ht]
    rfl

theorem step_or {d : Draft} {left : Node} (h : d.unit? = some left) (frames : List Frame) :
    step ⟨d.toOpen, frames⟩ .or = .ok ⟨{}, .operand d.done left :: frames⟩ := by
  obtain ⟨done, last, negate⟩ := d
  obtain ⟨node, rfl, rfl⟩ := Option.map_eq_some_iff.mp h
  exact step_or_unit node

/-- A `/k` is refused by both, or it takes the word behind it in both. -/
theorem reads_within {d : Draft} {frames : List Frame} {ts rest : List Token} (distance : UInt32)
    (hr : Range frames (.within distance :: ts) rest) :
    (∃ e, d.within distance ts.head? = .error e ∧
      reads ⟨d.toOpen, frames⟩ (.within distance :: ts ++ rest) = .error e) ∨
    ∃ node, d.within distance ts.head? = .ok node ∧ Range frames ts.tail rest ∧
      reads ⟨d.toOpen, frames⟩ (.within distance :: ts ++ rest) =
        reads ⟨Draft.toOpen { done := d.done, last := node }, frames⟩ (ts.tail ++ rest) := by
  obtain ⟨done, last, negate⟩ := d
  cases last with
  | none => exact .inl ⟨_, rfl, reads_cons_error rfl _⟩
  | some node =>
    cases node with
    | or | group => exact .inl ⟨_, rfl, reads_cons_error rfl _⟩
    | leaf negated leaf =>
      cases leaf with
      | phrase | proximity => exact .inl ⟨_, rfl, reads_cons_error rfl _⟩
      | term word =>
        have hstep : reads ⟨Draft.toOpen ⟨done, some (.leaf negated (.term word)), negate⟩, frames⟩
            (.within distance :: ts ++ rest) =
              reads ⟨⟨done, .within (negated ^^ negate) word distance, false⟩, frames⟩ (ts ++ rest) :=
          reads_cons_ok (step_within_term negated word distance) _
        -- only a lone word can stand on the left; whether one stands on the right is left to decide
        by_cases hright : ∃ text, ts.head? = some (.word text)
        · obtain ⟨text, hright⟩ := hright
          obtain ⟨ts, rfl⟩ := List.head?_eq_some_iff.mp hright
          have hword : Range frames ts rest := (hr.tail rfl).tail rfl
          exact .inr ⟨_, rfl, hword, hstep.trans (reads_cons_ok (step_word_within _ _ _ _) _)⟩
        · have hnext : ∀ text, (ts ++ rest).head? ≠ some (.word text) := by
            intro text h
            cases ts with
            | nil => exact hr.rest_ne_word text h
            | cons token ts => exact hright ⟨text, h⟩
          refine .inl ⟨.withinWithoutRight distance, ?_, hstep.trans (reads_waiting _ _ _ hnext)⟩
          cases ts with
          | nil => rfl
          | cons token ts =>
            cases token with
            | word text => exact absurd ⟨text, rfl⟩ hright
            | _ => rfl

/-- The machine reads a range as the recursion does, and goes on behind it. -/
theorem reads_read (d : Draft) (ts : List Token) {frames : List Frame} {rest : List Token}
    (hr : Range frames ts rest) : reads ⟨d.toOpen, frames⟩ (ts ++ rest) =
      d.read ts >>= fun nodes => resume frames nodes rest := by
  fun_induction Draft.read d ts generalizing frames rest with
  | case1 d =>
    -- the range is read to its end
    rw [List.nil_append, reads_end d.ready_toOpen hr, d.nodes_toOpen]
    rfl
  | case2 d text ts ih =>
    rw [List.cons_append, reads_cons_ok (step_word d.ready_toOpen text), d.push_toOpen]
    exact ih (hr.tail rfl)
  | case3 d text ts ih =>
    rw [List.cons_append, reads_cons_ok (step_phrase d.ready_toOpen text), d.push_toOpen]
    exact ih (hr.tail rfl)
  | case4 d ts ih =>
    rw [List.cons_append, reads_cons_ok (step_not d.ready_toOpen)]
    exact ih (hr.tail rfl)
  | case5 d ts ih =>
    -- an `AND` never stands in the range of an `OR`, so that there is nothing to settle
    rw [List.cons_append, reads_cons_ok (step_and d.ready_toOpen), settle_of_stopped hr.stopped,
      d.commit_toOpen]
    exact ih (hr.tail rfl)
  | case6 d ts h =>
    -- an `OR` without a left operand
    have hnone : d = ⟨d.done, none, d.negate⟩ := by
      rw [← Option.map_eq_none_iff.mp h]
    rw [hnone]
    exact reads_cons_error step_or_nothing _
  | case7 d ts left h stop ihr =>
    rename_i ih
    -- an `OR`: its range is read on top of a frame, and then this range goes on at the `AND`
    obtain ⟨hand, hstop⟩ := outside?_split .and ts (i := stop) rfl
    have hts : Range frames (ts.take stop ++ ts.drop stop) rest := by
      rw [List.take_append_drop]
      exact hr.tail rfl
    have hside : Range (.operand d.done left :: frames) (ts.take stop) (ts.drop stop ++ rest) :=
      hts.operand hand hstop
    have hright := ihr hside
    calc reads ⟨d.toOpen, frames⟩ (.or :: ts ++ rest)
        = reads ⟨{}, .operand d.done left :: frames⟩ (ts ++ rest) := reads_cons_ok (step_or h _) _
      _ = reads ⟨{}, .operand d.done left :: frames⟩ (ts.take stop ++ (ts.drop stop ++ rest)) := by
        rw [← List.append_assoc, List.take_append_drop]
      _ = _ := by
        rw [bind_assoc]
        refine hright.trans (bind_congr fun right => ?_)
        exact ih right (hts.behind_inner hstop)
  | case8 d distance ts ih =>
    rcases reads_within (d := d) distance hr with ⟨e, he, hreads⟩ | ⟨node, hnode, hrest, hreads⟩
    · rw [hreads, he]
      rfl
    · rw [hreads, hnode]
      exact ih node hrest
  | case9 d ts close ihc =>
    rename_i ih
    -- a `(`: what is inside is read on top of a frame, and this range goes on behind the `)`
    obtain ⟨hinside, hclose⟩ := outside?_split .rightParen ts (i := close) rfl
    have hts : ts.take close ++ ts.drop close = ts := List.take_append_drop close ts
    rw [← hts] at hr
    obtain ⟨hbehind, htail⟩ := hr.behind_paren hinside hclose
    rw [List.tail_drop] at hbehind htail
    calc reads ⟨d.toOpen, frames⟩ (.leftParen :: ts ++ rest)
        = reads ⟨{}, .paren d.toOpen.flushed d.toOpen.negate :: frames⟩ (ts ++ rest) :=
          reads_cons_ok (step_leftParen d.ready_toOpen) _
      _ = reads ⟨{}, .paren d.toOpen.flushed d.toOpen.negate :: frames⟩
          (ts.take close ++ (ts.drop close ++ rest)) := by rw [← List.append_assoc, hts]
      _ = _ := by
        rw [bind_assoc]
        refine (ihc (hr.paren hinside hclose)).trans (bind_congr fun children => ?_)
        rw [← ih children hbehind, ← d.push_toOpen, ← htail]
        rfl
  | case10 d ts ih =>
    -- a `)` that the range has not ended at is stray
    obtain ⟨inner, hs⟩ := settle_of_depth_zero d.toOpen hr.depth_eq_zero
    rw [List.cons_append, reads_cons_ok (step_rightParen_stray d.ready_toOpen hs)]
    exact ih (hr.tail rfl)

end State

/-- The machine reads what the parser reads, errors included. -/
theorem ofTokens_eq (ts : List Token) : ofTokens ts = State.reads {} ts := by
  have hr : Range [] ts [] := ⟨fun hf => absurd trivial hf, fun hf => absurd rfl hf,
    fun hr => absurd rfl hr, .inl rfl⟩
  have h := State.reads_read {} ts hr
  rw [List.append_nil] at h
  calc Draft.read {} ts = Draft.read {} ts >>= .ok := (bind_pure _).symm
    _ = State.reads {} ts := h.symm

theorem State.ofTokens_eq_ok {ts : List Token} {nodes : List Node} (h : ofTokens ts = .ok nodes) :
    ∃ s : State, run {} ts = .ok s ∧ s.current.Ready ∧ closeAll s.current s.frames = nodes :=
  reads_eq_ok ((ofTokens_eq ts).symm.trans h)

end Concordance.Query
