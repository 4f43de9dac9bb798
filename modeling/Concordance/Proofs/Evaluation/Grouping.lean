import Concordance.Proofs.Evaluation.Judgements
import Concordance.Proofs.Evaluation.Lines
/-!
What judgements say. A line with two fields or more names a query and a document (`Names`), and
`readLine_cases` is all that reading a line can do. Over many lines, reading fails where the first
document is named by something that is no id (`readLines_eq_error_iff`), and otherwise adds to what
each query has the documents that the lines name for it, in the order of the lines (`Collects`,
`readLines_eq_ok`). Neither depends on what was read before, so that judgements of two texts can be
read apart and put together query by query (`parse_exact`).
-/
namespace Concordance.Judgements

variable {judged judged' : Judgements} {line : List Char} {lines : List (List Char)}
  {query query' name name' : String} {docs docs' : List DocId} {e : Error}

/-! ## What lines name -/

/-- The first two fields of the line: a query, and what should be the id of a document. -/
def Names (line : List Char) (query name : String) : Prop :=
  ∃ more, HasFields line (query :: name :: more)

theorem names_iff : Names line query name ↔ ∃ more, fields line = query :: name :: more :=
  exists_congr fun _ => fields_eq_iff.symm

theorem Names.unique (h : Names line query name) (h' : Names line query' name') :
    query = query' ∧ name = name' := by
  obtain ⟨more, hfields⟩ := names_iff.mp h
  obtain ⟨more', hfields'⟩ := names_iff.mp h'
  rw [hfields] at hfields'
  simp only [List.cons.injEq] at hfields'
  exact ⟨hfields'.1, hfields'.2.1⟩

/-- A line that names nothing changes nothing. Any other is an error, or records a judgement. -/
theorem readLine_cases (judged : Judgements) (line : List Char) :
    ((∀ query name, ¬ Names line query name) ∧ judged.readLine line = .ok judged) ∨
    ∃ query name, Names line query name ∧
      ((docId? name = none ∧ judged.readLine line = .error (.invalidDocId name)) ∨
      ∃ doc, docId? name = some doc ∧ judged.readLine line = .ok (judged.record query doc)) := by
  unfold readLine ofLine
  split
  · next query name more hfields =>
    refine .inr ⟨query, name, names_iff.mpr ⟨more, hfields⟩, ?_⟩
    cases hdoc : docId? name with
    | none => exact .inl ⟨rfl, rfl⟩
    | some doc => exact .inr ⟨doc, rfl, rfl⟩
  · next hfew =>
    refine .inl ⟨fun query name h => ?_, rfl⟩
    obtain ⟨more, hfields⟩ := names_iff.mp h
    exact hfew query name more hfields

/-! ## Errors -/

/-- The first of the lines that name something other than a document id names this. -/
inductive FirstMisnamed : List (List Char) → String → Prop where
  | here {line : List Char} {lines : List (List Char)} {query name : String} :
    Names line query name → docId? name = none → FirstMisnamed (line :: lines) name
  | later {line : List Char} {lines : List (List Char)} {name : String} :
    (∀ query name, Names line query name → docId? name ≠ none) → FirstMisnamed lines name →
    FirstMisnamed (line :: lines) name

theorem firstMisnamed_cons (h : ∀ query name, Names line query name → docId? name ≠ none) :
    FirstMisnamed (line :: lines) name ↔ FirstMisnamed lines name := by
  constructor
  · intro hfirst
    cases hfirst with
    | here hline hdoc => exact absurd hdoc (h _ _ hline)
    | later _ hlater => exact hlater
  · exact .later h

theorem exists_firstMisnamed_iff : (∃ name, FirstMisnamed lines name) ↔
    ∃ line ∈ lines, ∃ query name, Names line query name ∧ docId? name = none := by
  induction lines with
  | nil =>
    constructor
    · intro h
      obtain ⟨name, h⟩ := h
      cases h
    · intro h
      obtain ⟨line, hmem, -⟩ := h
      cases hmem
  | cons line lines ih =>
    rw [List.exists_mem_cons_iff, ← ih]
    constructor
    · intro h
      obtain ⟨name, h⟩ := h
      cases h with
      | here hline hdoc => exact .inl ⟨_, _, hline, hdoc⟩
      | later _ hlater => exact .inr ⟨name, hlater⟩
    · intro h
      by_cases hgood : ∀ query name, Names line query name → docId? name ≠ none
      · obtain ⟨query, name, hline, hdoc⟩ | ⟨name, hlater⟩ := h
        · exact absurd hdoc (hgood query name hline)
        · exact ⟨name, .later hgood hlater⟩
      · simp only [not_forall, not_not] at hgood
        obtain ⟨query, name, hline, hdoc⟩ := hgood
        exact ⟨name, .here hline hdoc⟩

theorem readLines_eq_error_iff : lines.foldlM readLine judged = .error e ↔
    ∃ name, FirstMisnamed lines name ∧ e = .invalidDocId name := by
  induction lines generalizing judged with
  | nil =>
    constructor
    · intro h
      cases h
    · intro h
      obtain ⟨name, h, -⟩ := h
      cases h
  | cons line lines ih =>
    rw [List.foldlM_cons]
    -- the line says nothing, misnames a document, or is recorded
    obtain ⟨hsilent, hread⟩ | ⟨query, name, hline, ⟨hdoc, hread⟩ | ⟨doc, hdoc, hread⟩⟩ :=
      readLine_cases judged line
    · have hgood : ∀ query name, Names line query name → docId? name ≠ none :=
        fun query name h => absurd h (hsilent query name)
      simp only [hread, firstMisnamed_cons hgood]
      exact ih
    · rw [hread]
      constructor
      · intro h
        exact ⟨name, .here hline hdoc, (Except.error.inj h).symm⟩
      · intro h
        obtain ⟨other, hfirst, rfl⟩ := h
        cases hfirst with
        | here hline' _ =>
          obtain ⟨-, rfl⟩ := hline.unique hline'
          rfl
        | later hgood _ => exact absurd hdoc (hgood query name hline)
    · have hgood : ∀ query name, Names line query name → docId? name ≠ none := by
        intro query' name' hline'
        obtain ⟨-, rfl⟩ := hline.unique hline'
        rw [hdoc]
        exact Option.some_ne_none doc
      simp only [hread, firstMisnamed_cons hgood]
      exact ih

theorem readLines_error_congr (judged' : Judgements) :
    lines.foldlM readLine judged = .error e ↔ lines.foldlM readLine judged' = .error e :=
  readLines_eq_error_iff.trans readLines_eq_error_iff.symm

/-! ## Judgements -/

/-- The lines name these documents for the query, in this order. -/
inductive Collects (query : String) : List (List Char) → List DocId → Prop where
  | nil : Collects query [] []
  | skip {line : List Char} {lines : List (List Char)} {docs : List DocId} :
    (∀ name, ¬ Names line query name) → Collects query lines docs →
    Collects query (line :: lines) docs
  | cons {line : List Char} {lines : List (List Char)} {docs : List DocId} {name : String}
    {doc : DocId} : Names line query name → docId? name = some doc → Collects query lines docs →
    Collects query (line :: lines) (doc :: docs)

theorem Collects.unique (h : Collects query lines docs) : ∀ {docs' : List DocId},
    Collects query lines docs' → docs = docs' := by
  induction h with
  | nil =>
    intro docs' h'
    cases h'
    rfl
  | skip hsilent _ ih =>
    intro docs' h'
    cases h' with
    | skip _ h' => exact ih h'
    | cons hline _ _ => exact absurd hline (hsilent _)
  | cons hline hdoc _ ih =>
    intro docs' h'
    cases h' with
    | skip hsilent _ => exact absurd hline (hsilent _)
    | cons hline' hdoc' h' =>
      obtain ⟨-, rfl⟩ := hline.unique hline'
      rw [ih h', Option.some.inj (hdoc.symm.trans hdoc')]

theorem Collects.ne_nil_iff (h : Collects query lines docs) :
    docs ≠ [] ↔ ∃ line ∈ lines, ∃ name, Names line query name := by
  induction h with
  | nil => simp
  | skip hsilent _ ih => rw [ih, List.exists_mem_cons_iff, or_iff_right (not_exists.mpr hsilent)]
  | cons hline _ _ _ =>
    exact iff_of_true (List.cons_ne_nil _ _) ⟨_, List.mem_cons_self, _, hline⟩

/-- The judgements of a query, if there are any. -/
def listed (docs : List DocId) : Option (List DocId) := if docs = [] then none else some docs

theorem merge_listed_cons (before : Option (List DocId)) (doc : DocId) (docs : List DocId) :
    Option.merge (· ++ ·) (some (before.getD [] ++ [doc])) (listed docs) =
      Option.merge (· ++ ·) before (listed (doc :: docs)) := by
  cases before <;> cases docs <;> simp [listed, Option.merge]

theorem merge_none_listed (docs : List DocId) :
    Option.merge (· ++ ·) none (listed docs) = listed docs := by
  cases docs <;> rfl

theorem isSome_listed_iff : (listed docs).isSome ↔ docs ≠ [] := by
  cases docs <;> simp [listed]

theorem listed_eq_some_iff : listed docs = some docs' ↔ docs' ≠ [] ∧ docs = docs' := by
  unfold listed
  split
  · next h => simp [h, eq_comm]
  · next h =>
    rw [Option.some.injEq]
    exact ⟨fun heq => ⟨heq ▸ h, heq⟩, And.right⟩

theorem getElem?_empty (query : String) : (∅ : Judgements)[query]? = none :=
  Std.TreeMap.getElem?_emptyc

/-- What is read onto some judgements is what they are with the documents that the lines name behind
them, query by query. -/
theorem readLines_eq_ok (h : lines.foldlM readLine judged = .ok judged') (query : String) :
    ∃ docs, Collects query lines docs ∧
      judged'[query]? = Option.merge (· ++ ·) judged[query]? (listed docs) := by
  induction lines generalizing judged with
  | nil =>
    obtain rfl := Except.ok.inj h
    exact ⟨[], .nil, by cases judged[query]? <;> rfl⟩
  | cons line lines ih =>
    rw [List.foldlM_cons] at h
    obtain ⟨next, hread, hrest⟩ := bind_eq_ok_iff.mp h
    obtain ⟨docs, hdocs, hnext⟩ := ih hrest
    -- a line that misnames a document would have been an error
    obtain ⟨hsilent, hread'⟩ | ⟨query', name, hline, ⟨-, hread'⟩ | ⟨doc, hdoc, hread'⟩⟩ :=
      readLine_cases judged line
    · obtain rfl := Except.ok.inj (hread.symm.trans hread')
      exact ⟨docs, .skip (hsilent query) hdocs, hnext⟩
    · rw [hread'] at hread
      cases hread
    · obtain rfl := Except.ok.inj (hread.symm.trans hread')
      rw [getElem?_record] at hnext
      split at hnext
      · next heq =>
        subst heq
        exact ⟨doc :: docs, .cons hline hdoc hdocs, hnext.trans (merge_listed_cons _ _ _)⟩
      · next hne =>
        refine ⟨docs, .skip (fun other hother => ?_) hdocs, hnext⟩
        exact hne (hline.unique hother).1

theorem readLines_merge {more : Judgements} (h : lines.foldlM readLine ∅ = .ok more) :
    ∃ both, lines.foldlM readLine judged = .ok both ∧
      ∀ query : String, both[query]? = Option.merge (· ++ ·) judged[query]? more[query]? := by
  cases hboth : lines.foldlM readLine judged with
  | error e =>
    rw [readLines_error_congr ∅, h] at hboth
    cases hboth
  | ok both =>
    refine ⟨both, rfl, fun query => ?_⟩
    obtain ⟨docs, hdocs, hfound⟩ := readLines_eq_ok hboth query
    obtain ⟨docs', hdocs', hfound'⟩ := readLines_eq_ok h query
    rw [getElem?_empty, merge_none_listed, ← hdocs.unique hdocs'] at hfound'
    rw [hfound, hfound']

/-! ## Texts -/

theorem parse_eq_foldlM (text : String) : parse text = (linesOf text).foldlM readLine ∅ := rfl

theorem parse_append (before after : String) : parse (before ++ "\n" ++ after) =
    parse before >>= fun judged => (linesOf after).foldlM readLine judged := by
  rw [parse_eq_foldlM, linesOf_append, List.foldlM_append, ← parse_eq_foldlM]

theorem exists_collects_of_parse {text : String} (h : parse text = .ok judged) (query : String) :
    ∃ docs, Collects query (linesOf text) docs ∧ judged[query]? = listed docs := by
  obtain ⟨docs, hdocs, hfound⟩ := readLines_eq_ok h query
  rw [getElem?_empty, merge_none_listed] at hfound
  exact ⟨docs, hdocs, hfound⟩

/-- Reading judgements fails where a line has two fields or more and the second is no document id,
and the error is about the first such field. Otherwise the queries found are the first fields of
these lines, and each has the documents of its lines, in the order of the lines. Two texts with a
line break between them have, for each query, the judgements of the first text and then those of the
second, or the error of the first text, or else that of the second. -/
theorem parse_exact :
    (∀ text, ∃ lines, AreLines lines text ∧
      ((∃ e, parse text = .error e) ↔
        ∃ line ∈ lines, ∃ query name, Names line query name ∧ docId? name = none) ∧
      (∀ e, parse text = .error e ↔ ∃ name, FirstMisnamed lines name ∧ e = .invalidDocId name) ∧
      ∀ judged, parse text = .ok judged → ∀ query : String,
        (query ∈ judged ↔ ∃ line ∈ lines, ∃ name, Names line query name) ∧
        ∀ docs, judged[query]? = some docs ↔ docs ≠ [] ∧ Collects query lines docs) ∧
    ∀ before after,
      (∀ e, parse before = .error e → parse (before ++ "\n" ++ after) = .error e) ∧
      (∀ first e, parse before = .ok first → parse after = .error e →
        parse (before ++ "\n" ++ after) = .error e) ∧
      ∀ first second, parse before = .ok first → parse after = .ok second →
        ∃ both, parse (before ++ "\n" ++ after) = .ok both ∧
          ∀ query : String, both[query]? = Option.merge (· ++ ·) first[query]? second[query]? := by
  constructor
  · intro text
    -- the lines are those that the text is cut into
    have herror : ∀ e, parse text = .error e ↔ _ := fun e => readLines_eq_error_iff
    refine ⟨linesOf text, areLines_linesOf text, ?_, herror, ?_⟩
    · rw [← exists_firstMisnamed_iff]
      constructor
      · intro h
        obtain ⟨e, he⟩ := h
        obtain ⟨name, hname, -⟩ := (herror e).mp he
        exact ⟨name, hname⟩
      · intro h
        obtain ⟨name, hname⟩ := h
        exact ⟨_, (herror _).mpr ⟨name, hname, rfl⟩⟩
    · intro judged hjudged query
      obtain ⟨docs, hdocs, hfound⟩ := exists_collects_of_parse hjudged query
      rw [← Std.TreeMap.isSome_getElem?_iff_mem, ← hdocs.ne_nil_iff, hfound, isSome_listed_iff]
      refine ⟨Iff.rfl, fun docs' => ?_⟩
      rw [listed_eq_some_iff]
      refine and_congr_right fun _ => ?_
      exact ⟨fun h => h ▸ hdocs, fun h => hdocs.unique h⟩
  · intro before after
    rw [parse_append]
    refine ⟨?_, ?_, ?_⟩
    · intro e he
      rw [he]
      rfl
    · intro first e hfirst he
      rw [hfirst]
      exact (readLines_error_congr ∅).mpr he
    · intro first second hfirst hsecond
      rw [hfirst]
      exact readLines_merge hsecond

/-- Lines of two queries, turn about, and with more and fewer fields than two. -/
theorem parse_exact_interleaved :
    let before := "b 2 ?\r\n\ta\u20031\r\nz"
    let after := "\nb +7\na 1"
    ∃ first second both, parse before = .ok first ∧ parse after = .ok second ∧
      parse (before ++ "\n" ++ after) = .ok both ∧ both["b"]? = some [2, 7] ∧
      both["a"]? = some [1, 1] ∧ both["z"]? = none := by
  obtain ⟨-, htexts⟩ := parse_exact
  obtain ⟨-, -, hboth⟩ := htexts "b 2 ?\r\n\ta\u20031\r\nz" "\nb +7\na 1"
  obtain ⟨both, hparse, hjoined⟩ := hboth _ _ rfl rfl
  exact ⟨_, _, both, rfl, rfl, hparse, hjoined "b", hjoined "a", hjoined "z"⟩

end Concordance.Judgements
