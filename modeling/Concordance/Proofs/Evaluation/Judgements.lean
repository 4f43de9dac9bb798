import Concordance.Proofs.Corpus.Load
/-!
What an evaluation reads. The queries of a directory are its files in the order of their ids
(`readQueries_eq_ok`). Judgements are read line by line: a line changes nothing, or it records one
judgement (`readLine_eq_ok_iff`), which is added behind those that its query has already
(`getElem?_record`). So no query that has judgements is left with an empty list of them (`Proper`),
on which every average of an evaluation depends.
-/
namespace Concordance

namespace Judgements

variable {judged judged' : Judgements}

/-! ## One line -/

theorem getElem?_record (judged : Judgements) (query : String) (doc : DocId) (other : String) :
    (judged.record query doc)[other]? =
      if query = other then some (judged[query]?.getD [] ++ [doc]) else judged[other]? := by
  unfold record
  rw [Std.TreeMap.getElem?_alter]
  simp only [Std.LawfulEqCmp.compare_eq_iff_eq]

theorem readLine_eq_ok_iff {line : List Char} : judged.readLine line = .ok judged' ↔
    (ofLine line = .ok none ∧ judged' = judged) ∨
    ∃ query doc, ofLine line = .ok (some (query, doc)) ∧ judged' = judged.record query doc := by
  unfold readLine
  rw [bind_eq_ok_iff]
  constructor
  · intro h
    obtain ⟨stated, hline, h⟩ := h
    cases stated with
    | none => exact .inl ⟨hline, (Except.ok.inj h).symm⟩
    | some judgement =>
      exact .inr ⟨judgement.1, judgement.2, hline, (Except.ok.inj h).symm⟩
  · intro h
    obtain ⟨hline, rfl⟩ | ⟨query, doc, hline, rfl⟩ := h
    · exact ⟨none, hline, rfl⟩
    · exact ⟨some (query, doc), hline, rfl⟩

/-! ## No empty lists -/

/-- Each query that is found has a judgement. -/
def Proper (judged : Judgements) : Prop :=
  ∀ (query : String) (docs : List DocId), judged[query]? = some docs → docs ≠ []

theorem proper_empty : Proper ∅ := by
  intro query docs h
  rw [Std.TreeMap.getElem?_emptyc] at h
  cases h

theorem Proper.record (h : judged.Proper) (query : String) (doc : DocId) :
    (judged.record query doc).Proper := by
  intro other docs hother
  rw [getElem?_record] at hother
  split at hother
  · obtain rfl := Option.some.inj hother
    exact List.append_ne_nil_of_right_ne_nil _ (List.cons_ne_nil doc [])
  · exact h other docs hother

theorem Proper.readLine (h : judged.Proper) {line : List Char}
    (hline : judged.readLine line = .ok judged') : judged'.Proper := by
  obtain ⟨-, rfl⟩ | ⟨query, doc, -, rfl⟩ := readLine_eq_ok_iff.mp hline
  · exact h
  · exact h.record query doc

theorem Proper.readLines {lines : List (List Char)} : ∀ {judged : Judgements}, judged.Proper →
    lines.foldlM Judgements.readLine judged = .ok judged' → judged'.Proper := by
  induction lines with
  | nil =>
    intro judged h hlines
    obtain rfl := Except.ok.inj hlines
    exact h
  | cons line lines ih =>
    intro judged h hlines
    rw [List.foldlM_cons] at hlines
    obtain ⟨next, hline, hrest⟩ := bind_eq_ok_iff.mp hlines
    exact ih (h.readLine hline) hrest

theorem proper_parse {text : String} (h : parse text = .ok judged) : judged.Proper :=
  proper_empty.readLines h

end Judgements

namespace Files

variable {files : Files}

theorem proper_readJudgements {path : String} {judged : Judgements}
    (h : files.readJudgements path = .ok judged) : judged.Proper := by
  obtain ⟨text, -, hparse⟩ := bind_eq_ok_iff.mp h
  exact Judgements.proper_parse hparse

/-! ## The queries of a directory -/

theorem list_eq_ok {dir : String} {found : List (Bytes × Except FileError ByteArray)}
    (h : files.list dir = .ok found) : ∃ entries, files dir = .ok (.directory entries) ∧
      found.Perm (regularFiles entries) := by
  obtain ⟨entry, hentry, h⟩ := bind_eq_ok_iff.mp h
  cases entry with
  | file content => cases h
  | directory entries =>
    obtain rfl := Except.ok.inj h
    exact ⟨entries, hentry, List.mergeSort_perm _ _⟩

theorem mem_of_addQuery {queries queries' : Queries} {file : Bytes × Except FileError ByteArray}
    (h : addQuery queries file = .ok queries') (id : String) :
    id ∈ queries' ↔ id = file.1.shown ∨ id ∈ queries := by
  obtain ⟨text, -, h⟩ := bind_eq_ok_iff.mp h
  obtain rfl := Except.ok.inj h
  rw [Std.TreeMap.mem_insert, Std.LawfulEqCmp.compare_eq_iff_eq, eq_comm]

theorem mem_of_addQueries {found : List (Bytes × Except FileError ByteArray)} :
    ∀ {queries queries' : Queries}, found.foldlM addQuery queries = .ok queries' →
      ∀ id, id ∈ queries' ↔ id ∈ found.map (·.1.shown) ∨ id ∈ queries := by
  induction found with
  | nil =>
    intro queries queries' h id
    obtain rfl := Except.ok.inj h
    simp
  | cons file found ih =>
    intro queries queries' h id
    rw [List.foldlM_cons] at h
    obtain ⟨next, hfile, hrest⟩ := bind_eq_ok_iff.mp h
    rw [ih hrest, mem_of_addQuery hfile, List.map_cons, List.mem_cons, or_assoc, or_left_comm]

theorem readQueries_eq_ok {dir : String} {texts : List (String × String)}
    (h : files.readQueries dir = .ok texts) : ∃ entries, files dir = .ok (.directory entries) ∧
      (∀ id, id ∈ texts.map (·.1) ↔ id ∈ (regularFiles entries).map (·.1.shown)) ∧
      (texts.map (·.1)).Pairwise (· < ·) := by
  obtain ⟨found, hfound, h⟩ := bind_eq_ok_iff.mp h
  obtain ⟨queries, hqueries, h⟩ := bind_eq_ok_iff.mp h
  obtain rfl := Except.ok.inj h
  obtain ⟨entries, hdir, hperm⟩ := list_eq_ok (mapError_eq_ok_iff.mp hfound)
  have hkeys : queries.toList.map (·.1) = queries.keys := Std.TreeMap.map_fst_toList_eq_keys
  rw [hkeys]
  refine ⟨entries, hdir, fun id => ?_, ?_⟩
  · rw [Std.TreeMap.mem_keys, mem_of_addQueries hqueries, (hperm.map _).mem_iff]
    simp
  · have hascending : queries.keys.Pairwise fun a b => compare a b = .lt :=
      Std.TreeMap.ordered_keys
    exact hascending.imp fun hlt => compareOfLessAndEq_eq_lt.mp hlt

end Files
end Concordance
