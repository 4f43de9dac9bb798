import Concordance.Evaluation.Judgements
import Concordance.Proofs.Text.Words
/-!
Lines and their fields. A text is its lines with line breaks between them, and no line has a line
break in it (`areLines_linesOf`). The fields of a line are its runs without blanks, as the blanks
separate them: `HasFields` says so by one rule for the field in front, and a line has the fields
that are read from it, and no others (`fields_eq_iff`).
-/
namespace Concordance.Judgements

/-! ## Lines -/

/-- Where only one character is a mark, the pieces with marks between them are the text. -/
theorem intercalate_pieces {cut : Char → Bool} {mark : Char}
    (hmark : ∀ c, cut c = true → c = mark) :
    ∀ text : List Char, [mark].intercalate (pieces cut text) = text
  | [] => rfl
  | c :: text => by
    have ih := intercalate_pieces hmark text
    obtain ⟨piece, rest, h⟩ := List.exists_cons_of_ne_nil (pieces_ne_nil cut text)
    rw [h] at ih
    cases hc : cut c with
    | true =>
      rw [pieces_cons_cut hc, h, List.intercalate_cons_cons, ih, hmark c hc]
      rfl
    | false =>
      rw [pieces_cons_of_not_cut hc h]
      cases rest with
      | nil =>
        rw [List.intercalate_singleton] at ih ⊢
        rw [ih]
      | cons next rest =>
        rw [List.intercalate_cons_cons] at ih ⊢
        rw [List.cons_append, List.cons_append, ih]

/-- The lines of a text: with line breaks between them they are the text, and they have none. -/
structure AreLines (lines : List (List Char)) (text : String) : Prop where
  joined : ['\n'].intercalate lines = text.toList
  unbroken : ∀ line ∈ lines, '\n' ∉ line

def linesOf (text : String) : List (List Char) := pieces (· == '\n') text.toList

theorem areLines_linesOf (text : String) : AreLines (linesOf text) text where
  joined := intercalate_pieces (fun _ h => beq_iff_eq.mp h) text.toList
  unbroken := by
    intro line hline hbreak
    have hkept : '\n' ∈ (linesOf text).flatten := List.mem_flatten.mpr ⟨line, hline, hbreak⟩
    rw [linesOf, flatten_pieces, List.mem_filter] at hkept
    exact absurd hkept.2 (by decide)

theorem linesOf_append (before after : String) :
    linesOf (before ++ "\n" ++ after) = linesOf before ++ linesOf after := by
  have htext : (before ++ "\n" ++ after).toList = before.toList ++ '\n' :: after.toList := by
    rw [String.toList_append, String.toList_append, List.append_assoc]
    rfl
  rw [linesOf, htext]
  exact @pieces_append Char (· == '\n') '\n' rfl _ _

/-! ## Fields -/

/-- The line has these fields: runs without blanks, with blanks between them. -/
inductive HasFields : List Char → List String → Prop where
  | nil {gap : List Char} : (∀ c ∈ gap, isBlank c = true) → HasFields gap []
  | cons {gap run rest : List Char} {fields : List String} : (∀ c ∈ gap, isBlank c = true) →
    run ≠ [] → (∀ c ∈ run, isBlank c = false) → (∀ c ∈ rest.head?, isBlank c = true) →
    HasFields rest fields → HasFields (gap ++ (run ++ rest)) (String.ofList run :: fields)

variable {line gap run rest : List Char}

theorem fields_blanks (hgap : ∀ c ∈ gap, isBlank c = true) :
    fields (gap ++ rest) = fields rest := by
  induction gap with
  | nil => rfl
  | cons c gap ih =>
    rw [List.forall_mem_cons] at hgap
    rw [← ih hgap.2, List.cons_append, fields, pieces_cons_cut hgap.1]
    rfl

/-- The run in front of a line is its first field. -/
theorem fields_run (hne : run ≠ []) (hrun : ∀ c ∈ run, isBlank c = false)
    (hrest : ∀ c ∈ rest.head?, isBlank c = true) :
    fields (run ++ rest) = String.ofList run :: fields rest := by
  have hrun' : pieces isBlank run = [run] := pieces_of_not_cut hrun
  have hkept : run.isEmpty = false := by simpa using hne
  cases rest with
  | nil =>
    rw [List.append_nil, fields, hrun', List.filter_cons_of_pos (by simp [hkept])]
    rfl
  | cons c rest =>
    have hc := hrest c rfl
    rw [fields, pieces_append hc, hrun', fields, pieces_cons_cut hc]
    simp [hkept]

theorem HasFields.fields_eq {fs : List String} (h : HasFields line fs) : fields line = fs := by
  induction h with
  | @nil gap hgap =>
    have hline : fields (gap ++ []) = fields [] := fields_blanks hgap
    rw [List.append_nil] at hline
    exact hline
  | cons hgap hne hrun hrest _ ih => rw [fields_blanks hgap, fields_run hne hrun hrest, ih]

/-- Every line has fields. The induction is on the length, as a field and what is in front of it
take at least one character. -/
theorem exists_hasFields (line : List Char) : ∃ fs, HasFields line fs := by
  have hgap : ∀ c ∈ line.takeWhile isBlank, isBlank c = true :=
    List.all_eq_true.mp List.all_takeWhile
  have hline : line = line.takeWhile isBlank ++ line.dropWhile isBlank :=
    List.takeWhile_append_dropWhile.symm
  cases hbehind : line.dropWhile isBlank with
  | nil =>
    rw [hbehind, List.append_nil] at hline
    rw [hline]
    exact ⟨[], .nil hgap⟩
  | cons c behind =>
    have hc : isBlank c = false := head?_dropWhile line c (by rw [hbehind]; rfl)
    have hrun : ∀ d ∈ c :: behind.takeWhile (!isBlank ·), isBlank d = false := by
      refine List.forall_mem_cons.mpr ⟨hc, fun d hd => ?_⟩
      simpa using List.all_eq_true.mp List.all_takeWhile d hd
    have hrest : ∀ d ∈ (behind.dropWhile (!isBlank ·)).head?, isBlank d = true := by
      intro d hd
      simpa using head?_dropWhile behind d hd
    -- for the recursion: the first field is gone
    have hshorter : (behind.dropWhile (!isBlank ·)).length < line.length := by
      have hle := (List.dropWhile_sublist (!isBlank ·) (l := behind)).length_le
      have hle' := (List.dropWhile_sublist isBlank (l := line)).length_le
      rw [hbehind, List.length_cons] at hle'
      omega
    obtain ⟨fs, hfs⟩ := exists_hasFields (behind.dropWhile (!isBlank ·))
    have hfields := HasFields.cons hgap (List.cons_ne_nil c _) hrun hrest hfs
    rw [List.cons_append, List.takeWhile_append_dropWhile, ← hbehind, ← hline] at hfields
    exact ⟨_, hfields⟩
termination_by line.length

theorem fields_eq_iff {fs : List String} : fields line = fs ↔ HasFields line fs := by
  constructor
  · intro h
    obtain ⟨found, hfound⟩ := exists_hasFields line
    rw [← h, hfound.fields_eq]
    exact hfound
  · exact HasFields.fields_eq

end Concordance.Judgements
