import Concordance.Text.Occurrence
/-!
The words of a text. Cutting splits at every blank (`words_append_blank`), and the words that come
out are spelled in a small alphabet (`isTerm_of_mem_words`): of each piece it is the first run of word
characters (`firstWord?_eq_some_iff`). There are none only where the text has no word character at
all (`words_eq_nil_iff`). A list of such words, joined by blanks, has exactly
these words again (`words_intercalate`). The positions of the words are their places in the list
(`mem_occurrences`), from zero on in steps of one (`map_toNat_position_occurrences`).
-/
namespace Concordance

/-! ## Pieces -/

section
variable {α : Type} {cut : α → Bool}

theorem pieces_ne_nil (cut : α → Bool) : ∀ text, pieces cut text ≠ []
  | [] => List.cons_ne_nil _ _
  | c :: text => by
    rw [pieces, List.foldr_cons]
    split <;> exact List.cons_ne_nil _ _

theorem pieces_cons_cut {c : α} (hc : cut c = true) (text : List α) :
    pieces cut (c :: text) = [] :: pieces cut text := by
  rw [pieces, List.foldr_cons, if_pos hc]
  rfl

theorem pieces_cons_of_not_cut {c : α} (hc : cut c = false) {text piece : List α}
    {rest : List (List α)} (h : pieces cut text = piece :: rest) :
    pieces cut (c :: text) = (c :: piece) :: rest := by
  have hcons : pieces cut (c :: text) =
      (c :: (pieces cut text).headD []) :: (pieces cut text).tail := by
    rw [pieces, List.foldr_cons, if_neg (by simp [hc])]
    rfl
  rw [hcons, h]
  rfl

theorem pieces_append {c : α} (hc : cut c = true) : ∀ before after : List α,
    pieces cut (before ++ c :: after) = pieces cut before ++ pieces cut after
  | [], after => pieces_cons_cut hc after
  | b :: before, after => by
    have ih := pieces_append hc before after
    obtain ⟨piece, rest, h⟩ := List.exists_cons_of_ne_nil (pieces_ne_nil cut before)
    rw [h, List.cons_append] at ih
    cases hb : cut b with
    | true => rw [List.cons_append, pieces_cons_cut hb, pieces_cons_cut hb, ih, h]; rfl
    | false =>
      rw [List.cons_append, pieces_cons_of_not_cut hb ih, pieces_cons_of_not_cut hb h]
      rfl

theorem pieces_of_not_cut : ∀ {text : List α}, (∀ c ∈ text, cut c = false) →
    pieces cut text = [text]
  | [], _ => rfl
  | c :: text, h => by
    have ih := pieces_of_not_cut fun d hd => h d (List.mem_cons_of_mem c hd)
    exact pieces_cons_of_not_cut (h c List.mem_cons_self) ih

theorem flatten_pieces (cut : Char → Bool) : ∀ text : List Char,
    (pieces cut text).flatten = text.filter (!cut ·)
  | [] => rfl
  | c :: text => by
    have ih := flatten_pieces cut text
    cases hc : cut c with
    | true =>
      rw [pieces_cons_cut hc, List.filter_cons_of_neg (by simp [hc])]
      exact ih
    | false =>
      obtain ⟨piece, rest, h⟩ := List.exists_cons_of_ne_nil (pieces_ne_nil cut text)
      rw [pieces_cons_of_not_cut hc h, List.filter_cons_of_pos (by simp [hc]), ← ih, h]
      rfl

end

/-! ## Runs -/

/-- A run ends where the characters behind it are of another kind. -/
theorem takeWhile_append_of_closed {p : Char → Bool} {run text : List Char}
    (hrun : ∀ c ∈ run, p c = true) (htext : ∀ c ∈ text.head?, p c = false) :
    (run ++ text).takeWhile p = run := by
  rw [List.takeWhile_append_of_pos hrun]
  cases text with
  | nil => rw [List.takeWhile_nil, List.append_nil]
  | cons c text =>
    rw [List.takeWhile_cons_of_neg (by simp [htext c rfl]), List.append_nil]

theorem head?_dropWhile {p : Char → Bool} (text : List Char) :
    ∀ c ∈ (text.dropWhile p).head?, p c = false := by
  intro c hc
  have h := List.head?_dropWhile_not p text
  rw [Option.mem_def.mp hc] at h
  simpa using h

/-! ## The alphabet of words -/

/-- Words are spelled in small ASCII letters, ASCII digits and the apostrophe. -/
def isTermChar (c : Char) : Bool := c.isLower || c.isDigit || c == '\''

/-- A word that a text can have. -/
structure IsTerm (word : Term) : Prop where
  ne_empty : word ≠ ""
  alphabet : ∀ c ∈ word.toList, isTermChar c = true

theorem IsTerm.toList_ne_nil {word : Term} (h : IsTerm word) : word.toList ≠ [] := by
  simpa using h.ne_empty

/-- What holds of the first 128 characters holds of every ASCII character. -/
theorem of_ascii (p : Char → Prop) (h : ∀ n < 128, p (Char.ofNat n)) {c : Char}
    (hc : c.toNat < 128) : p c := by
  have := h c.toNat hc
  rwa [Char.ofNat_toNat] at this

theorem isWordChar_eq (c : Char) : isWordChar c = (c.isUpper || isTermChar c) := by
  calc isWordChar c = (((c.isUpper || c.isLower) || c.isDigit) || c == '\'') := rfl
    _ = (c.isUpper || isTermChar c) := by simp only [isTermChar, Bool.or_assoc]

theorem isWordChar_of_isTermChar {c : Char} (h : isTermChar c = true) : isWordChar c = true := by
  rw [isWordChar_eq, h, Bool.or_true]

theorem toNat_lt_of_isWordChar {c : Char} (h : isWordChar c = true) : c.toNat < 128 := by
  have hbelow : ∀ high : Char, c.val ≤ high.val → high.toNat < 128 → c.toNat < 128 :=
    fun high hle hhigh => Nat.lt_of_le_of_lt hle hhigh
  rw [isWordChar_eq, isTermChar, Bool.or_eq_true, Bool.or_eq_true, Bool.or_eq_true] at h
  rcases h with h | (h | h) | h
  · exact hbelow 'Z' (of_decide_eq_true h).2 (by decide)
  · exact hbelow 'z' (of_decide_eq_true (Bool.and_eq_true_iff.mp h).2) (by decide)
  · exact hbelow '9' (of_decide_eq_true (Bool.and_eq_true_iff.mp h).2) (by decide)
  · obtain rfl := beq_iff_eq.mp h
    decide

theorem isTermChar_toLower {c : Char} (h : isWordChar c = true) : isTermChar c.toLower = true := by
  exact of_ascii (fun c => isWordChar c = true → isTermChar c.toLower = true) (by decide)
    (toNat_lt_of_isWordChar h) h

theorem isTermChar_spec {c : Char} (h : isTermChar c = true) :
    isBlank c = false ∧ c.toLower = c := by
  exact of_ascii (fun c => isTermChar c = true → isBlank c = false ∧ c.toLower = c) (by decide)
    (toNat_lt_of_isWordChar (isWordChar_of_isTermChar h)) h

theorem isBlank_of_isWordChar {c : Char} (h : isWordChar c = true) : isBlank c = false :=
  of_ascii (fun c => isWordChar c = true → isBlank c = false) (by decide)
    (toNat_lt_of_isWordChar h) h

/-! ## Words -/

theorem firstWord?_eq_none_iff {piece : List Char} :
    firstWord? piece = none ↔ ∀ c ∈ piece, isWordChar c = false := by
  induction piece with
  | nil => simp [firstWord?]
  | cons c piece ih =>
    cases hc : isWordChar c with
    | true => simp [firstWord?, hc]
    | false =>
      have hskip : firstWord? (c :: piece) = firstWord? piece := by simp [firstWord?, hc]
      rw [hskip, ih]
      simp [hc]

theorem firstWord?_eq_none {piece : List Char} (h : ∀ c ∈ piece, isWordChar c = false) :
    firstWord? piece = none :=
  firstWord?_eq_none_iff.mpr h

/-- The first run of word characters in a piece of text: none stands before it, and none goes on
behind it. -/
def IsFirstRun (run piece : List Char) : Prop :=
  ∃ before after, piece = before ++ (run ++ after) ∧ (∀ c ∈ before, isWordChar c = false) ∧
    run ≠ [] ∧ (∀ c ∈ run, isWordChar c = true) ∧ ∀ c ∈ after.head?, isWordChar c = false

theorem isFirstRun_takeWhile {piece : List Char}
    (hne : (piece.dropWhile (!isWordChar ·)).takeWhile isWordChar ≠ []) :
    IsFirstRun ((piece.dropWhile (!isWordChar ·)).takeWhile isWordChar) piece := by
  refine ⟨piece.takeWhile (!isWordChar ·), (piece.dropWhile (!isWordChar ·)).dropWhile isWordChar,
    ?_, ?_, hne, ?_, head?_dropWhile _⟩
  · rw [List.takeWhile_append_dropWhile, List.takeWhile_append_dropWhile]
  · intro c hc
    simpa using List.all_eq_true.mp List.all_takeWhile c hc
  · exact List.all_eq_true.mp List.all_takeWhile

theorem IsFirstRun.takeWhile_eq {run piece : List Char} (h : IsFirstRun run piece) :
    (piece.dropWhile (!isWordChar ·)).takeWhile isWordChar = run := by
  obtain ⟨before, after, rfl, hbefore, hne, hrun, hafter⟩ := h
  obtain ⟨c, cs, rfl⟩ := List.exists_cons_of_ne_nil hne
  have hskip : (before ++ (c :: cs ++ after)).dropWhile (!isWordChar ·) = c :: cs ++ after := by
    rw [List.dropWhile_append_of_pos (by simpa using hbefore), List.cons_append,
      List.dropWhile_cons_of_neg (by simp [hrun c List.mem_cons_self])]
  rw [hskip, takeWhile_append_of_closed hrun hafter]

/-- The word of a piece of text is its first run of word characters, in lower case. -/
theorem firstWord?_eq_some_iff {piece : List Char} {word : Term} : firstWord? piece = some word ↔
    ∃ run, IsFirstRun run piece ∧ word = String.ofList (run.map Char.toLower) := by
  unfold firstWord?
  constructor
  · intro h
    split at h
    · cases h
    · next hne => exact ⟨_, isFirstRun_takeWhile hne, (Option.some.inj h).symm⟩
  · rintro ⟨run, hrun, rfl⟩
    rw [hrun.takeWhile_eq]
    obtain ⟨-, -, -, -, hne, -⟩ := hrun
    split
    · next hnil => exact absurd rfl hne
    · rfl

theorem firstWord?_of_isTerm {word : Term} (h : IsTerm word) :
    firstWord? word.toList = some word := by
  have hlower : word.toList.map Char.toLower = word.toList := by
    rw [List.map_congr_left fun c hc => (isTermChar_spec (h.alphabet c hc)).2, List.map_id']
  have hrun : IsFirstRun word.toList word.toList := by
    refine ⟨[], [], by simp, by simp, h.toList_ne_nil, ?_, by simp⟩
    exact fun c hc => isWordChar_of_isTermChar (h.alphabet c hc)
  exact firstWord?_eq_some_iff.mpr ⟨word.toList, hrun, by rw [hlower, String.ofList_toList]⟩

theorem isTerm_of_firstWord? {piece : List Char} {word : Term} (h : firstWord? piece = some word) :
    IsTerm word := by
  obtain ⟨run, ⟨-, -, -, -, hne, hrun, -⟩, rfl⟩ := firstWord?_eq_some_iff.mp h
  refine ⟨by simpa using hne, fun c hc => ?_⟩
  rw [String.toList_ofList, List.mem_map] at hc
  obtain ⟨d, hd, rfl⟩ := hc
  exact isTermChar_toLower (hrun d hd)

theorem isTerm_of_mem_words {text : String} {word : Term} (h : word ∈ words text) :
    IsTerm word := by
  obtain ⟨piece, _, hpiece⟩ := List.mem_filterMap.mp h
  exact isTerm_of_firstWord? hpiece

theorem words_eq_nil_iff {text : String} :
    words text = [] ↔ ∀ c ∈ text.toList, isWordChar c = false := by
  rw [words, List.filterMap_eq_nil_iff]
  simp only [firstWord?_eq_none_iff]
  constructor
  · intro h c hc
    apply Bool.eq_false_iff.mpr
    intro hword
    -- no word character is cut away
    have hkept : c ∈ (pieces isBlank text.toList).flatten := by
      rw [flatten_pieces, List.mem_filter]
      exact ⟨hc, by rw [isBlank_of_isWordChar hword]; rfl⟩
    obtain ⟨piece, hpiece, hmem⟩ := List.mem_flatten.mp hkept
    rw [h piece hpiece c hmem] at hword
    cases hword
  · intro h piece hpiece c hc
    have hkept : c ∈ (pieces isBlank text.toList).flatten := List.mem_flatten.mpr ⟨piece, hpiece, hc⟩
    rw [flatten_pieces, List.mem_filter] at hkept
    exact h c hkept.1

/-- A blank separates the words before it from those behind it. -/
theorem words_append_blank {c : Char} (hc : isBlank c = true) (before after : String) :
    words (before ++ (String.singleton c ++ after)) = words before ++ words after := by
  simp only [words, String.toList_append, String.toList_singleton, List.singleton_append,
    pieces_append hc, List.filterMap_append]

theorem words_of_not_blank {piece : String} (h : ∀ c ∈ piece.toList, isBlank c = false) :
    words piece = (firstWord? piece.toList).toList := by
  rw [words, pieces_of_not_cut h]
  cases hword : firstWord? piece.toList with
  | none => rw [List.filterMap_cons_none hword]; rfl
  | some word => rw [List.filterMap_cons_some hword]; rfl

theorem words_of_isTerm {word : Term} (h : IsTerm word) : words word = [word] := by
  rw [words_of_not_blank fun c hc => (isTermChar_spec (h.alphabet c hc)).1,
    firstWord?_of_isTerm h]
  rfl

/-- Words joined by blanks are found again. -/
theorem words_intercalate : ∀ {ws : List Term}, (∀ word ∈ ws, IsTerm word) →
    words (" ".intercalate ws) = ws
  | [], _ => rfl
  | [word], h => by
    rw [String.intercalate_singleton, words_of_isTerm (h word List.mem_cons_self)]
  | word :: word' :: ws, h => by
    have ih := words_intercalate fun w hw => h w (List.mem_cons_of_mem word hw)
    rw [String.intercalate_cons_cons, String.append_assoc, show " " = String.singleton ' ' from rfl,
      words_append_blank (by decide), words_of_isTerm (h word List.mem_cons_self)]
    exact congrArg (word :: ·) ih

/-! ## Positions -/

theorem map_term_occurrences (text : String) : (occurrences text).map (·.term) = words text := by
  rw [occurrences, List.map_map]
  exact List.zipIdx_map_fst 0 (words text)

theorem length_occurrences (text : String) : (occurrences text).length = (words text).length := by
  rw [← map_term_occurrences, List.length_map]

theorem map_position_occurrences (text : String) :
    (occurrences text).map (·.position) = (List.range (words text).length).map .ofNat := by
  rw [occurrences, List.map_map, List.range_eq_range', ← List.zipIdx_map_snd 0 (words text),
    List.map_map]
  rfl

/-- The positions count from zero in steps of one. -/
theorem map_toNat_position_occurrences {text : String} (h : (words text).length < UInt32.size) :
    (occurrences text).map (·.position.toNat) = List.range (words text).length := by
  calc (occurrences text).map (·.position.toNat)
    _ = ((occurrences text).map (·.position)).map UInt32.toNat := by rw [List.map_map]; rfl
    _ = (List.range (words text).length).map fun i => (UInt32.ofNat i).toNat := by
      rw [map_position_occurrences, List.map_map]
      rfl
    _ = (List.range (words text).length).map id := by
      apply List.map_congr_left
      intro i hi
      exact UInt32.toNat_ofNat_of_lt' (Nat.lt_trans (List.mem_range.mp hi) h)
    _ = List.range (words text).length := List.map_id _

theorem mem_occurrences {text : String} (h : (words text).length < UInt32.size) {term : Term}
    {p : Position} : ⟨term, p⟩ ∈ occurrences text ↔ (words text)[p.toNat]? = some term := by
  simp only [occurrences, List.mem_map, Prod.exists, List.mem_zipIdx_iff_getElem?,
    Occurrence.mk.injEq]
  constructor
  · rintro ⟨_, i, hi, rfl, rfl⟩
    obtain ⟨hlt, _⟩ := List.getElem?_eq_some_iff.mp hi
    rwa [UInt32.toNat_ofNat_of_lt' (Nat.lt_trans hlt h)]
  · intro hp
    exact ⟨term, p.toNat, hp, rfl, UInt32.ofNat_toNat⟩

end Concordance
