import Concordance.Proofs.Text.Words
/-!
The words of a text and their positions, seen from its parts. Words are numbered as they come
(`occurrences_eq`), so that those of a second list count on behind those of the first
(`inSequence_append`). Blanks between two texts, however many, end a word and begin none
(`words_append_gap`). From these two, the occurrences in a text are known from the pieces between
its blanks (`occurrences_parts`), and they are those in its own words with single blanks between
them (`occurrences_normal`).
-/
namespace Concordance

/-! ## Numbered words -/

/-- Words at the positions from zero on. -/
def inSequence (terms : List Term) : List Occurrence :=
  terms.zipIdx.map fun (term, i) => ⟨term, .ofNat i⟩

def Occurrence.further (n : Nat) (o : Occurrence) : Occurrence := ⟨o.term, o.position + .ofNat n⟩

theorem occurrences_eq (text : String) : occurrences text = inSequence (words text) := rfl

theorem getElem?_inSequence (terms : List Term) (i : Nat) :
    (inSequence terms)[i]? = terms[i]?.map fun term => ⟨term, .ofNat i⟩ := by
  rw [inSequence, List.getElem?_map, List.getElem?_zipIdx, Option.map_map, Nat.zero_add]
  rfl

theorem inSequence_append (terms more : List Term) :
    inSequence (terms ++ more) =
      inSequence terms ++ (inSequence more).map (·.further terms.length) := by
  have hmore : more.zipIdx terms.length =
      more.zipIdx.map fun (term, i) => (term, terms.length + i) := List.zipIdx_eq_map_add
  rw [inSequence, List.zipIdx_append, Nat.zero_add, hmore, List.map_append, List.map_map]
  refine congrArg (inSequence terms ++ ·) ?_
  rw [inSequence, List.map_map]
  apply List.map_congr_left
  intro (term, i) _
  simp only [Function.comp_apply, Occurrence.further, UInt32.ofNat_add, UInt32.add_comm]

/-! ## Blanks between words -/

theorem words_append_gap : ∀ {gap : List Char}, gap ≠ [] → (∀ c ∈ gap, isBlank c = true) →
    ∀ before after : String,
      words (before ++ (String.ofList gap ++ after)) = words before ++ words after
  | [], hne, _, _, _ => absurd rfl hne
  | [c], _, hgap, before, after => words_append_blank (hgap c List.mem_cons_self) before after
  | c :: d :: gap, _, hgap, before, after => by
    have hrest : words (String.ofList (d :: gap) ++ after) = words after :=
      words_append_gap (List.cons_ne_nil d gap) (fun e he => hgap e (List.mem_cons_of_mem c he)) ""
        after
    rw [String.ofList_cons, String.append_assoc,
      words_append_blank (hgap c List.mem_cons_self), hrest]

theorem mem_occurrences_of_not_blank {piece : String} (h : ∀ c ∈ piece.toList, isBlank c = false)
    {o : Occurrence} :
    o ∈ occurrences piece ↔ o.position = 0 ∧ firstWord? piece.toList = some o.term := by
  rw [occurrences_eq, words_of_not_blank h]
  cases firstWord? piece.toList with
  | none => simp [inSequence]
  | some word =>
    obtain ⟨term, position⟩ := o
    simp [inSequence, and_comm, eq_comm]

/-! ## Texts in parts -/

/-- Blanks between two texts, one or more, keep the words of both, and those of the second count on
behind those of the first. The position of each word is its place, as far as 32 bits hold the
number of the place. A text without blanks has a word only where it has a word character, and that
is its first run of them, in lower case. -/
theorem occurrences_parts :
    (∀ before gap after : String, gap ≠ "" → (∀ c ∈ gap.toList, isBlank c = true) →
      occurrences (before ++ gap ++ after) =
        occurrences before ++ (occurrences after).map (·.further (occurrences before).length)) ∧
    (∀ (text : String) (i : Nat) (o : Occurrence), (occurrences text)[i]? = some o →
      o.position = .ofNat i ∧ (i < UInt32.size → o.position.toNat = i)) ∧
    ∀ piece : String, (∀ c ∈ piece.toList, isBlank c = false) → ∀ o, o ∈ occurrences piece ↔
      o.position = 0 ∧
        ∃ run, IsFirstRun run piece.toList ∧ o.term = String.ofList (run.map Char.toLower) := by
  refine ⟨?_, ?_, ?_⟩
  · intro before gap after hne hgap
    have hwords := words_append_gap (by simpa using hne) hgap before after
    rw [String.ofList_toList, ← String.append_assoc] at hwords
    rw [length_occurrences, occurrences_eq, hwords, inSequence_append]
    rfl
  · intro text i o ho
    rw [occurrences_eq, getElem?_inSequence] at ho
    obtain ⟨term, -, rfl⟩ := Option.map_eq_some_iff.mp ho
    exact ⟨rfl, UInt32.toNat_ofNat_of_lt'⟩
  · intro piece hpiece o
    rw [mem_occurrences_of_not_blank hpiece, firstWord?_eq_some_iff]

/-- Blanks of other kinds than the space, behind a piece without a word and in front of one. -/
theorem occurrences_parts_cat : (∀ c ∈ "\t\u2003\n".toList, isBlank c = true) ∧
    occurrences ("A Cat --" ++ "\t\u2003\n" ++ "= s's-at") = [⟨"a", 0⟩, ⟨"cat", 1⟩, ⟨"s's", 2⟩] := by
  have hgap : ∀ c ∈ "\t\u2003\n".toList, isBlank c = true :=
    List.all_eq_true.mp (by decide)
  obtain ⟨happend, -, -⟩ := occurrences_parts
  refine ⟨hgap, ?_⟩
  rw [happend _ _ _ (by decide) hgap]
  decide +kernel

/-! ## The normal form of a text -/

theorem occurrences_intercalate {terms : List Term} (h : ∀ term ∈ terms, IsTerm term) :
    occurrences (" ".intercalate terms) = inSequence terms := by
  rw [occurrences_eq, words_intercalate h]

/-- Each word of a text is a word of the small alphabet, and the words with single blanks between
them are a text with the same words at the same positions. Every list of such words is that of a
text. -/
theorem occurrences_normal :
    (∀ text : String, (∀ word ∈ words text, IsTerm word) ∧
      occurrences (" ".intercalate (words text)) = occurrences text) ∧
    ∀ terms : List Term, (∀ term ∈ terms, IsTerm term) →
      occurrences (" ".intercalate terms) = inSequence terms := by
  constructor
  · intro text
    have hwords : ∀ word ∈ words text, IsTerm word := fun _ => isTerm_of_mem_words
    exact ⟨hwords, occurrences_intercalate hwords⟩
  · intro terms hterms
    exact occurrences_intercalate hterms

theorem occurrences_normal_cat : (∀ term ∈ ["don't", "0", "'"], IsTerm term) ∧
    " ".intercalate ["don't", "0", "'"] = "don't 0 '" ∧
    occurrences "don't 0 '" = [⟨"don't", 0⟩, ⟨"0", 1⟩, ⟨"'", 2⟩] := by
  have hterms : ∀ term ∈ ["don't", "0", "'"], IsTerm term := by
    intro term hterm
    simp only [List.mem_cons, List.not_mem_nil, or_false] at hterm
    rcases hterm with rfl | rfl | rfl <;> exact ⟨by decide, List.all_eq_true.mp (by decide)⟩
  exact ⟨hterms, rfl, occurrences_normal.2 _ hterms⟩

end Concordance
