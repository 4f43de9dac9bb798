import Concordance.Proofs.Corpus.Load
import Concordance.Proofs.Retrieval.Correction
import Concordance.Proofs.Retrieval.Phrase
/-!
A word finds the same in quotes as without (`search_quoted_word`). The two are read in different
ways. A word is a run of query characters of which the first index word counts; what stands in
quotes is cut at its blanks, and all its index words count. But no query character is blank
(`isBlank_of_isQueryChar`), so that a run is one piece of text, which has one index word or none
(`words_of_isQueryChar`). With one, the phrase of that word is looked up as the word is. With none,
the phrase finds nothing, and neither does the empty word, which stands in no text and has no grams
(`lookup_empty`).
-/
namespace Concordance

open Builder (ofCalls)
open Query (isQueryChar isBlank_of_isQueryChar)

/-! ## Words without blanks -/

theorem words_of_isQueryChar {w : String} (h : ∀ c ∈ w.toList, isQueryChar c = true) :
    words w = (firstWord? w.toList).toList :=
  words_of_not_blank fun c hc => isBlank_of_isQueryChar (h c hc)

namespace Query
variable {w : String}

theorem parse_word (hne : w ≠ "") (h : ∀ c ∈ w.toList, isQueryChar c = true)
    (hkeyword : w ∉ ["AND", "OR", "NOT"]) : parse w = .ok [.leaf false (.term (normalize w))] := by
  have hwrites := Writes.run (by simpa using hne) h
  rw [Token.ofRun_of_not_keyword hkeyword] at hwrites
  exact parse_of_isConjunction hwrites (.conjunct (.operand (IsOperand.nots (.word w) 0)))

theorem not_quote_of_isQueryChar (h : ∀ c ∈ w.toList, isQueryChar c = true) :
    '"' ∉ w.toList := by
  intro hm
  exact absurd (h '"' hm) (by decide)

end Query

/-! ## Indexes of texts -/

namespace Index
variable {order : TableOrder} {index : Index} {settings : Settings}
  {docs : List (DocId × String)} {w : String}

/-- The index comes from texts, given to a builder one by one or loaded from a directory. -/
inductive OfTexts (index : Index) : Prop where
  | added (docs : List (DocId × String)) (order : TableOrder) :
    (ofCalls (documentCalls docs)).build order = .ok index → OfTexts index
  | loaded (files : Files) (order : TableOrder) (dir : String) :
    files.loadCorpus order dir = .ok index → OfTexts index

theorem OfTexts.exists_docs (h : index.OfTexts) :
    ∃ docs order, (ofCalls (documentCalls docs)).build order = .ok index := by
  cases h with
  | added docs order hbuild => exact ⟨docs, order, hbuild⟩
  | loaded files order dir hload =>
    obtain ⟨docs, hbuild⟩ := Files.loadCorpus_eq_ok hload
    exact ⟨docs, order, hbuild⟩

theorem docs_empty (hbuild : (ofCalls (documentCalls docs)).build order = .ok index) :
    index.docs "" = [] := by
  apply List.eq_nil_iff_forall_not_mem.mpr
  intro d hd
  obtain ⟨p, hrecorded⟩ := (mem_docs hbuild).mp hd
  obtain ⟨text, -, ho⟩ := recorded_documentCalls.mp hrecorded
  have hword := List.mem_map_of_mem (f := (·.term)) ho
  rw [map_term_occurrences] at hword
  exact (isTerm_of_mem_words hword).ne_empty rfl

/-- The empty word is not corrected. -/
theorem resolve_empty {n : Nat} (hn : 0 < n) (tolerance : Nat) :
    index.resolve n tolerance "" = [] := by
  apply List.eq_nil_iff_forall_not_mem.mpr
  intro d hd
  obtain ⟨term, hterm, -⟩ := mem_resolve.mp hd
  obtain ⟨gram, hgram, -⟩ := mem_corrections.mp hterm
  obtain ⟨-, hle⟩ := exists_mem_grams_iff.mp ⟨gram, hgram⟩
  exact absurd hle (Nat.not_le.mpr hn)

theorem lookup_empty (hbuild : (ofCalls (documentCalls docs)).build order = .ok index)
    (hn : 0 < settings.gramSize) : index.lookup settings "" = [] := by
  rw [lookup, docs_empty hbuild, resolve_empty hn, ite_self]

theorem evaluate_phrase_nil : index.evaluate settings [.leaf false (.phrase [])] = [] := by
  rw [evaluate, restrict, nodeDocs]
  rfl

theorem evaluate_phrase_single (term : Term) :
    index.evaluate settings [.leaf false (.phrase [term])] = index.lookup settings term := by
  rw [evaluate, restrict, nodeDocs]
  rfl

/-- A word finds the same documents in quotes as without, and none if it has no character that index
words are made of. -/
theorem search_quoted_word (h : index.OfTexts) (hs : settings.validate = .ok ()) (hne : w ≠ "")
    (hchars : ∀ c ∈ w.toList, isQueryChar c = true) (hkeyword : w ∉ ["AND", "OR", "NOT"]) :
    ∃ ds, index.search settings w = .ok ds ∧
      index.search settings ("\"" ++ w ++ "\"") = .ok ds ∧
      ((∀ c ∈ w.toList, isWordChar c = false) → ds = []) := by
  obtain ⟨docs, order, hbuild⟩ := h.exists_docs
  have hplain : index.search settings w = _ :=
    search_of_parse hs (Query.parse_word hne hchars hkeyword)
  have hquoted : index.search settings ("\"" ++ w ++ "\"") = _ :=
    search_of_parse hs (Query.parse_quoted (Query.not_quote_of_isQueryChar hchars))
  rw [evaluate_term] at hplain
  have hwords := words_of_isQueryChar hchars
  -- the run has an index word, or both queries ask for nothing
  cases hfirst : firstWord? w.toList with
  | none =>
    have hnil : words w = [] := by rw [hwords, hfirst]; rfl
    have hnormalize : Query.normalize w = "" := by rw [Query.normalize, hnil]; rfl
    rw [hnormalize, lookup_empty hbuild (Settings.gramSize_pos hs)] at hplain
    rw [hnil, evaluate_phrase_nil] at hquoted
    exact ⟨[], hplain, hquoted, fun _ => rfl⟩
  | some term =>
    have hone : words w = [term] := by rw [hwords, hfirst]; rfl
    have hnormalize : Query.normalize w = term := by rw [Query.normalize, hone]; rfl
    rw [hnormalize] at hplain
    rw [hone, evaluate_phrase_single] at hquoted
    refine ⟨index.lookup settings term, hplain, hquoted, ?_⟩
    intro hnone
    rw [firstWord?_eq_none hnone] at hfirst
    cases hfirst

/-- An index word ends at the accent, which is a word character of queries only. -/
theorem search_quoted_word_accent : ∃ index,
    (ofCalls (documentCalls [(4, "caf"), (9, "un café"), (6, "cafés")])).build .byTerm = .ok index ∧
    (∃ ds, index.search {} "Café" = .ok ds ∧ index.search {} "\"Café\"" = .ok ds) ∧
    index.search {} "é" = .ok [] ∧ index.search {} "\"é\"" = .ok [] := by
  obtain ⟨index, hbuild⟩ := Builder.exists_build_ofCalls
    (not_silent_documentCalls (List.cons_ne_nil (4, "caf") [(9, "un café"), (6, "cafés")]))
    .byTerm
  have htexts : index.OfTexts := .added _ _ hbuild
  obtain ⟨ds, hplain, hquoted, -⟩ := search_quoted_word htexts Settings.validate_default
    (show "Café" ≠ "" by decide) (List.all_eq_true.mp (by decide +kernel)) (by decide)
  obtain ⟨es, hplain', hquoted', hnone⟩ := search_quoted_word htexts Settings.validate_default
    (show "é" ≠ "" by decide) (List.all_eq_true.mp (by decide +kernel)) (by decide)
  have haccent : ∀ c ∈ "é".toList, isWordChar c = false := by
    intro c hc
    obtain rfl := List.mem_singleton.mp (show c ∈ ['é'] from hc)
    decide
  obtain rfl := hnone haccent
  exact ⟨index, hbuild, ⟨ds, hplain, hquoted⟩, hplain', hquoted'⟩

end Index
end Concordance
