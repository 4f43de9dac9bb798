import Concordance.Proofs.Retrieval.Combination
import Concordance.Proofs.Spelling.Distance
import Concordance.Proofs.Spelling.Gram
/-!
Correction. For each gram of a word the nearest neighbours are chosen (`mem_candidates`), and the
documents of all that are chosen stand in for those of the word (`resolve_nearest`). What is nearest
is settled gram by gram: a term that one gram chooses may be further away than one that another gram
has chosen.

Known terms are left alone. An indexed term is its own neighbour at distance zero, and the only one,
so that every gram of it chooses the term itself, and correcting it gives the term back, unless it
has no gram at all (`resolve_of_known`). So a lookup of an indexed term gives the documents that hold
it, or, where these are too few and the term is too short for a gram, none (`evaluate_known_term`).
-/
namespace Concordance

/-! ## Candidates -/

theorem mem_leastBy {α : Type} {measure : α → Nat} {xs : List α} {x : α} :
    x ∈ leastBy measure xs ↔ x ∈ xs ∧ ∀ y ∈ xs, measure x ≤ measure y := by
  rw [leastBy, List.mem_filter, List.all_eq_true]
  simp only [decide_eq_true_eq]

/-- A term of the vocabulary that holds the gram and has about the length of the word. -/
def Neighbour (tolerance : Nat) (word : Term) (vocabulary : List Term) (gram : List Char)
    (term : Term) : Prop :=
  term ∈ vocabulary ∧ similarLength tolerance word term = true ∧ holdsGram gram term = true

section
variable {tolerance n : Nat} {word term : Term} {vocabulary : List Term} {gram : List Char}

theorem mem_candidates : (∃ k, (term, k) ∈ candidates tolerance word vocabulary gram) ↔
    Neighbour tolerance word vocabulary gram term ∧
      ∀ other, Neighbour tolerance word vocabulary gram other →
        editDistance word term ≤ editDistance word other := by
  simp only [candidates, mem_leastBy, List.forall_mem_map]
  simp only [List.mem_map, List.mem_filter, Bool.and_eq_true, Neighbour]
  constructor
  · intro h
    obtain ⟨k, ⟨t, ht, he⟩, hleast⟩ := h
    obtain ⟨rfl, rfl⟩ := Prod.mk.inj he
    exact ⟨ht, hleast⟩
  · intro h
    exact ⟨editDistance word term, ⟨term, h.1, rfl⟩, h.2⟩

/-- A term stands in for a word where it is nearest to it by one of the word's grams. -/
theorem mem_corrections : term ∈ corrections n tolerance word vocabulary ↔
    ∃ gram ∈ grams n word, Neighbour tolerance word vocabulary gram term ∧
      ∀ other, Neighbour tolerance word vocabulary gram other →
        editDistance word term ≤ editDistance word other := by
  rw [corrections, mem_ascending, List.mem_flatMap]
  simp only [← mem_candidates, List.mem_map, Prod.exists, exists_and_right, exists_eq_right]

theorem similarLength_self (tolerance : Nat) (word : Term) :
    similarLength tolerance word word = true := by
  simp [similarLength]

theorem neighbour_self (hknown : word ∈ vocabulary) (hgram : gram ∈ grams n word) :
    Neighbour tolerance word vocabulary gram word :=
  ⟨hknown, similarLength_self tolerance word, holdsGram_of_mem_grams hgram⟩

theorem mem_corrections_of_known (hknown : word ∈ vocabulary) :
    term ∈ corrections n tolerance word vocabulary ↔ term = word ∧ 0 < n ∧ n ≤ word.length := by
  have hself : editDistance word word = 0 := editDistance_eq_zero_iff.mpr rfl
  rw [mem_corrections, ← exists_mem_grams_iff]
  constructor
  · intro h
    obtain ⟨gram, hgram, _, hleast⟩ := h
    -- the word itself is among the neighbours, at distance zero
    have hle := hleast word (neighbour_self hknown hgram)
    rw [hself, Nat.le_zero, editDistance_eq_zero_iff] at hle
    exact ⟨hle.symm, gram, hgram⟩
  · intro h
    obtain ⟨rfl, gram, hgram⟩ := h
    refine ⟨gram, hgram, neighbour_self hknown hgram, ?_⟩
    intro other _
    rw [hself]
    exact Nat.zero_le _

end

/-! ## Lookups -/

namespace Index
variable {index : Index} {settings : Settings} {d : DocId} {term : Term}

theorem mem_resolve {n tolerance : Nat} {word : Term} : d ∈ index.resolve n tolerance word ↔
    ∃ term ∈ corrections n tolerance word index.vocabulary, d ∈ index.docs term := by
  rw [resolve, DocSet.mem_unionAll]
  constructor
  · intro h
    obtain ⟨ds, hds, hd⟩ := h
    obtain ⟨term, hterm, rfl⟩ := List.mem_map.mp hds
    exact ⟨term, hterm, hd⟩
  · intro h
    obtain ⟨term, hterm, hd⟩ := h
    exact ⟨index.docs term, List.mem_map_of_mem hterm, hd⟩

theorem resolve_of_known (hi : index.Sound) (hknown : term ∈ index.vocabulary) {n : Nat}
    (hn : 0 < n) (tolerance : Nat) :
    index.resolve n tolerance term = if n ≤ term.length then index.docs term else [] := by
  apply (hi.resolve n tolerance term).ascending.ext
  · split
    · exact (hi.docs term).ascending
    · exact List.Pairwise.nil
  · intro d
    rw [mem_resolve]
    simp only [mem_corrections_of_known hknown, and_iff_right hn]
    split
    · next h => simp [h]
    · next h => simp [h]

theorem lookup_of_known (hi : index.Sound) (hknown : term ∈ index.vocabulary)
    (hn : 0 < settings.gramSize) : index.lookup settings term =
      if settings.minResults ≤ (index.docs term).length ∨ settings.gramSize ≤ term.length
      then index.docs term else [] := by
  rw [lookup, resolve_of_known hi hknown hn]
  by_cases h : settings.minResults ≤ (index.docs term).length
  · simp [h]
  · simp [h]

theorem evaluate_term (term : Term) :
    index.evaluate settings [.leaf false (.term term)] = index.lookup settings term := by
  rw [evaluate, restrict, nodeDocs]
  rfl

end Index

theorem Settings.gramSize_pos {settings : Settings} (h : settings.validate = .ok ()) :
    0 < settings.gramSize := by
  apply Nat.pos_of_ne_zero
  intro hzero
  rw [validate, if_pos hzero] at h
  cases h

namespace Index
variable {order : TableOrder} {index : Index} {settings : Settings} {term : Term}

/-- A term of the vocabulary finds the documents of its own entry, those in which it was recorded,
whenever these are enough or the term is long enough for a gram. Otherwise it finds nothing. -/
theorem evaluate_known_term (calls : List Builder.Call)
    (h : (Builder.ofCalls calls).build order = .ok index) (hs : settings.validate = .ok ())
    (hterm : term ∈ index.vocabulary) :
    ∃ l, index.find? term = some l ∧
      (∀ d, d ∈ docsOf l.postings.toList ↔ ∃ p, Builder.Recorded calls ⟨term, d, p⟩) ∧
      index.evaluate settings [.leaf false (.term term)] =
        if settings.minResults ≤ l.docFrequency ∨ settings.gramSize ≤ term.length
        then docsOf l.postings.toList else [] := by
  obtain ⟨l, hl⟩ := Option.isSome_iff_exists.mp ((isSome_find?_iff h).mpr hterm)
  have hdocs := docs_of_find? hl
  have hfrequency : l.docFrequency = (index.docs term).length := by
    rw [hdocs, docsOf, List.length_map, Array.length_toList, PostingList.docFrequency]
  refine ⟨l, hl, ?_, ?_⟩
  · intro d
    rw [← hdocs, mem_docs h]
  · rw [← hdocs, hfrequency, evaluate_term,
      lookup_of_known (Builder.build_sound h) hterm (Settings.gramSize_pos hs)]

/-- Where two documents are wanted, the one with "sat" is found by its grams, and lost where these
are longer than the word. -/
theorem evaluate_known_term_sat : ∃ index, (Builder.ofCalls catCalls).build .byTerm = .ok index ∧
    Settings.validate { minResults := 2 } = .ok () ∧
    Settings.validate { minResults := 2, gramSize := 4 } = .ok () ∧ "sat" ∈ index.vocabulary ∧
    index.evaluate { minResults := 2 } [.leaf false (.term "sat")] = [1] ∧
    index.evaluate { minResults := 2, gramSize := 4 } [.leaf false (.term "sat")] = [] := by
  have hs : Settings.validate { minResults := 2 } = .ok () :=
    Settings.validate_of_saturation (by decide) rfl
  have hs' : Settings.validate { minResults := 2, gramSize := 4 } = .ok () :=
    Settings.validate_of_saturation (by decide) rfl
  have hbuilt : ∃ index, (Builder.ofCalls catCalls).build .byTerm = .ok index ∧
      "sat" ∈ index.vocabulary ∧
      (index.find? "sat").map PostingList.postings = some #[⟨1, [2]⟩] :=
    ⟨_, Builder.build_of_ne_nil (by decide +kernel), by decide +kernel, by decide +kernel⟩
  obtain ⟨index, h, hterm, hfind⟩ := hbuilt
  refine ⟨index, h, hs, hs', hterm, ?_, ?_⟩
  · obtain ⟨l, hl, -, heval⟩ := evaluate_known_term catCalls h hs hterm
    rw [hl, Option.map_some, Option.some.injEq] at hfind
    rw [heval, PostingList.docFrequency, hfind]
    rfl
  · obtain ⟨l, hl, -, heval⟩ := evaluate_known_term catCalls h hs' hterm
    rw [hl, Option.map_some, Option.some.injEq] at hfind
    rw [heval, PostingList.docFrequency, hfind]
    rfl

end Index

/-! ## Nearest neighbours -/

/-- A term of the vocabulary that may stand in for a word by one of its grams. -/
structure Candidate (tolerance : Nat) (word : Term) (vocabulary : List Term) (gram : List Char)
    (term : Term) : Prop where
  known : term ∈ vocabulary
  holds_gram : gram <:+: term.toList
  length_near : ((term.length : Int) - word.length).natAbs ≤ tolerance

theorem similarLength_iff {tolerance : Nat} {word term : Term} :
    similarLength tolerance word term = true ↔
      ((term.length : Int) - word.length).natAbs ≤ tolerance := by
  simp only [similarLength, Bool.and_eq_true, decide_eq_true_eq]
  omega

/-- A neighbour is a candidate, as long as the gram has a character. -/
theorem neighbour_iff_candidate {tolerance : Nat} {word term : Term} {vocabulary : List Term}
    {gram : List Char} (hgram : 0 < gram.length) :
    Neighbour tolerance word vocabulary gram term ↔
      Candidate tolerance word vocabulary gram term := by
  rw [Neighbour, similarLength_iff, holdsGram_iff hgram]
  constructor
  · intro h
    exact ⟨h.1, h.2.2, h.2.1⟩
  · intro h
    exact ⟨h.known, h.length_near, h.holds_gram⟩

namespace Index

/-- The documents that stand in for those of a word are in ascending order. They are the documents
of the terms that are nearest to the word among the candidates of one of its grams, ties included. -/
theorem resolve_nearest {b : Builder} (h : b.build order = .ok index) {n : Nat} (hn : 1 ≤ n)
    (tolerance : Nat) (word : Term) :
    Ascending (index.resolve n tolerance word) ∧
    ∀ d, d ∈ index.resolve n tolerance word ↔
      ∃ gram term, (gram.length = n ∧ gram <:+: word.toList) ∧
        Candidate tolerance word index.vocabulary gram term ∧
        (∀ other, Candidate tolerance word index.vocabulary gram other →
          editDistance word term ≤ editDistance word other) ∧
        ∃ posting ∈ index.postings term, posting.doc = d := by
  -- a gram has a character, so that its neighbours are its candidates
  have hneighbour : ∀ gram ∈ grams n word, ∀ term,
      Neighbour tolerance word index.vocabulary gram term ↔
        Candidate tolerance word index.vocabulary gram term := by
    intro gram hgram term
    obtain ⟨hpos, hlength, -⟩ := mem_grams.mp hgram
    exact neighbour_iff_candidate (hlength ▸ hpos)
  refine ⟨((Builder.build_sound h).resolve n tolerance word).ascending, fun d => ?_⟩
  rw [mem_resolve]
  constructor
  · intro hd
    obtain ⟨term, hterm, hdoc⟩ := hd
    obtain ⟨gram, hgram, hnear, hleast⟩ := mem_corrections.mp hterm
    obtain ⟨-, hwindow⟩ := mem_grams.mp hgram
    refine ⟨gram, term, hwindow, (hneighbour gram hgram term).mp hnear, ?_, List.mem_map.mp hdoc⟩
    intro other hother
    exact hleast other ((hneighbour gram hgram other).mpr hother)
  · intro hd
    obtain ⟨gram, term, hwindow, hcandidate, hleast, hdoc⟩ := hd
    have hgram : gram ∈ grams n word := mem_grams.mpr ⟨hn, hwindow⟩
    refine ⟨term, mem_corrections.mpr ⟨gram, hgram, ?_, ?_⟩, List.mem_map.mpr hdoc⟩
    · exact (hneighbour gram hgram term).mpr hcandidate
    · intro other hother
      exact hleast other ((hneighbour gram hgram other).mp hother)

/-- Of these words "cat" is nearest to "caat" by "ca" and by "at". By "aa" two words are, both at
distance two. "sat" is at distance two as well, but by "at" only, and there "cat" is nearer. -/
def caatCalls : List Builder.Call :=
  [.addDocument 8 "sat", .addDocument 3 "zaaz", .addDocument 5 "sat baab", .addDocument 2 "Cat!",
    .addDocument 9 "caaaaaat"]

theorem resolve_nearest_caat : ∃ index, (Builder.ofCalls caatCalls).build .byTerm = .ok index ∧ 1 ≤ 2 ∧
    Ascending (index.resolve 2 1 "caat") ∧ index.resolve 2 1 "caat" = [2, 3, 5] ∧
    ∃ gram term, (gram.length = 2 ∧ gram <:+: "caat".toList) ∧
      Candidate 1 "caat" index.vocabulary gram term ∧
      (∀ other, Candidate 1 "caat" index.vocabulary gram other →
        editDistance "caat" term ≤ editDistance "caat" other) ∧
      ∃ posting ∈ index.postings term, posting.doc = 5 := by
  have hbuilt : ∃ index, (Builder.ofCalls caatCalls).build .byTerm = .ok index ∧
      index.resolve 2 1 "caat" = [2, 3, 5] :=
    ⟨_, Builder.build_of_ne_nil (by decide +kernel), by decide +kernel⟩
  obtain ⟨index, h, hresolve⟩ := hbuilt
  have hn : 1 ≤ 2 := by decide
  obtain ⟨hascending, hmem⟩ := resolve_nearest h hn 1 "caat"
  refine ⟨index, h, hn, hascending, hresolve, (hmem 5).mp ?_⟩
  rw [hresolve]
  decide

end Index
end Concordance
