import Concordance.Proofs.Index.Documents
import Concordance.Proofs.Index.Window
import Concordance.Proofs.Retrieval.Combination
/-!
Phrases. In any built index the occurrences of a phrase are the places from which its words stand
one behind the other (`listed_phrasePostings`), although they are merged from the last word back to
the first. So a phrase finds the documents for which its words were recorded at consecutive
positions (`leafDocs_phrase`), wherever these are, and whatever else stands there. In an index of
whole texts, these are the places at which the words of a text go on as the phrase does, so that a
quoted text finds the documents that contain its words as a block (`search_phrase`).
-/
namespace Concordance

open Builder (ofCalls)

namespace Index
variable {order : TableOrder} {index : Index} {d : DocId}

/-! ## Occurrences of a phrase -/

/-- The terms stand one behind the other in the document, the first of them at the position. -/
def StandsAt (index : Index) (d : DocId) : List Term → Nat → Prop
  | [], _ => True
  | term :: rest, n =>
    (∃ p, Listed (index.postings term) d p ∧ p.toNat = n) ∧ StandsAt index d rest (n + 1)

theorem standsAt_cons (term : Term) (rest : List Term) (p : Position) :
    index.StandsAt d (term :: rest) p.toNat ↔
      Listed (index.postings term) d p ∧ index.StandsAt d rest (p.toNat + 1) := by
  refine and_congr_left fun _ => ⟨?_, fun hp => ⟨p, hp, rfl⟩⟩
  rintro ⟨q, hq, he⟩
  rwa [UInt32.toNat_inj.mp he] at hq

theorem pairs_following_one {a b : Position} :
    Side.following.Pairs 1 a b ↔ b.toNat = a.toNat + 1 := by
  have hone : (1 : UInt32).toNat = 1 := rfl
  simp only [Side.Pairs, Near, Side.allows, decide_eq_true_eq, UInt32.lt_iff_toNat_lt, hone]
  omega

theorem phrasePostings_cons_cons (term next : Term) (rest : List Term) :
    index.phrasePostings (term :: next :: rest) = nearPostings .following 1 (index.postings term)
      (index.phrasePostings (next :: rest)) := rfl

theorem phrasePostings_sorted (h : ∀ term, SortedPostings (index.postings term)) :
    ∀ terms, SortedPostings (index.phrasePostings terms)
  | [] => SortedPostings.nil
  | [term] => h term
  | term :: next :: rest => (h term).near (phrasePostings_sorted h (next :: rest)).toOrderedPostings

theorem listed_phrasePostings (h : ∀ term, SortedPostings (index.postings term)) :
    ∀ (terms : List Term), terms ≠ [] → ∀ p : Position,
      Listed (index.phrasePostings terms) d p ↔ index.StandsAt d terms p.toNat
  | [], hne, _ => absurd rfl hne
  | [term], _, p => by
    rw [phrasePostings, standsAt_cons, StandsAt, and_true]
  | term :: next :: rest, _, p => by
    have ih := listed_phrasePostings h (next :: rest) (List.cons_ne_nil _ _)
    rw [phrasePostings_cons_cons, listed_nearPostings (h term).toOrderedPostings
      (phrasePostings_sorted h _).toOrderedPostings, standsAt_cons]
    refine and_congr_right fun _ => ?_
    constructor
    · rintro ⟨q, hq, hpair⟩
      rw [← pairs_following_one.mp hpair]
      exact (ih q).mp hq
    · intro hrest
      obtain ⟨q, _, hq⟩ := hrest.1
      exact ⟨q, (ih q).mpr (hq ▸ hrest), pairs_following_one.mpr hq⟩

theorem standsAt_iff_forall : ∀ (terms : List Term) (n : Nat), index.StandsAt d terms n ↔
    ∀ i term, terms[i]? = some term →
      ∃ q : Position, Listed (index.postings term) d q ∧ q.toNat = n + i
  | [], n => by simp [StandsAt]
  | first :: rest, n => by
    have ih := standsAt_iff_forall rest (n + 1)
    rw [StandsAt, ih]
    constructor
    · rintro ⟨hfirst, hrest⟩ i term hi
      cases i with
      | zero =>
        cases hi
        exact hfirst
      | succ i =>
        obtain ⟨q, hq, hplace⟩ := hrest i term hi
        exact ⟨q, hq, by omega⟩
    · intro h
      refine ⟨h 0 first rfl, fun i term hi => ?_⟩
      obtain ⟨q, hq, hplace⟩ := h (i + 1) term hi
      exact ⟨q, hq, by omega⟩

theorem leafDocs_eq_docsOf {terms : List Term} (settings : Settings) (h : 2 ≤ terms.length) :
    index.leafDocs settings (.phrase terms) = docsOf (index.phrasePostings terms) := by
  match terms, h with
  | _ :: _ :: _, _ => rfl

/-- In any built index, a phrase of two words or more finds, in ascending order, the documents for
which its words were recorded at consecutive positions. -/
theorem leafDocs_phrase {calls : List Builder.Call} (h : (ofCalls calls).build order = .ok index)
    (settings : Settings) (terms : List Term) (htwo : 2 ≤ terms.length) :
    Ascending (index.leafDocs settings (.phrase terms)) ∧
    ∀ d, d ∈ index.leafDocs settings (.phrase terms) ↔
      ∃ n : Nat, ∀ i term, terms[i]? = some term →
        ∃ q : Position, Builder.Recorded calls ⟨term, d, q⟩ ∧ q.toNat = n + i := by
  have hpostings := Builder.postings_sorted h
  have hsorted := phrasePostings_sorted hpostings terms
  have hne : terms ≠ [] := List.ne_nil_of_length_pos (Nat.lt_of_lt_of_le Nat.two_pos htwo)
  rw [leafDocs_eq_docsOf settings htwo]
  refine ⟨hsorted.docs_ascending, fun d => ?_⟩
  have hstands : (∃ p, Listed (index.phrasePostings terms) d p) ↔ ∃ n, index.StandsAt d terms n := by
    simp only [listed_phrasePostings hpostings terms hne]
    constructor
    · rintro ⟨p, hp⟩
      exact ⟨p.toNat, hp⟩
    · -- the first word stands at a position, so that the place is one
      rintro ⟨n, hn⟩
      obtain ⟨first, rest, rfl⟩ := List.exists_cons_of_ne_nil hne
      obtain ⟨p, _, rfl⟩ := hn.1
      exact ⟨p, hn⟩
  rw [hsorted.mem_docsOf, hstands]
  simp only [standsAt_iff_forall, Builder.listed_postings_iff h, Builder.mem_ofCalls]

/-- Words at the last positions that can be recorded, two of them at one position, and the same
words in another document with a gap between them. -/
def farCalls : List Builder.Call :=
  [.add "b" 7 4294967294, .add "a" 7 4294967293, .add "c" 7 4294967293, .add "a" 7 4294967292,
    .add "a" 3 0, .add "b" 3 2]

theorem leafDocs_phrase_far : ∃ index, (ofCalls farCalls).build .byTerm = .ok index ∧
    index.leafDocs {} (.phrase ["a", "a", "b"]) = [7] := by
  have hknown : ¬Builder.Silent farCalls := by
    intro h
    exact (h 7).2 "b" 4294967294 ⟨_, List.mem_cons_self, rfl⟩
  obtain ⟨index, hbuild⟩ := Builder.exists_build_ofCalls hknown .byTerm
  obtain ⟨hascending, hmem⟩ := leafDocs_phrase hbuild {} ["a", "a", "b"] (by decide)
  refine ⟨index, hbuild, hascending.ext (List.pairwise_singleton _ _) fun d => ?_⟩
  rw [hmem, List.mem_singleton]
  constructor
  · rintro ⟨n, hn⟩
    obtain ⟨q, hq, hsecond⟩ := hn 1 "a" rfl
    -- in any other document the second word would have to stand at the very beginning
    have hplace : d = 7 ∨ q = 0 := by
      simp only [Builder.Recorded, farCalls, Builder.Call.Records, List.mem_cons] at hq
      grind
    rcases hplace with rfl | rfl
    · rfl
    · exact absurd hsecond.symm (Nat.succ_ne_zero n)
  · rintro rfl
    refine ⟨4294967292, fun i term hi => ?_⟩
    rcases i with _ | _ | _ | i
    · cases hi
      exact ⟨4294967292, ⟨.add "a" 7 4294967292, by decide, rfl⟩, rfl⟩
    · cases hi
      exact ⟨4294967293, ⟨.add "a" 7 4294967293, by decide, rfl⟩, rfl⟩
    · cases hi
      exact ⟨4294967294, ⟨.add "b" 7 4294967294, by decide, rfl⟩, rfl⟩
    · cases hi

end Index

theorem infix_iff_exists_prefix_drop {α : Type} {xs ys : List α} :
    xs <:+: ys ↔ ∃ n, xs <+: ys.drop n := by
  constructor
  · rintro ⟨before, after, rfl⟩
    exact ⟨before.length, after, by simp⟩
  · rintro ⟨n, hn⟩
    exact hn.isInfix.trans (List.drop_suffix n ys).isInfix

namespace Index
variable {order : TableOrder} {index : Index} {d : DocId} {docs : List (DocId × String)}
  {text : String}

/-- Where the index holds the words of a text at their places, the terms stand where the words of
the text go on as they do. -/
theorem standsAt_iff (h : (words text).length < UInt32.size)
    (hlisted : ∀ term p, Listed (index.postings term) d p ↔ (words text)[p.toNat]? = some term) :
    ∀ (terms : List Term) (n : Nat),
      index.StandsAt d terms n ↔ terms <+: (words text).drop n
  | [], n => by simp [StandsAt]
  | term :: rest, n => by
    have hplace : (∃ p, Listed (index.postings term) d p ∧ p.toNat = n) ↔
        (words text)[n]? = some term := by
      constructor
      · rintro ⟨p, hp, rfl⟩
        exact (hlisted term p).mp hp
      · intro hn
        obtain ⟨hlt, _⟩ := List.getElem?_eq_some_iff.mp hn
        have hnat : (UInt32.ofNat n).toNat = n := UInt32.toNat_ofNat_of_lt' (Nat.lt_trans hlt h)
        exact ⟨.ofNat n, (hlisted term _).mpr (hnat.symm ▸ hn), hnat⟩
    rw [StandsAt, hplace, standsAt_iff h hlisted rest (n + 1), List.getElem?_eq_some_iff]
    by_cases hn : n < (words text).length
    · rw [List.drop_eq_getElem_cons hn, List.cons_prefix_cons]
      simp [hn, eq_comm]
    · simp [hn, List.drop_eq_nil_of_le (Nat.not_lt.mp hn)]

/-- In an index of whole texts, a phrase occurs in the documents that contain it as a block. -/
theorem mem_phrasePostings (hids : (docs.map (·.1)).Nodup)
    (hfits : Builder.Fits (documentCalls docs))
    (hbuild : (ofCalls (documentCalls docs)).build order = .ok index) {terms : List Term}
    (hne : terms ≠ []) :
    d ∈ docsOf (index.phrasePostings terms) ↔ ∃ text, (d, text) ∈ docs ∧ terms <:+: words text := by
  have hsorted := Builder.postings_sorted hbuild
  have hstands : ∀ text, (d, text) ∈ docs → ∀ n,
      index.StandsAt d terms n ↔ terms <+: (words text).drop n :=
    fun text hdoc => standsAt_iff (length_words_lt hfits hdoc)
      (listed_documentCalls hids hfits hbuild hdoc) terms
  obtain ⟨term, rest, rfl⟩ := List.exists_cons_of_ne_nil hne
  simp only [(phrasePostings_sorted hsorted _).mem_docsOf, listed_phrasePostings hsorted _ hne,
    infix_iff_exists_prefix_drop]
  constructor
  · rintro ⟨p, hp⟩
    -- the first word is listed only where the document has a text
    have hfirst := ((standsAt_cons term rest p).mp hp).1
    obtain ⟨text, hdoc, _⟩ := (listed_documentCalls_iff hbuild).mp hfirst
    exact ⟨text, hdoc, p.toNat, (hstands text hdoc _).mp hp⟩
  · rintro ⟨text, hdoc, n, hn⟩
    have hblock := (hstands text hdoc n).mpr hn
    obtain ⟨p, _, rfl⟩ := hblock.1
    exact ⟨p, hblock⟩

end Index

namespace Query

theorem parse_quoted {inside : String} (h : '"' ∉ inside.toList) :
    parse ("\"" ++ inside ++ "\"") = .ok [.leaf false (.phrase (words inside))] :=
  parse_of_isConjunction (.quoted h) (.conjunct (.operand (IsOperand.nots (.phrase inside) 0)))

end Query

namespace Index
variable {index : Index} {settings : Settings}

theorem evaluate_phrase {terms : List Term} (h : 2 ≤ terms.length) :
    index.evaluate settings [.leaf false (.phrase terms)] =
      docsOf (index.phrasePostings terms) :=
  leafDocs_eq_docsOf settings h

/-- A text in quotes, of two words or more, finds exactly the documents whose words contain those of
the text as a block. As in every index, the last position stays free (`Fits`): a document with a
word there would have a length that is no number of 32 bits. -/
theorem search_phrase (docs : List (DocId × String)) (hne : docs ≠ [])
    (hids : (docs.map (·.1)).Nodup) (hfits : Builder.Fits (documentCalls docs))
    (hs : settings.validate = .ok ()) (s : String) (hquote : '"' ∉ s.toList)
    (htwo : 2 ≤ (words s).length) :
    ∃ index, (∀ order, (ofCalls (documentCalls docs)).build order = .ok index) ∧
      index.Finds settings ("\"" ++ s ++ "\"")
        (fun d => ∃ text, (d, text) ∈ docs ∧ words s <:+: words text) := by
  obtain ⟨index, hbuild⟩ := Builder.exists_build_ofCalls (not_silent_documentCalls hne) .byTerm
  have hwords : words s ≠ [] := List.ne_nil_of_length_pos (Nat.lt_of_lt_of_le Nat.two_pos htwo)
  refine ⟨index, fun order => (build_documentCalls_order docs order .byTerm).trans hbuild, _,
    search_of_parse hs (Query.parse_quoted hquote), ?_, ?_⟩
  · rw [evaluate_phrase htwo]
    exact (phrasePostings_sorted (Builder.postings_sorted hbuild) _).docs_ascending
  · intro d
    rw [evaluate_phrase htwo]
    exact mem_phrasePostings hids hfits hbuild hwords

/-- Two short texts with the same words. -/
def catTexts : List (DocId × String) :=
  [(7, "So the cat, the CAT ran."), (3, "The cat ran so"), (5, "")]

theorem search_phrase_cat : ∃ index,
    (∀ order, (ofCalls (documentCalls catTexts)).build order = .ok index) ∧
    index.Finds {} "\"the cat -- ran\""
      (fun d => ∃ text, (d, text) ∈ catTexts ∧ words "the cat -- ran" <:+: words text) :=
  search_phrase catTexts (by decide) (by decide) (Builder.fits_iff.mpr (by decide +kernel))
    Settings.validate_default "the cat -- ran" (by decide) (by decide +kernel)

end Index
end Concordance
