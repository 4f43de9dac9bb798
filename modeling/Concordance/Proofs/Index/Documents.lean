import Concordance.Proofs.Index.Views
import Concordance.Proofs.Text.Words
/-!
Indexes of whole texts. Where a builder is given documents only, each with its own number, what the
index lists of a document is its text: at every position the word that stands there
(`listed_documentCalls`). Its length is that of its text (`docLength?_documentCalls`), and the order
in which the documents come, or the entries are visited, makes no difference
(`build_documentCalls_perm`).
-/
namespace Concordance

open Builder (Call ofCalls Recorded)

def documentCalls (docs : List (DocId × String)) : List Call :=
  docs.map fun (d, text) => .addDocument d text

variable {docs : List (DocId × String)} {order : TableOrder} {index : Index} {d : DocId}

theorem foldl_documentCalls_cons (d : DocId) (text : String) (docs : List (DocId × String))
    (b : Builder) : (documentCalls ((d, text) :: docs)).foldl Call.apply b =
      (documentCalls docs).foldl Call.apply (b.addDocument d text) := rfl

theorem recorded_documentCalls {o : Observation} :
    Recorded (documentCalls docs) o ↔
      ∃ text, (o.doc, text) ∈ docs ∧ ⟨o.term, o.position⟩ ∈ occurrences text := by
  constructor
  · rintro ⟨call, hm, hr⟩
    obtain ⟨⟨d, text⟩, hdoc, rfl⟩ := List.mem_map.mp hm
    obtain ⟨rfl, ho⟩ := hr
    exact ⟨text, hdoc, ho⟩
  · rintro ⟨text, hdoc, ho⟩
    exact ⟨.addDocument o.doc text, List.mem_map_of_mem hdoc, rfl, ho⟩

theorem isSome_registered?_documentCalls {text : String} (h : (d, text) ∈ docs) :
    (Builder.registered? (documentCalls docs) d).isSome := by
  have hlength : Builder.lengthOf text ∈ (documentCalls docs).filterMap (Call.length? d) :=
    List.mem_filterMap.mpr ⟨.addDocument d text, List.mem_map_of_mem h, if_pos rfl⟩
  rw [Builder.registered?, List.getLast?_eq_some_getLast (List.ne_nil_of_mem hlength)]
  rfl

theorem not_silent_documentCalls (h : docs ≠ []) : ¬Builder.Silent (documentCalls docs) := by
  obtain ⟨⟨d, text⟩, hdoc⟩ := List.exists_mem_of_ne_nil docs h
  intro hsilent
  have hsome := isSome_registered?_documentCalls hdoc
  rw [(hsilent d).1] at hsome
  cases hsome

theorem settled_documentCalls (docs : List (DocId × String)) :
    Builder.Settled (documentCalls docs) := by
  intro d h
  obtain ⟨term, p, hrecorded⟩ := h
  obtain ⟨text, hdoc, -⟩ := recorded_documentCalls.mp hrecorded
  exact .inl (isSome_registered?_documentCalls hdoc)

theorem build_documentCalls_nil :
    (ofCalls (documentCalls [])).build order = .error .emptyCorpus := by
  rw [Builder.build_eq_error_iff, Builder.lengthTable_ofCalls_eq_nil_iff]
  intro d
  exact ⟨rfl, fun term p ⟨call, hm, _⟩ => List.not_mem_nil hm⟩

theorem text_unique (hids : (docs.map (·.1)).Nodup) {text text' : String}
    (h : (d, text) ∈ docs) (h' : (d, text') ∈ docs) : text = text' := by
  have hpair := List.pairwise_map.mp hids
  have hkeys := List.Pairwise.forall_of_forall_of_flip
    (R := fun e e' : DocId × String => e.1 = e'.1 → e = e') (fun _ _ _ => rfl)
    (hpair.imp fun hne hk => absurd hk hne) (hpair.imp fun hne hk => absurd hk.symm hne)
  exact congrArg Prod.snd (hkeys h h' rfl)

/-- A text whose last position is not the last of all has fewer words than there are positions. -/
theorem length_words_lt (hfits : Builder.Fits (documentCalls docs)) {text : String}
    (hdoc : (d, text) ∈ docs) : (words text).length < UInt32.size := by
  apply Nat.lt_of_not_le
  intro hle
  have hlast : UInt32.size - 1 < (words text).length := Nat.lt_of_lt_of_le (by decide) hle
  have ho : ⟨(words text)[UInt32.size - 1], .ofNat (UInt32.size - 1)⟩ ∈ occurrences text := by
    simp only [occurrences, List.mem_map, Prod.exists, List.mem_zipIdx_iff_getElem?]
    exact ⟨_, _, List.getElem?_eq_getElem hlast, rfl⟩
  have hrecorded := recorded_documentCalls (o := ⟨_, d, _⟩) |>.mpr ⟨text, hdoc, ho⟩
  have hpast : ¬(UInt32.ofNat (UInt32.size - 1)).toNat + 1 < UInt32.size := by decide
  exact hpast (hfits _ hrecorded)

theorem listed_documentCalls_iff (hbuild : (ofCalls (documentCalls docs)).build order = .ok index)
    {term : Term} {p : Position} : Listed (index.postings term) d p ↔
      ∃ text, (d, text) ∈ docs ∧ ⟨term, p⟩ ∈ occurrences text := by
  rw [Builder.listed_postings_iff hbuild, Builder.mem_ofCalls, recorded_documentCalls]

theorem listed_document_iff (hids : (docs.map (·.1)).Nodup)
    (hbuild : (ofCalls (documentCalls docs)).build order = .ok index) {text : String}
    (hdoc : (d, text) ∈ docs) {term : Term} {p : Position} :
    Listed (index.postings term) d p ↔ ⟨term, p⟩ ∈ occurrences text := by
  rw [listed_documentCalls_iff hbuild]
  constructor
  · rintro ⟨text', hdoc', ho⟩
    rw [text_unique hids hdoc hdoc']
    exact ho
  · intro ho
    exact ⟨text, hdoc, ho⟩

/-- What an index of whole texts lists of a document is its text. -/
theorem listed_documentCalls (hids : (docs.map (·.1)).Nodup)
    (hfits : Builder.Fits (documentCalls docs))
    (hbuild : (ofCalls (documentCalls docs)).build order = .ok index) {text : String}
    (hdoc : (d, text) ∈ docs) (term : Term) (p : Position) :
    Listed (index.postings term) d p ↔ (words text)[p.toNat]? = some term := by
  rw [listed_document_iff hids hbuild hdoc, mem_occurrences (length_words_lt hfits hdoc)]

/-! ## Lengths -/

theorem lengths_documentCalls_eq_nil (h : d ∉ docs.map (·.1)) :
    (documentCalls docs).filterMap (Call.length? d) = [] := by
  apply List.filterMap_eq_nil_iff.mpr
  intro call hm
  obtain ⟨⟨doc, text⟩, hdoc, rfl⟩ := List.mem_map.mp hm
  have hne : doc ≠ d := fun he => h (he ▸ List.mem_map_of_mem hdoc)
  simp [Call.length?, hne]

theorem registered?_documentCalls (hids : (docs.map (·.1)).Nodup) {text : String}
    (hdoc : (d, text) ∈ docs) :
    Builder.registered? (documentCalls docs) d = some (Builder.lengthOf text) := by
  obtain ⟨before, after, rfl⟩ := List.append_of_mem hdoc
  rw [List.map_append, List.map_cons, List.nodup_append, List.nodup_cons] at hids
  obtain ⟨_, ⟨hafter, _⟩, hbefore⟩ := hids
  have hfirst : d ∉ before.map (·.1) := fun hm => hbefore d hm d List.mem_cons_self rfl
  have hcalls : documentCalls (before ++ (d, text) :: after) =
      documentCalls before ++ .addDocument d text :: documentCalls after := by
    simp [documentCalls]
  rw [Builder.registered?, hcalls, List.filterMap_append, lengths_documentCalls_eq_nil hfirst,
    List.filterMap_cons, lengths_documentCalls_eq_nil hafter]
  simp [Call.length?]

theorem docLength?_documentCalls (hids : (docs.map (·.1)).Nodup)
    (hbuild : (ofCalls (documentCalls docs)).build order = .ok index) {text : String}
    (hdoc : (d, text) ∈ docs) : index.docLength? d = some (Builder.lengthOf text) := by
  apply (Builder.docLength?_eq_some_iff hbuild).mpr
  exact Builder.mem_lengthTable_of_registered (registered?_documentCalls hids hdoc)

/-- The order in which entries are visited makes no difference. -/
theorem build_documentCalls_order (docs : List (DocId × String)) (order order' : TableOrder) :
    (ofCalls (documentCalls docs)).build order = (ofCalls (documentCalls docs)).build order' :=
  Builder.build_of_settled (settled_documentCalls docs) order order'

theorem build_documentCalls_perm {others : List (DocId × String)} (h : others.Perm docs)
    (hids : (docs.map (·.1)).Nodup) (order order' : TableOrder) :
    (ofCalls (documentCalls others)).build order =
      (ofCalls (documentCalls docs)).build order' := by
  have hids' : (others.map (·.1)).Nodup := (h.map _).nodup_iff.mpr hids
  have hrecorded : ∀ o, Recorded (documentCalls others) o ↔ Recorded (documentCalls docs) o := by
    intro o
    rw [recorded_documentCalls, recorded_documentCalls]
    simp only [h.mem_iff]
  have hregistered : ∀ d, Builder.registered? (documentCalls others) d =
      Builder.registered? (documentCalls docs) d := by
    intro d
    by_cases hd : d ∈ docs.map (·.1)
    · obtain ⟨⟨doc, text⟩, hdoc, rfl⟩ := List.mem_map.mp hd
      rw [registered?_documentCalls hids hdoc, registered?_documentCalls hids' (h.mem_iff.mpr hdoc)]
    · have hd' : d ∉ others.map (·.1) := fun hm => hd ((h.map _).mem_iff.mp hm)
      rw [Builder.registered?, lengths_documentCalls_eq_nil hd', Builder.registered?,
        lengths_documentCalls_eq_nil hd]
  exact (Builder.build_ofCalls_congr hrecorded hregistered order).trans
    (build_documentCalls_order docs order order')

end Concordance
