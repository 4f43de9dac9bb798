import Concordance.Proofs.Index.Contents
/-!
The views of a built index agree with one another. Whatever calls the builder received, in whatever
order, the index represents what they recorded (`Index.Represents`): the postings, the vocabulary,
the documents, their lengths and the frequencies of the terms are read off the same observations
(`build_ofCalls`).
-/
namespace Concordance
namespace Builder
variable {b : Builder} {order : TableOrder} {index : Index} {term : Term} {d : DocId}

/-! ## Asking an index that has been built -/

theorem find?_eq_some_iff (h : b.build order = .ok index) {l : PostingList} :
    index.find? term = some l ↔ l ∈ b.postingLists ∧ l.term = term := by
  rw [Index.find?, (build_eq_ok h).1, bisect_key_eq_some_iff b.postingLists_sortedBy,
    List.mem_toArray]

theorem mem_postings_iff (h : b.build order = .ok index) {posting : Posting} :
    posting ∈ index.postings term ↔
      ∃ l ∈ b.postingLists, l.term = term ∧ posting ∈ l.postings.toList := by
  constructor
  · intro hm
    unfold Index.postings at hm
    split at hm
    · next l hl =>
      obtain ⟨hl, hterm⟩ := (find?_eq_some_iff h).mp hl
      exact ⟨l, hl, hterm, hm⟩
    · exact absurd hm List.not_mem_nil
  · rintro ⟨l, hl, hterm, hm⟩
    rw [Index.postings, (find?_eq_some_iff h).mpr ⟨hl, hterm⟩]
    exact hm

theorem listed_postings_iff (h : b.build order = .ok index) {p : Position} :
    Listed (index.postings term) d p ↔ ⟨term, d, p⟩ ∈ b.observations := by
  rw [← exists_listed_iff]
  constructor
  · rintro ⟨posting, hm, hplace⟩
    obtain ⟨l, hl, hterm, hm⟩ := (mem_postings_iff h).mp hm
    exact ⟨l, hl, hterm, posting, hm, hplace⟩
  · rintro ⟨l, hl, hterm, posting, hm, hplace⟩
    exact ⟨posting, (mem_postings_iff h).mpr ⟨l, hl, hterm, hm⟩, hplace⟩

theorem postings_sorted (h : b.build order = .ok index) (term : Term) :
    SortedPostings (index.postings term) := by
  unfold Index.postings
  split
  · next l hl => exact postingLists_sortedPostings ((find?_eq_some_iff h).mp hl).1
  · exact SortedPostings.nil

theorem vocabulary_eq (h : b.build order = .ok index) :
    index.vocabulary = b.postingLists.map PostingList.term := by
  rw [Index.vocabulary, (build_eq_ok h).1]

theorem vocabulary_ascending (h : b.build order = .ok index) : Ascending index.vocabulary := by
  rw [vocabulary_eq h]
  have hsorted := b.postingLists_sortedBy
  rw [SortedBy, List.toList_toArray] at hsorted
  exact hsorted.imp compareOfLessAndEq_eq_lt.mp

theorem mem_vocabulary (h : b.build order = .ok index) :
    term ∈ index.vocabulary ↔ ∃ d p, ⟨term, d, p⟩ ∈ b.observations := by
  rw [vocabulary_eq h, List.mem_map]
  constructor
  · rintro ⟨l, hl, rfl⟩
    obtain ⟨posting, hm⟩ := List.exists_mem_of_ne_nil _ (postings_ne_nil hl)
    have hne := (postingLists_sortedPostings hl).positions_ne_nil posting hm
    obtain ⟨p, hp⟩ := List.exists_mem_of_ne_nil _ hne
    exact ⟨posting.doc, p, exists_listed_iff.mp ⟨l, hl, rfl, posting, hm, rfl, hp⟩⟩
  · rintro ⟨d, p, ho⟩
    obtain ⟨l, hl, hterm, _⟩ := exists_listed_iff.mpr ho
    exact ⟨l, hl, hterm⟩

theorem docLength?_eq_some_iff (h : b.build order = .ok index) {n : Length} :
    index.docLength? d = some n ↔ (d, n) ∈ b.lengthTable order := by
  rw [Index.docLength?, (build_eq_ok h).2.2, Option.map_eq_some_iff]
  simp only [bisect_key_eq_some_iff (b.lengthTable_sortedBy order), List.mem_toArray]
  constructor
  · rintro ⟨⟨doc, length⟩, ⟨hm, rfl⟩, rfl⟩
    exact hm
  · intro hm
    exact ⟨(d, n), ⟨hm, rfl⟩, rfl⟩

theorem docFrequency_bounds {l : PostingList} (h : b.build order = .ok index)
    (hl : l ∈ b.postingLists) : 1 ≤ l.docFrequency ∧ l.docFrequency ≤ index.numDocs := by
  obtain ⟨hascending, hsubset⟩ := postingLists_docs hl
  have hsize : l.docFrequency = (docsOf l.postings.toList).length := by
    simp [docsOf, PostingList.docFrequency]
  rw [Index.numDocs, (build_eq_ok h).2.1]
  constructor
  · exact List.length_pos_iff.mpr (postings_ne_nil hl)
  · rw [hsize]
    exact hascending.nodup.length_le_of_subset hsubset

/-! ## The calls and the index -/

def Call.isAdd : Call → Bool
  | .add .. => true
  | _ => false

/-- The last position is never recorded, so that a length can exceed every position. -/
def Fits (calls : List Call) : Prop :=
  ∀ o, Recorded calls o → o.position.toNat + 1 < UInt32.size

def Silent (calls : List Call) : Prop :=
  ∀ d, registered? calls d = none ∧ ∀ term p, ¬Recorded calls ⟨term, d, p⟩

theorem fits_iff {calls : List Call} : Fits calls ↔
    ∀ o ∈ (ofCalls calls).observations.toList, o.position.toNat + 1 < UInt32.size := by
  simp only [Fits, Std.TreeSet.mem_toList, mem_ofCalls]

/-- The position is the highest one that the calls record for the document, in each of its terms. -/
def Highest (calls : List Call) (d : DocId) (p : Position) : Prop :=
  (∃ term, Recorded calls ⟨term, d, p⟩) ∧
    ∀ term q, Recorded calls ⟨term, d, q⟩ → Recorded calls ⟨term, d, p⟩ ∧ q ≤ p

/-- The position is the last one that the calls record for the term in the document. -/
structure IsLast (calls : List Call) (term : Term) (d : DocId) (p : Position) : Prop where
  recorded : Recorded calls ⟨term, d, p⟩
  last : ∀ q, Recorded calls ⟨term, d, q⟩ → q ≤ p

/-- Each document with an observation has its length registered, or one highest position in all its
terms. -/
def Settled (calls : List Call) : Prop :=
  ∀ d, (∃ term p, Recorded calls ⟨term, d, p⟩) →
    (registered? calls d).isSome ∨ ∃ p, Highest calls d p

end Builder

open Builder

/-- The index holds what the calls recorded and registered. -/
structure Index.Represents (index : Index) (calls : List Call) : Prop where
  listed_iff : ∀ term d p, Listed (index.postings term) d p ↔ Recorded calls ⟨term, d, p⟩
  postings_sorted : ∀ term, SortedPostings (index.postings term)
  vocabulary_ascending : Ascending index.vocabulary
  mem_vocabulary : ∀ term, term ∈ index.vocabulary ↔ ∃ d p, Recorded calls ⟨term, d, p⟩
  docIds_ascending : Ascending index.docIds
  mem_docIds : ∀ d, d ∈ index.docIds ↔ ∃ term p, Recorded calls ⟨term, d, p⟩
  length_isSome : ∀ d ∈ index.docIds, (index.docLength? d).isSome
  length_registered : ∀ d n, registered? calls d = some n → index.docLength? d = some n
  length_implied : ∀ d p, registered? calls d = none → Highest calls d p →
    ∃ n, index.docLength? d = some n ∧ n.toNat = p.toNat + 1
  /-- Where the terms disagree, the length is implied by one of them. -/
  length_of_term : ∀ d ∈ index.docIds, registered? calls d = none →
    ∃ term p n, IsLast calls term d p ∧ index.docLength? d = some n ∧ n.toNat = p.toNat + 1
  docFrequency_bounds : ∀ term ∈ index.vocabulary, ∃ l, index.find? term = some l ∧
    1 ≤ l.docFrequency ∧ l.docFrequency ≤ index.numDocs

/-- The entry of the term before all others. -/
def TableOrder.first (term : Term) : TableOrder where
  visit lists := lists.filter (·.term = term) ++ lists.filter fun l => !decide (l.term = term)
  visit_perm := List.filter_append_perm _

namespace Builder
variable {calls others : List Call} {order order' : TableOrder} {index : Index} {d : DocId}
  {p : Position}

theorem not_mem_lengths_iff : d ∉ (ofCalls calls).lengths ↔ registered? calls d = none := by
  rw [← getElem?_ofCalls, ← Std.TreeMap.isSome_getElem?_iff_mem, Bool.not_eq_true,
    Option.isSome_eq_false_iff, Option.isNone_iff_eq_none]

theorem mem_observedDocs_iff :
    d ∈ (ofCalls calls).observedDocs ↔ ∃ term p, Recorded calls ⟨term, d, p⟩ := by
  simp only [mem_observedDocs, mem_ofCalls]

theorem lengthTable_ofCalls_eq_nil_iff :
    (ofCalls calls).lengthTable order = [] ↔ Silent calls := by
  simp only [lengthTable_eq_nil_iff, not_mem_lengths_iff, mem_observedDocs_iff, not_exists, Silent]

theorem exists_build_ofCalls (h : ¬Silent calls) (order : TableOrder) :
    ∃ index, (ofCalls calls).build order = .ok index := by
  apply exists_build_eq_ok
  rwa [Ne, lengthTable_ofCalls_eq_nil_iff]

/-! ## Lengths -/

theorem endsAt_ofCalls_iff {term : Term} :
    (ofCalls calls).EndsAt term d p ↔ IsLast calls term d p := by
  constructor
  · intro h
    exact ⟨(mem_ofCalls calls).mp h.observed, fun q hq => h.last q ((mem_ofCalls calls).mpr hq)⟩
  · intro h
    exact ⟨(mem_ofCalls calls).mpr h.recorded, fun q hq => h.last q ((mem_ofCalls calls).mp hq)⟩

theorem Highest.isLast_iff (h : Highest calls d p) {term : Term} {q : Position} :
    IsLast calls term d q → q = p := by
  intro hq
  obtain ⟨hp, hle⟩ := h.2 term q hq.recorded
  exact UInt32.le_antisymm hle (hq.last p hp)

theorem mem_lengthTable_of_registered {n : Length} (hr : registered? calls d = some n) :
    (d, n) ∈ (ofCalls calls).lengthTable order := by
  rw [mem_lengthTable, getElem?_ofCalls, hr, Option.some_or]

/-- Where no length is registered, one of the terms of the document implies it. -/
theorem mem_lengthTable_of_unregistered {n : Length} (hr : registered? calls d = none) :
    (d, n) ∈ (ofCalls calls).lengthTable order ↔ (ofCalls calls).implied? order d = some n := by
  rw [mem_lengthTable, getElem?_ofCalls, hr, Option.none_or]

theorem implied?_of_highest (hp : Highest calls d p) :
    (ofCalls calls).implied? order d = some (p + 1) := by
  apply implied?_eq
  · obtain ⟨term, hterm⟩ := hp.1
    exact ⟨term, endsAt_ofCalls_iff.mpr ⟨hterm, fun q hq => (hp.2 term q hq).2⟩⟩
  · intro term q hq
    exact hp.isLast_iff (endsAt_ofCalls_iff.mp hq)

theorem represents_of_build (hfits : Fits calls) (h : (ofCalls calls).build order = .ok index) :
    index.Represents calls where
  listed_iff term d p := by rw [listed_postings_iff h, mem_ofCalls]
  postings_sorted := postings_sorted h
  vocabulary_ascending := vocabulary_ascending h
  mem_vocabulary term := by simp only [mem_vocabulary h, mem_ofCalls]
  docIds_ascending := (build_sound h).docIds_ascending
  mem_docIds d := by rw [(build_eq_ok h).2.1, mem_observedDocs_iff]
  length_isSome d hd := by
    rw [(build_eq_ok h).2.1] at hd
    obtain ⟨⟨doc, n⟩, hm, rfl⟩ := List.mem_map.mp (mem_lengthTable_docs.mpr (.inr hd))
    rw [(docLength?_eq_some_iff h).mpr hm]
    rfl
  length_registered d n hr := (docLength?_eq_some_iff h).mpr (mem_lengthTable_of_registered hr)
  length_implied d p hr hp := by
    obtain ⟨term, hterm⟩ := hp.1
    refine ⟨p + 1, ?_, toNat_add_one (hfits _ hterm)⟩
    exact (docLength?_eq_some_iff h).mpr
      ((mem_lengthTable_of_unregistered hr).mpr (implied?_of_highest hp))
  length_of_term d hd hr := by
    rw [(build_eq_ok h).2.1, ← isSome_implied?_iff] at hd
    obtain ⟨n, hn⟩ := Option.isSome_iff_exists.mp hd
    obtain ⟨term, p, hp, rfl⟩ := exists_endsAt_of_implied? hn
    have hlast := endsAt_ofCalls_iff.mp hp
    refine ⟨term, p, p + 1, hlast, ?_, toNat_add_one (hfits _ hlast.recorded)⟩
    exact (docLength?_eq_some_iff h).mpr ((mem_lengthTable_of_unregistered hr).mpr hn)
  docFrequency_bounds term ht := by
    rw [vocabulary_eq h] at ht
    obtain ⟨l, hl, hterm⟩ := List.mem_map.mp ht
    exact ⟨l, (find?_eq_some_iff h).mpr ⟨hl, hterm⟩, docFrequency_bounds h hl⟩

/-! ## Recording again, and in another order -/

/-- The same observations recorded, and the same other calls made in the same order. -/
structure SameUpToAdds (others calls : List Call) : Prop where
  mem_iff : ∀ call, call.isAdd → (call ∈ others ↔ call ∈ calls)
  rest_eq : others.filter (!·.isAdd) = calls.filter (!·.isAdd)

namespace SameUpToAdds

theorem mem (hs : SameUpToAdds others calls) (call : Call) : call ∈ others ↔ call ∈ calls := by
  cases hadd : call.isAdd with
  | true => exact hs.mem_iff call hadd
  | false =>
    have hrest : call ∈ others.filter (!·.isAdd) ↔ call ∈ calls.filter (!·.isAdd) := by
      rw [hs.rest_eq]
    simpa [hadd] using hrest

theorem recorded_iff (hs : SameUpToAdds others calls) (o : Observation) :
    Recorded others o ↔ Recorded calls o := by
  simp only [Recorded, hs.mem]

/-- To add registers nothing. -/
theorem registered?_filter (calls : List Call) (d : DocId) :
    registered? (calls.filter (!·.isAdd)) d = registered? calls d := by
  have hfilter : (calls.filter (!·.isAdd)).filterMap (Call.length? d) =
      calls.filterMap (Call.length? d) := by
    rw [List.filterMap_filter]
    congr 1
    funext call
    cases call <;> rfl
  rw [registered?, hfilter, registered?]

theorem registered?_eq (hs : SameUpToAdds others calls) (d : DocId) :
    registered? others d = registered? calls d := by
  rw [← registered?_filter, hs.rest_eq, registered?_filter]

end SameUpToAdds

/-- What can be built comes down to what is recorded and what is registered. -/
theorem build_ofCalls_congr (hrecorded : ∀ o, Recorded others o ↔ Recorded calls o)
    (hregistered : ∀ d, registered? others d = registered? calls d) (order : TableOrder) :
    (ofCalls others).build order = (ofCalls calls).build order := by
  have hobs : ∀ o, o ∈ (ofCalls others).observations ↔ o ∈ (ofCalls calls).observations := by
    intro o
    rw [mem_ofCalls, mem_ofCalls, hrecorded]
  refine build_congr hobs fun d => ?_
  rw [getElem?_ofCalls, getElem?_ofCalls, hregistered, implied?, postingLists_congr hobs, implied?]

/-- Where all documents are settled, the order in which the entries are visited changes nothing. -/
theorem build_of_settled (h : Settled calls) (order order' : TableOrder) :
    (ofCalls calls).build order = (ofCalls calls).build order' := by
  refine build_congr (fun _ => Iff.rfl) fun d => ?_
  rw [getElem?_ofCalls]
  cases hr : registered? calls d with
  | some n => rfl
  | none =>
    rw [Option.none_or, Option.none_or]
    by_cases hd : d ∈ (ofCalls calls).observedDocs
    -- no length is registered, so that all terms imply the same one
    · obtain hsome | ⟨p, hp⟩ := h d (mem_observedDocs_iff.mp hd)
      · rw [hr] at hsome
        cases hsome
      · rw [implied?_of_highest hp, implied?_of_highest hp]
    · rw [implied?_eq_none hd, implied?_eq_none hd]

/-- The term whose entry is visited first is the one that implies the length. -/
theorem implied?_first {term : Term} (h : IsLast calls term d p) :
    (ofCalls calls).implied? (.first term) d = some (p + 1) := by
  have hends := endsAt_ofCalls_iff.mpr h
  -- the entry of the term comes first and holds the document, so that no other entry is asked
  obtain ⟨l, hl, hterm, -⟩ := exists_listed_iff.mpr hends.observed
  have hsome : (((ofCalls calls).postingLists.filter (·.term = term)).findSome? fun l =>
      impliedIn d l.postings.toList).isSome := by
    rw [List.findSome?_isSome_iff]
    refine ⟨l, List.mem_filter.mpr ⟨hl, decide_eq_true hterm⟩, ?_⟩
    exact (isSome_impliedIn_iff hl).mpr ⟨p, hterm ▸ hends.observed⟩
  obtain ⟨n, hn⟩ := Option.isSome_iff_exists.mp hsome
  obtain ⟨l', hl', himplied⟩ := List.exists_of_findSome?_eq_some hn
  obtain ⟨hl', hterm'⟩ := List.mem_filter.mp hl'
  obtain ⟨q, hq, rfl⟩ := exists_endsAt_of_impliedIn hl' himplied
  rw [of_decide_eq_true hterm'] at hq
  have hpq : q = p :=
    UInt32.le_antisymm (hends.last q hq.observed) (hq.last p hends.observed)
  rw [implied?, TableOrder.first, List.findSome?_append, hn, Option.some_or, hpq]

theorem exists_docLength?_eq {term : Term} (hr : registered? calls d = none)
    (h : IsLast calls term d p) : ∃ order index, (ofCalls calls).build order = .ok index ∧
      index.docLength? d = some (p + 1) := by
  have hentry : (d, p + 1) ∈ (ofCalls calls).lengthTable (.first term) :=
    (mem_lengthTable_of_unregistered hr).mpr (implied?_first h)
  obtain ⟨index, hindex⟩ := exists_build_eq_ok (List.ne_nil_of_mem hentry)
  exact ⟨_, index, hindex, (docLength?_eq_some_iff hindex).mpr hentry⟩

/-- The terms of document 1 imply different lengths. -/
example : let told := ofCalls [.add "cat" 1 0, .add "sat" 1 5]
    told.lengthTable .byTerm = [(1, 1)] ∧ told.lengthTable (.first "sat") = [(1, 6)] := by
  decide +kernel

/-- A new builder that has received some calls, none of them recording the last position, builds an
index unless no document is known to it. The index represents the calls: a place is listed exactly
where some call recorded it, and every view of the index agrees with the places listed. Recording
the same observations in another order, or again, changes nothing of what can be built; and where
the length of each document is registered, or implied by all its terms alike, there is only one
index that can be built. Where the terms of a document disagree, each of them can be the one that
implies its length. -/
theorem build_ofCalls (calls : List Call) (hfits : Fits calls) :
    (∀ order, (ofCalls calls).build order = .error .emptyCorpus ↔ Silent calls) ∧
    (¬Silent calls → ∀ order, ∃ index, (ofCalls calls).build order = .ok index ∧
      index.Represents calls) ∧
    (∀ others, SameUpToAdds others calls →
      (∀ order, (ofCalls others).build order = (ofCalls calls).build order) ∧
      (Settled calls → ∀ order order',
        (ofCalls others).build order = (ofCalls calls).build order')) ∧
    ∀ d term p, registered? calls d = none → IsLast calls term d p →
      ∃ order index, (ofCalls calls).build order = .ok index ∧
        index.docLength? d = some (p + 1) := by
  refine ⟨?_, ?_, ?_, fun d term p => exists_docLength?_eq⟩
  · intro order
    rw [build_eq_error_iff, lengthTable_ofCalls_eq_nil_iff]
  · intro hsilent order
    obtain ⟨index, h⟩ := exists_build_ofCalls hsilent order
    exact ⟨index, h, represents_of_build hfits h⟩
  · intro others hs
    have hsame : ∀ order, (ofCalls others).build order = (ofCalls calls).build order :=
      fun order => build_ofCalls_congr hs.recorded_iff hs.registered?_eq order
    refine ⟨hsame, fun hsettled order order' => ?_⟩
    rw [hsame, build_of_settled hsettled]

/-- A length without a word, a text, and one occurrence in two other documents. -/
def mixedCalls : List Call :=
  [.setLength 9 4, .add "cat" 3 1, .addDocument 1 "the cat", .add "cat" 2 0, .setLength 2 6]

/-- The same, told in another order and with repeats. -/
def mixedAgain : List Call :=
  [.add "cat" 2 0, .setLength 9 4, .add "cat" 2 0, .addDocument 1 "the cat", .setLength 2 6,
    .add "cat" 3 1, .add "cat" 3 1]

theorem mixedAgain_same : SameUpToAdds mixedAgain mixedCalls := by
  refine ⟨?_, rfl⟩
  intro call hadd
  cases call with
  | add =>
    simp only [mixedAgain, mixedCalls, List.mem_cons, List.not_mem_nil, Call.add.injEq, reduceCtorEq]
    grind
  | setLength => cases hadd
  | addDocument => cases hadd

theorem settled_mixedCalls : Settled mixedCalls := by
  have hdocs : ∀ {term d p}, Recorded mixedCalls ⟨term, d, p⟩ →
      d = 3 ∧ term = "cat" ∧ p = 1 ∨ d = 1 ∨ d = 2 := by
    intro term d p h
    simp [Recorded, mixedCalls, Call.Records] at h
    grind
  intro d h
  obtain ⟨term, p, h⟩ := h
  obtain ⟨rfl, rfl, rfl⟩ | rfl | rfl := hdocs h
  · refine .inr ⟨1, ⟨"cat", h⟩, fun term q hq => ?_⟩
    obtain ⟨-, rfl, rfl⟩ | hd | hd := hdocs hq
    · exact ⟨hq, UInt32.le_refl 1⟩
    · cases hd
    · cases hd
  · exact .inl rfl
  · exact .inl rfl

theorem build_mixedCalls : Fits mixedCalls ∧ ¬Silent mixedCalls ∧ Settled mixedCalls ∧ ∃ index,
    index.Represents mixedCalls ∧
    ∀ order, (ofCalls mixedCalls).build order = .ok index ∧
      (ofCalls mixedAgain).build order = .ok index := by
  have hfits : Fits mixedCalls := fits_iff.mpr (by decide +kernel)
  have hsilent : ¬Silent mixedCalls := by
    intro h
    exact absurd (h 9).1 (by decide)
  obtain ⟨-, hbuild, hagain, -⟩ := build_ofCalls mixedCalls hfits
  obtain ⟨index, hindex, hrep⟩ := hbuild hsilent .byTerm
  obtain ⟨hsame, hsettled⟩ := hagain _ mixedAgain_same
  have hagainIndex : ∀ order, (ofCalls mixedAgain).build order = .ok index := fun order =>
    (hsettled settled_mixedCalls order .byTerm).trans hindex
  refine ⟨hfits, hsilent, settled_mixedCalls, index, hrep, fun order => ⟨?_, hagainIndex order⟩⟩
  rw [← hsame order, hagainIndex order]

end Builder
end Concordance
