import Concordance.Proofs.Bisect
import Concordance.Proofs.Index.Build
import Concordance.Proofs.Index.Posting
/-!
What a builder holds after some calls, and what it hands to its index. The observations are those
that some call recorded, no matter when or how often (`mem_ofCalls`), and the lengths the last ones
registered (`getElem?_ofCalls`). The entries of the index list exactly the observations
(`exists_listed_iff`), its table of lengths covers exactly the known documents (`mem_lengthTable`),
and nothing else goes into it: two builders with the same contents build the same index
(`build_congr`).
-/
namespace Concordance

/-! ## Orders -/

theorem toNat_add_one {p : Position} (hp : p.toNat + 1 < UInt32.size) :
    (p + 1).toNat = p.toNat + 1 := by
  rw [UInt32.toNat_add]
  exact Nat.mod_eq_of_lt hp

instance : Std.LawfulEqCmp Observation.order where
  compare_self := Std.ReflCmp.compare_self
  eq_of_compare := by
    intro a b h
    simp only [Observation.order, compareLex, compareOn, Ordering.then_eq_eq,
      Std.LawfulEqOrd.compare_eq_iff_eq] at h
    cases a
    cases b
    simp_all

namespace Builder
variable {b : Builder} {o : Observation} {d : DocId}

/-! ## What the calls say -/

def Call.Records (o : Observation) : Call → Prop
  | .add term doc position => o = ⟨term, doc, position⟩
  | .setLength .. => False
  | .addDocument doc text => o.doc = doc ∧ ⟨o.term, o.position⟩ ∈ occurrences text

def Call.length? (d : DocId) : Call → Option Length
  | .add .. => none
  | .setLength doc length => if doc = d then some length else none
  | .addDocument doc text => if doc = d then some (lengthOf text) else none

/-- Whether some call records the observation. -/
def Recorded (calls : List Call) (o : Observation) : Prop := ∃ call ∈ calls, call.Records o

/-- The last length that the calls register for a document. -/
def registered? (calls : List Call) (d : DocId) : Option Length :=
  (calls.filterMap (Call.length? d)).getLast?

/-! ## What the builder holds -/

theorem mem_add {term : Term} {doc : DocId} {position : Position} :
    o ∈ (b.add term doc position).observations ↔
      o = ⟨term, doc, position⟩ ∨ o ∈ b.observations := by
  rw [add, Std.TreeSet.mem_insert, Std.LawfulEqCmp.compare_eq_iff_eq, eq_comm]

theorem mem_foldl_add {doc : DocId} : ∀ {os : List Occurrence} {b : Builder},
    o ∈ (os.foldl (fun b x => b.add x.term doc x.position) b).observations ↔
      (o.doc = doc ∧ ⟨o.term, o.position⟩ ∈ os) ∨ o ∈ b.observations
  | [], b => by simp
  | x :: os, b => by
    have hx : o = ⟨x.term, doc, x.position⟩ ↔
        o.doc = doc ∧ (⟨o.term, o.position⟩ : Occurrence) = x := by
      cases o
      cases x
      simp [and_left_comm]
    rw [List.foldl_cons, mem_foldl_add, mem_add, hx, List.mem_cons, and_or_left, or_assoc,
      or_left_comm]

theorem lengths_foldl_add (doc : DocId) : ∀ (os : List Occurrence) (b : Builder),
    (os.foldl (fun b x => b.add x.term doc x.position) b).lengths = b.lengths
  | [], _ => rfl
  | x :: os, b => lengths_foldl_add doc os (b.add x.term doc x.position)

theorem mem_apply (b : Builder) (call : Call) :
    o ∈ (call.apply b).observations ↔ call.Records o ∨ o ∈ b.observations := by
  cases call with
  | add term doc position => exact mem_add
  | setLength doc length => exact (or_iff_right id).symm
  | addDocument doc text => exact mem_foldl_add

theorem getElem?_apply (b : Builder) (call : Call) :
    (call.apply b).lengths[d]? = (call.length? d).or b.lengths[d]? := by
  have hset : ∀ (b : Builder) (doc : DocId) (length : Length),
      (b.setLength doc length).lengths[d]? =
        (if doc = d then some length else none).or b.lengths[d]? := by
    intro b doc length
    rw [setLength, Std.TreeMap.getElem?_insert]
    by_cases h : doc = d <;> simp [h]
  cases call with
  | add => rfl
  | setLength doc length => exact hset b doc length
  | addDocument doc text =>
    have h := hset ((occurrences text).foldl (fun b o => b.add o.term doc o.position) b) doc
      (lengthOf text)
    rwa [lengths_foldl_add] at h

/-- A builder holds what the calls recorded, however often and in whatever order. -/
theorem mem_ofCalls (calls : List Call) :
    o ∈ (ofCalls calls).observations ↔ Recorded calls o := by
  have hrun : ∀ (calls : List Call) (b : Builder),
      o ∈ (calls.foldl Call.apply b).observations ↔ Recorded calls o ∨ o ∈ b.observations := by
    intro calls
    induction calls with
    | nil => intro b; simp [Recorded]
    | cons call calls ih =>
      intro b
      rw [List.foldl_cons, ih, mem_apply]
      simp [Recorded, or_assoc, or_left_comm]
  rw [ofCalls, hrun]
  simp

/-- Of the lengths that calls registered for a document, a builder holds the last. -/
theorem getElem?_ofCalls (calls : List Call) :
    (ofCalls calls).lengths[d]? = registered? calls d := by
  have hrun : ∀ (calls : List Call) (b : Builder),
      (calls.foldl Call.apply b).lengths[d]? = (registered? calls d).or b.lengths[d]? := by
    intro calls
    induction calls with
    | nil => intro b; simp [registered?]
    | cons call calls ih =>
      intro b
      rw [List.foldl_cons, ih, getElem?_apply]
      cases h : call.length? d <;> simp [registered?, h, List.getLast?_cons]
  rw [ofCalls, hrun]
  simp

/-! ## The entries of the index -/

theorem mem_places {term : Term} {p : Position} :
    (term, d, p) ∈ b.places ↔ ⟨term, d, p⟩ ∈ b.observations := by
  rw [places, List.mem_map]
  constructor
  · rintro ⟨o, ho, he⟩
    cases he
    exact Std.TreeSet.mem_toList.mp ho
  · intro ho
    exact ⟨_, Std.TreeSet.mem_toList.mpr ho, rfl⟩

theorem listed_map_mk {rs : List (DocId × List Position)} {p : Position} :
    Listed (rs.map fun (doc, positions) => Posting.mk doc positions) d p ↔
      ∃ positions, (d, positions) ∈ rs ∧ p ∈ positions := by
  constructor
  · rintro ⟨posting, hm, rfl, hp⟩
    obtain ⟨⟨doc, positions⟩, hr, rfl⟩ := List.mem_map.mp hm
    exact ⟨positions, hr, hp⟩
  · rintro ⟨positions, hr, hp⟩
    exact ⟨⟨d, positions⟩, List.mem_map_of_mem hr, rfl, hp⟩

theorem exists_listed_iff {term : Term} {p : Position} :
    (∃ l ∈ b.postingLists, l.term = term ∧ Listed l.postings.toList d p) ↔
      ⟨term, d, p⟩ ∈ b.observations := by
  rw [← mem_places, ← exists_mem_runs_iff]
  constructor
  · rintro ⟨l, hl, rfl, hlisted⟩
    obtain ⟨run, hrun, he⟩ := postings_of_mem_postingLists hl
    rw [he, listed_map_mk, exists_mem_runs_iff] at hlisted
    exact ⟨run, hrun, hlisted⟩
  · rintro ⟨run, hrun, hp⟩
    let postings := (runs run).map fun (doc, positions) => Posting.mk doc positions
    refine ⟨.ofPostings term postings, mem_postingLists.mpr ⟨run, hrun, rfl⟩, rfl, ?_⟩
    have hlisted : Listed postings d p := by
      rw [listed_map_mk, exists_mem_runs_iff]
      exact hp
    exact hlisted

theorem postingLists_sortedBy (b : Builder) :
    SortedBy PostingList.term b.postingLists.toArray := by
  have hterms : b.postingLists.map PostingList.term = (runs b.places).map (·.1) := by
    rw [postingLists, List.map_map]
    rfl
  rw [SortedBy, List.toList_toArray, hterms]
  exact runs_pairwise (fun _ _ _ => Std.TransCmp.lt_trans) b.places_pairwise

theorem postingLists_sortedPostings {l : PostingList} (hl : l ∈ b.postingLists) :
    SortedPostings l.postings.toList := by
  obtain ⟨run, hrun, he⟩ := postings_of_mem_postingLists hl
  have hbefore := run_pairwise hrun
  refine ⟨⟨(postingLists_docs hl).1, ?_⟩, ?_⟩
  · rw [he, List.forall_mem_map]
    rintro ⟨doc, positions⟩ hr
    -- within one document, it is the positions that rise
    have hsub := List.pairwise_map.mp (hbefore.sublist (sublist_of_mem_runs hr))
    refine hsub.imp ?_
    rintro p q (hlt | ⟨_, hlt⟩)
    · exact absurd hlt (UInt32.lt_irrefl doc)
    · exact hlt
  · rw [he, List.forall_mem_map]
    rintro ⟨doc, positions⟩ hr
    exact ne_nil_of_mem_runs hr

theorem postings_ne_nil {l : PostingList} (hl : l ∈ b.postingLists) :
    l.postings.toList ≠ [] := by
  obtain ⟨run, hrun, he⟩ := postings_of_mem_postingLists hl
  obtain ⟨place, hplace⟩ := List.exists_mem_of_ne_nil run (ne_nil_of_mem_runs hrun)
  obtain ⟨positions, hr, _⟩ := exists_mem_runs_iff.mpr hplace
  rw [he]
  exact List.ne_nil_of_mem (List.mem_map_of_mem hr)

theorem mem_observedDocs : d ∈ b.observedDocs ↔ ∃ term p, ⟨term, d, p⟩ ∈ b.observations := by
  rw [observedDocs, mem_ascending, List.mem_map]
  constructor
  · rintro ⟨o, ho, rfl⟩
    exact ⟨o.term, o.position, Std.TreeSet.mem_toList.mp ho⟩
  · rintro ⟨term, p, ho⟩
    exact ⟨_, Std.TreeSet.mem_toList.mpr ho, rfl⟩

/-! ## The lengths that postings imply -/

/-- The length that some postings imply for a document. -/
def impliedIn (d : DocId) (ps : List Posting) : Option Length :=
  ps.findSome? fun posting => if posting.doc = d then some posting.impliedLength else none

/-- The length that is implied for a document by the first entry that holds it. -/
def implied? (b : Builder) (order : TableOrder) (d : DocId) : Option Length :=
  (order.visit b.postingLists).findSome? fun l => impliedIn d l.postings.toList

theorem getElem?_addImplied (lengths : Lengths) (l : PostingList) :
    (addImplied lengths l)[d]? = lengths[d]?.or (impliedIn d l.postings.toList) := by
  rw [addImplied, ← Array.foldl_toList]
  generalize l.postings.toList = ps
  induction ps generalizing lengths with
  | nil => simp [impliedIn]
  | cons posting ps ih =>
    rw [List.foldl_cons, ih, Std.TreeMap.getElem?_insertIfNew, impliedIn, impliedIn,
      List.findSome?_cons]
    by_cases hdoc : posting.doc = d
    · subst hdoc
      by_cases hm : posting.doc ∈ lengths
      · simp [hm]
      · simp [hm]
    · simp [hdoc]

theorem getElem?_foldl_addImplied (ls : List PostingList) (lengths : Lengths) :
    (ls.foldl addImplied lengths)[d]? =
      lengths[d]?.or (ls.findSome? fun l => impliedIn d l.postings.toList) := by
  induction ls generalizing lengths with
  | nil => simp
  | cons l ls ih =>
    rw [List.foldl_cons, ih, getElem?_addImplied, List.findSome?_cons]
    -- what is there already stays, and of the entries the first one counts
    cases lengths[d]? <;> cases impliedIn d l.postings.toList <;> rfl

/-- The position is the last one observed of the term in the document. -/
structure EndsAt (b : Builder) (term : Term) (d : DocId) (p : Position) : Prop where
  observed : ⟨term, d, p⟩ ∈ b.observations
  last : ∀ q, ⟨term, d, q⟩ ∈ b.observations → q ≤ p

theorem postingLists_unique {l l' : PostingList} (hl : l ∈ b.postingLists)
    (hl' : l' ∈ b.postingLists) (hterm : l.term = l'.term) : l = l' := by
  have hfind := fun (l : PostingList) (hl : l ∈ b.postingLists) =>
    (bisect_key_eq_some_iff (k := l.term) b.postingLists_sortedBy).mpr ⟨List.mem_toArray.mpr hl, rfl⟩
  exact Option.some.inj ((hfind l hl).symm.trans (hterm ▸ hfind l' hl'))

theorem listed_iff_of_mem_postingLists {l : PostingList} (hl : l ∈ b.postingLists)
    {p : Position} : Listed l.postings.toList d p ↔ ⟨l.term, d, p⟩ ∈ b.observations := by
  rw [← exists_listed_iff]
  constructor
  · intro h
    exact ⟨l, hl, rfl, h⟩
  · intro h
    obtain ⟨l', hl', hterm, h⟩ := h
    rwa [postingLists_unique hl hl' hterm.symm]

theorem exists_endsAt_of_impliedIn {l : PostingList} {n : Length} (hl : l ∈ b.postingLists)
    (h : impliedIn d l.postings.toList = some n) : ∃ p, b.EndsAt l.term d p ∧ n = p + 1 := by
  obtain ⟨posting, hm, hposting⟩ := List.exists_of_findSome?_eq_some h
  obtain ⟨rfl, hn⟩ := Option.ite_none_right_eq_some.mp hposting
  have hsorted := postingLists_sortedPostings hl
  have hplaces : ∀ q, ⟨l.term, posting.doc, q⟩ ∈ b.observations ↔ q ∈ posting.positions := by
    intro q
    rw [← listed_iff_of_mem_postingLists hl, hsorted.listed_iff hm]
  -- the last position of the posting is the last one observed, as they are in order
  obtain hnil | ⟨before, p, hpositions⟩ := List.eq_nil_or_concat posting.positions
  · exact absurd hnil (hsorted.positions_ne_nil posting hm)
  rw [List.concat_eq_append] at hpositions
  have hascending := hsorted.positions_ascending posting hm
  rw [hpositions, Ascending, List.pairwise_append] at hascending
  refine ⟨p, ⟨(hplaces p).mpr (by simp [hpositions]), fun q hq => ?_⟩, ?_⟩
  · rw [hplaces, hpositions, List.mem_append, List.mem_singleton] at hq
    obtain hbefore | rfl := hq
    · exact UInt32.le_of_lt (hascending.2.2 q hbefore p (List.mem_singleton_self p))
    · exact UInt32.le_refl q
  · rw [← Option.some.inj hn, Posting.impliedLength, hpositions, List.getLast?_concat]
    rfl

theorem isSome_impliedIn_iff {l : PostingList} (hl : l ∈ b.postingLists) :
    (impliedIn d l.postings.toList).isSome ↔ ∃ p, ⟨l.term, d, p⟩ ∈ b.observations := by
  have hsome : (impliedIn d l.postings.toList).isSome ↔ d ∈ docsOf l.postings.toList := by
    simp [impliedIn, docsOf]
  rw [hsome, (postingLists_sortedPostings hl).mem_docsOf]
  simp only [listed_iff_of_mem_postingLists hl]

theorem exists_endsAt_of_implied? {order : TableOrder} {n : Length}
    (h : b.implied? order d = some n) : ∃ term p, b.EndsAt term d p ∧ n = p + 1 := by
  obtain ⟨l, hl, hn⟩ := List.exists_of_findSome?_eq_some h
  have hmem : l ∈ b.postingLists := (order.visit_perm b.postingLists).mem_iff.mp hl
  exact ⟨l.term, exists_endsAt_of_impliedIn hmem hn⟩

theorem isSome_implied?_iff {order : TableOrder} :
    (b.implied? order d).isSome ↔ d ∈ b.observedDocs := by
  rw [implied?, List.findSome?_isSome_iff, mem_observedDocs]
  simp only [(order.visit_perm b.postingLists).mem_iff]
  constructor
  · intro h
    obtain ⟨l, hl, hsome⟩ := h
    exact ⟨l.term, (isSome_impliedIn_iff hl).mp hsome⟩
  · intro h
    obtain ⟨term, p, ho⟩ := h
    obtain ⟨l, hl, rfl, -⟩ := exists_listed_iff.mpr ho
    exact ⟨l, hl, (isSome_impliedIn_iff hl).mpr ⟨p, ho⟩⟩

theorem implied?_eq_none {order : TableOrder} (h : d ∉ b.observedDocs) :
    b.implied? order d = none := by
  rwa [← Option.not_isSome_iff_eq_none, isSome_implied?_iff]

/-! ## The table of lengths -/

variable {order : TableOrder}

theorem mem_lengthTable {n : Length} :
    (d, n) ∈ b.lengthTable order ↔ b.lengths[d]?.or (b.implied? order d) = some n := by
  rw [lengthTable, Std.TreeMap.mem_toList_iff_getElem?_eq_some, getElem?_foldl_addImplied, implied?]

theorem mem_lengthTable_docs :
    d ∈ (b.lengthTable order).map (·.1) ↔ d ∈ b.lengths ∨ d ∈ b.observedDocs := by
  have himplied : (b.implied? order d).isSome ↔ d ∈ b.observedDocs := isSome_implied?_iff
  rw [← Std.TreeMap.isSome_getElem?_iff_mem, ← himplied, ← Bool.or_eq_true, ← Option.isSome_or,
    Option.isSome_iff_exists, List.mem_map]
  simp only [← mem_lengthTable]
  constructor
  · intro h
    obtain ⟨⟨doc, n⟩, hm, rfl⟩ := h
    exact ⟨n, hm⟩
  · intro h
    obtain ⟨n, hm⟩ := h
    exact ⟨(d, n), hm, rfl⟩

theorem lengthTable_sortedBy (b : Builder) (order : TableOrder) :
    SortedBy Prod.fst (b.lengthTable order).toArray := by
  rw [SortedBy, List.toList_toArray, List.pairwise_map]
  exact Std.TreeMap.ordered_keys_toList

theorem lengthTable_eq_nil_iff :
    b.lengthTable order = [] ↔ ∀ d, d ∉ b.lengths ∧ d ∉ b.observedDocs := by
  rw [← List.map_eq_nil_iff (f := Prod.fst), List.eq_nil_iff_forall_not_mem]
  simp only [mem_lengthTable_docs, not_or]

/-- Where all terms of a document end at one position, this implies its length. -/
theorem implied?_eq {p : Position} (hp : ∃ term, b.EndsAt term d p)
    (hmax : ∀ term q, b.EndsAt term d q → q = p) : b.implied? order d = some (p + 1) := by
  obtain ⟨term, hterm⟩ := hp
  have hobserved : d ∈ b.observedDocs := mem_observedDocs.mpr ⟨term, p, hterm.observed⟩
  obtain ⟨n, hn⟩ := Option.isSome_iff_exists.mp (isSome_implied?_iff.mpr hobserved)
  obtain ⟨term', q, hq, rfl⟩ := exists_endsAt_of_implied? hn
  rw [hn, hmax term' q hq]

/-! ## Building -/

theorem build_eq_error_iff : b.build order = .error .emptyCorpus ↔ b.lengthTable order = [] := by
  simp only [build]
  split <;> simp_all

theorem build_of_ne_nil (h : b.lengthTable order ≠ []) : b.build order = .ok {
    lists := b.postingLists.toArray
    docIds := b.observedDocs
    lengths := (b.lengthTable order).toArray
    averageLength :=
      (totalLength (b.lengthTable order)).toFloat / (b.lengthTable order).length.toFloat } := by
  simp only [build, List.isEmpty_eq_false_iff.mpr h]
  rfl

theorem exists_build_eq_ok (h : b.lengthTable order ≠ []) :
    ∃ index, b.build order = .ok index := ⟨_, build_of_ne_nil h⟩

theorem postingLists_congr {b' : Builder}
    (hobs : ∀ o, o ∈ b.observations ↔ o ∈ b'.observations) :
    b.postingLists = b'.postingLists := by
  rw [postingLists, (Std.TreeSet.Equiv.of_forall_mem_iff hobs).toList_eq, postingLists]

/-- Builders with the same observations and the same table of lengths build the same index. -/
theorem build_congr {b' : Builder} {order' : TableOrder}
    (hobs : ∀ o, o ∈ b.observations ↔ o ∈ b'.observations)
    (hlengths : ∀ d : DocId, b.lengths[d]?.or (b.implied? order d) =
      b'.lengths[d]?.or (b'.implied? order' d)) : b.build order = b'.build order' := by
  have hlist : b.observations.toList = b'.observations.toList :=
    (Std.TreeSet.Equiv.of_forall_mem_iff hobs).toList_eq
  have hdocs : b.observedDocs = b'.observedDocs := by rw [observedDocs, hlist, observedDocs]
  have hlists := postingLists_congr hobs
  have htable : b.lengthTable order = b'.lengthTable order' := by
    apply (Std.TreeMap.Equiv.of_forall_constGet?_eq fun d => ?_).toList_eq
    rw [getElem?_foldl_addImplied, getElem?_foldl_addImplied]
    exact hlengths d
  simp only [build, htable, hlists, hdocs]

end Builder

end Concordance
