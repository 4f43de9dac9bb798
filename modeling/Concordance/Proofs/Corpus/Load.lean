import Concordance.Proofs.Corpus.Name
import Concordance.Proofs.Index.Documents
import Mathlib.Data.List.Nodup
import Mathlib.Data.List.Perm.Basic
/-!
Loading a corpus. A directory can be read as documents exactly where the name of each of its files
is a number, and no two names are the same number (`WellNamed`). No file is lost then: each stands
once under its own number, and the index is that of the texts of the files, whatever the order in
which they are added (`loadCorpus_of_holds`).

The files are gathered one by one, in the order of their names. One lemma says when a file is added
and one when it is refused (`addDocFile_eq_ok_iff`, `addDocFile_eq_error`), and from these come the
runs: which files can be gathered (`exists_gather_iff`), with which error if not
(`gather_eq_error`), and what documents they are (`gather_perm`). To index the documents is to add
their texts (`foldlM_indexFile_eq_ok_iff`), since one more than the last position of a text is the
number of its words.
-/
namespace Concordance

open Builder (ofCalls Call)
open scoped List

variable {dir : String} {order : TableOrder} {d : DocId}

/-! ## Steps that can fail -/

section
variable {ε α β : Type} {x : Except ε α} {f : α → Except ε β} {r : β} {e : ε}

theorem bind_eq_ok_iff : x >>= f = .ok r ↔ ∃ a, x = .ok a ∧ f a = .ok r := by
  cases x <;> simp [bind, Except.bind]

theorem bind_eq_error_iff :
    x >>= f = .error e ↔ x = .error e ∨ ∃ a, x = .ok a ∧ f a = .error e := by
  cases x <;> simp [bind, Except.bind]

theorem mapError_eq_ok_iff {ε' : Type} {g : ε → ε'} {a : α} : x.mapError g = .ok a ↔ x = .ok a := by
  cases x <;> simp [Except.mapError]

theorem mapError_eq_error_iff {ε' : Type} {g : ε → ε'} {e' : ε'} :
    x.mapError g = .error e' ↔ ∃ e, x = .error e ∧ g e = e' := by
  cases x <;> simp [Except.mapError]

/-- Of steps that are taken in a row, it is one that fails. -/
theorem foldlM_eq_error {step : β → α → Except ε β} {as : List α} : ∀ {b : β},
    as.foldlM step b = .error e → ∃ b a, step b a = .error e := by
  induction as with
  | nil =>
    intro b h
    cases h
  | cons a as ih =>
    intro b h
    rw [List.foldlM_cons] at h
    obtain hstep | ⟨next, -, hrest⟩ := bind_eq_error_iff.mp h
    · exact ⟨b, a, hstep⟩
    · exact ih hrest

end

/-! ## Gathering the files -/

def DocFile.id? (file : DocFile) : Option DocId := (docIdOfPath file.path).toOption

def DocFile.numbered (file : DocFile) : Option DocId × DocFile := (file.id?, file)

def DocFiles.numbered (m : DocFiles) : List (Option DocId × DocFile) :=
  m.toList.map fun (d, file) => (some d, file)

namespace Files

variable {file : DocFile} {files : List DocFile} {m m' : DocFiles} {e : Error}

theorem addDocFile_eq_ok_iff :
    addDocFile m file = .ok m' ↔ ∃ d, file.id? = some d ∧ d ∉ m ∧ m' = m.insert d file := by
  unfold addDocFile DocFile.id?
  rw [bind_eq_ok_iff]
  cases docIdOfPath file.path with
  | error e => simp [Except.toOption]
  | ok d =>
    by_cases hm : d ∈ m
    · simp [Except.toOption, hm]
    · simp [pure, Except.pure, Except.toOption, hm, eq_comm]

theorem addDocFile_eq_error (h : addDocFile m file = .error e) :
    ∃ name, e = .invalidDocId name := by
  obtain hid | ⟨d, -, h⟩ := bind_eq_error_iff.mp h
  · exact docIdOfPath_eq_error hid
  · split at h
    · exact ⟨_, (Except.error.inj h).symm⟩
    · cases h

theorem gather_eq_error (h : files.foldlM addDocFile m = .error e) :
    ∃ name, e = .invalidDocId name := by
  obtain ⟨_, _, hfile⟩ := foldlM_eq_error h
  exact addDocFile_eq_error hfile

theorem gather_cons_eq_ok_iff : (file :: files).foldlM addDocFile m = .ok m' ↔
    ∃ d, file.id? = some d ∧ d ∉ m ∧ files.foldlM addDocFile (m.insert d file) = .ok m' := by
  rw [List.foldlM_cons, bind_eq_ok_iff]
  simp only [addDocFile_eq_ok_iff]
  grind

/-- The files can be gathered beside those that are there already. -/
structure Fresh (m : DocFiles) (files : List DocFile) : Prop where
  numbered : ∀ file ∈ files, ∃ d, file.id? = some d ∧ d ∉ m
  distinct : (files.map DocFile.id?).Nodup

theorem fresh_cons_iff : Fresh m (file :: files) ↔
    ∃ d, file.id? = some d ∧ d ∉ m ∧ Fresh (m.insert d file) files := by
  have hinsert : ∀ {d d' : DocId}, d' ∉ m.insert d file ↔ d' ≠ d ∧ d' ∉ m := by
    intro d d'
    rw [Std.TreeMap.mem_insert, not_or, Std.LawfulEqCmp.compare_eq_iff_eq, eq_comm]
  constructor
  · intro h
    obtain ⟨d, hd, hm⟩ := h.numbered file List.mem_cons_self
    obtain ⟨hne, hdistinct⟩ := List.nodup_cons.mp h.distinct
    refine ⟨d, hd, hm, ?_, hdistinct⟩
    intro other hother
    obtain ⟨d', hd', hm'⟩ := h.numbered other (List.mem_cons_of_mem file hother)
    refine ⟨d', hd', hinsert.mpr ⟨?_, hm'⟩⟩
    -- two files of one number are not distinct
    rintro rfl
    exact hne (List.mem_map.mpr ⟨other, hother, hd'.trans hd.symm⟩)
  · intro h
    obtain ⟨d, hd, hm, h⟩ := h
    refine ⟨?_, List.nodup_cons.mpr ⟨?_, h.distinct⟩⟩
    · intro other hother
      cases hother with
      | head => exact ⟨d, hd, hm⟩
      | tail _ hother =>
        obtain ⟨d', hd', hm'⟩ := h.numbered other hother
        exact ⟨d', hd', (hinsert.mp hm').2⟩
    · intro hmem
      obtain ⟨other, hother, he⟩ := List.mem_map.mp hmem
      obtain ⟨d', hd', hm'⟩ := h.numbered other hother
      have hsame : d' = d := Option.some.inj (hd'.symm.trans (he.trans hd))
      exact (hinsert.mp hm').1 hsame

theorem exists_gather_iff : ∀ {m : DocFiles},
    (∃ m', files.foldlM addDocFile m = .ok m') ↔ Fresh m files := by
  induction files with
  | nil =>
    intro m
    exact iff_of_true ⟨m, rfl⟩ ⟨by simp, List.nodup_nil⟩
  | cons file files ih =>
    intro m
    calc (∃ m', (file :: files).foldlM addDocFile m = .ok m')
      _ ↔ ∃ d, file.id? = some d ∧ d ∉ m ∧
            ∃ m', files.foldlM addDocFile (m.insert d file) = .ok m' := by
        simp only [gather_cons_eq_ok_iff]
        rw [exists_comm]
        simp only [exists_and_left]
      _ ↔ Fresh m (file :: files) := by simp only [ih, fresh_cons_iff]

theorem numbered_insert_perm (hm : d ∉ m) (file : DocFile) :
    (DocFiles.numbered (m.insert d file)).Perm ((some d, file) :: m.numbered) := by
  have hkeep : m.toList.filter (fun entry => ¬d == entry.1) = m.toList := by
    rw [List.filter_eq_self]
    rintro ⟨d', file'⟩ hentry
    have hget : m[d']? = some file' := Std.TreeMap.mem_toList_iff_getElem?_eq_some.mp hentry
    have hmem : d' ∈ m := Std.TreeMap.isSome_getElem?_iff_mem.mp (by rw [hget]; rfl)
    have hne : d ≠ d' := fun he => hm (he ▸ hmem)
    simpa using hne
  have hperm := Std.TreeMap.toList_insert_perm (t := m) (k := d) (v := file)
  rw [hkeep] at hperm
  exact hperm.map _

/-- Each file stands in the documents once, under its number. -/
theorem gather_perm : ∀ {m m' : DocFiles}, files.foldlM addDocFile m = .ok m' →
    m'.numbered.Perm (files.map DocFile.numbered ++ m.numbered) := by
  induction files with
  | nil =>
    intro m m' h
    obtain rfl := Except.ok.inj h
    exact .refl _
  | cons file files ih =>
    intro m m' h
    obtain ⟨d, hd, hm, hrest⟩ := gather_cons_eq_ok_iff.mp h
    have hfirst : file.numbered = (some d, file) := congrArg (·, file) hd
    calc m'.numbered
      _ ~ files.map DocFile.numbered ++ DocFiles.numbered (m.insert d file) := ih hrest
      _ ~ files.map DocFile.numbered ++ (some d, file) :: m.numbered :=
        (numbered_insert_perm hm file).append_left _
      _ ~ file.numbered :: (files.map DocFile.numbered ++ m.numbered) := by
        rw [hfirst]
        exact List.perm_middle

end Files

/-! ## Reading the files -/

def DocFile.text (file : DocFile) : String := (Files.decode file.content).toOption.getD ""

def DocFiles.texts (m : DocFiles) : List (DocId × String) :=
  m.toList.map fun (d, file) => (d, file.text)

namespace Files

variable {b b' : Builder}

theorem last_position_add_one (text : String) :
    ((occurrences text).getLast?.map (·.position + 1)).getD 0 = Builder.lengthOf text := by
  rw [Builder.lengthOf, occurrences, List.getLast?_map, List.getLast?_zipIdx]
  obtain hnil | ⟨before, last, hwords⟩ := List.eq_nil_or_concat (words text)
  · rw [hnil]
    rfl
  · rw [hwords, List.concat_eq_append, List.getLast?_concat, List.length_append]
    simp

theorem indexWords_occurrences (b : Builder) (d : DocId) (text : String) :
    indexWords b d (occurrences text) = b.addDocument d text := by
  rw [indexWords, last_position_add_one, Builder.addDocument]

theorem indexFile_eq_ok_iff : indexFile b (d, file) = .ok b' ↔
    (decode file.content).toOption.isSome ∧ b' = b.addDocument d file.text := by
  unfold indexFile DocFile.text
  cases decode file.content with
  | error e => simp [bind, Except.bind, Except.mapError, Except.toOption]
  | ok text =>
    simp [bind, Except.bind, Except.mapError, pure, Except.pure, Except.toOption,
      indexWords_occurrences, eq_comm]

/-- To index files is to add their texts. -/
theorem foldlM_indexFile_eq_ok_iff {found : List (DocId × DocFile)} : ∀ {b b' : Builder},
    found.foldlM indexFile b = .ok b' ↔
      (∀ entry ∈ found, (decode entry.2.content).toOption.isSome) ∧
      b' = (documentCalls (found.map fun (d, file) => (d, file.text))).foldl Call.apply b := by
  induction found with
  | nil =>
    intro b b'
    simp only [List.foldlM_nil, List.not_mem_nil, false_implies, implies_true, true_and]
    exact ⟨fun h => (Except.ok.inj h).symm, fun h => congrArg Except.ok h.symm⟩
  | cons entry found ih =>
    intro b b'
    obtain ⟨d, file⟩ := entry
    rw [List.foldlM_cons, List.forall_mem_cons, bind_eq_ok_iff, List.map_cons,
      foldl_documentCalls_cons]
    simp only [indexFile_eq_ok_iff, ih]
    constructor
    · intro h
      obtain ⟨_, ⟨hfile, rfl⟩, hrest, hb⟩ := h
      exact ⟨⟨hfile, hrest⟩, hb⟩
    · intro h
      obtain ⟨⟨hfile, hrest⟩, hb⟩ := h
      exact ⟨_, ⟨hfile, rfl⟩, hrest, hb⟩

theorem loadCorpus_of_readDocuments {files : Files} (h : files.readDocuments dir = .ok m)
    (hreadable : ∀ entry ∈ m.toList, (decode entry.2.content).toOption.isSome) :
    files.loadCorpus order dir = (ofCalls (documentCalls m.texts)).build order := by
  have hrun := foldlM_indexFile_eq_ok_iff (b := {}) |>.mpr ⟨hreadable, rfl⟩
  unfold loadCorpus
  rw [h]
  show (m.toList.foldlM indexFile {} >>= fun b => b.build order) = _
  rw [hrun]
  rfl

/-- Whatever is loaded is an index of texts. -/
theorem loadCorpus_eq_ok {files : Files} {index : Index}
    (h : files.loadCorpus order dir = .ok index) :
    ∃ docs, (ofCalls (documentCalls docs)).build order = .ok index := by
  obtain ⟨m, -, h⟩ := bind_eq_ok_iff.mp h
  obtain ⟨b, hb, hbuild⟩ := bind_eq_ok_iff.mp h
  obtain ⟨-, rfl⟩ := foldlM_indexFile_eq_ok_iff.mp hb
  exact ⟨m.texts, hbuild⟩

end Files

/-! ## Directories -/

/-- The files of a directory hold these texts, each under its name. -/
structure Holds (entries : List (Bytes × Entry)) (texts : List (Bytes × String)) : Prop where
  regularFiles_eq : regularFiles entries = texts.map fun (name, text) => (name, .ok text.toUTF8)
  isFileName : ∀ entry ∈ texts, IsFileName entry.1

/-- Each name is the number of a document, and no two are the same number. -/
structure WellNamed (texts : List (Bytes × String)) : Prop where
  isSome : ∀ entry ∈ texts, entry.1.docId?.isSome
  distinct : (texts.map fun entry => entry.1.docId?).Nodup

theorem wellNamed_iff {texts : List (Bytes × String)} : WellNamed texts ↔
    (∀ entry ∈ texts, entry.1.docId?.isSome) ∧ (texts.map fun entry => entry.1.docId?).Nodup :=
  ⟨fun h => ⟨h.isSome, h.distinct⟩, fun h => ⟨h.1, h.2⟩⟩

instance : DecidablePred WellNamed := fun _ => decidable_of_iff' _ wellNamed_iff

/-- The documents are the texts, each with the number that is its name, in some order. -/
def Numbered (texts : List (Bytes × String)) (docs : List (DocId × String)) : Prop :=
  (docs.map fun (d, text) => (some d, text)).Perm
    (texts.map fun (name, text) => (name.docId?, text))

theorem decode_toUTF8 (text : String) : Files.decode (.ok text.toUTF8) = .ok text := by
  have hread : String.fromUTF8? text.toUTF8 = some text := Bytes.text?_ofText text
  simp only [Files.decode, bind, Except.bind, hread]

namespace Files

variable {texts : List (Bytes × String)} {entries : List (Bytes × Entry)} {found : Files}

def textFile (dir : String) (entry : Bytes × String) : DocFile :=
  docFile dir (entry.1, .ok entry.2.toUTF8)

theorem id?_textFile {entry : Bytes × String} (h : IsFileName entry.1) :
    (textFile dir entry).id? = entry.1.docId? := toOption_docIdOfPath_join h

theorem text_textFile (dir : String) (entry : Bytes × String) :
    (textFile dir entry).text = entry.2 := by
  rw [DocFile.text, textFile, docFile, decode_toUTF8]
  rfl

/-- To read the documents of a directory is to gather its files in the order of their names. -/
theorem readDocuments_eq (hdir : found dir = .ok (.directory entries)) (h : Holds entries texts) :
    ∃ files, files ~ texts.map (textFile dir) ∧
      found.readDocuments dir = files.foldlM addDocFile ∅ := by
  let sorted := (regularFiles entries).mergeSort fun a b => a.1 ≤ b.1
  have hlist : found.list dir = .ok sorted := by
    unfold list
    rw [hdir]
    rfl
  refine ⟨sorted.map (docFile dir), ?_, ?_⟩
  · have hsorted : sorted ~ texts.map fun (name, text) => (name, .ok text.toUTF8) := by
      rw [← h.regularFiles_eq]
      exact List.mergeSort_perm _ _
    have hfiles := hsorted.map (docFile dir)
    rwa [List.map_map] at hfiles
  · unfold readDocuments
    rw [hlist]
    rfl

theorem fresh_empty_iff (hperm : files ~ texts.map (textFile dir))
    (hnames : ∀ entry ∈ texts, IsFileName entry.1) : Fresh ∅ files ↔ WellNamed texts := by
  -- both sides speak of the numbers only, and these are the same up to order
  have hids : files.map DocFile.id? ~ texts.map fun entry => entry.1.docId? := by
    calc files.map DocFile.id?
      _ ~ (texts.map (textFile dir)).map DocFile.id? := hperm.map _
      _ = texts.map fun entry => entry.1.docId? := by
        rw [List.map_map]
        exact List.map_congr_left fun entry hentry => id?_textFile (hnames entry hentry)
  have hsome : (∀ file ∈ files, file.id?.isSome) ↔ ∀ entry ∈ texts, entry.1.docId?.isSome := by
    calc (∀ file ∈ files, file.id?.isSome)
      _ ↔ ∀ id ∈ files.map DocFile.id?, id.isSome := by simp only [List.forall_mem_map]
      _ ↔ ∀ id ∈ texts.map fun entry => entry.1.docId?, id.isSome := by simp only [hids.mem_iff]
      _ ↔ ∀ entry ∈ texts, entry.1.docId?.isSome := by simp only [List.forall_mem_map]
  constructor
  · intro h
    refine ⟨hsome.mp fun file hfile => ?_, hids.nodup_iff.mp h.distinct⟩
    obtain ⟨d, hd, _⟩ := h.numbered file hfile
    rw [hd]
    rfl
  · intro h
    refine ⟨fun file hfile => ?_, hids.nodup_iff.mpr h.distinct⟩
    obtain ⟨d, hd⟩ := Option.isSome_iff_exists.mp (hsome.mpr h.isSome file hfile)
    exact ⟨d, hd, Std.TreeMap.not_mem_emptyc⟩

theorem numbered_readDocuments_perm (hdir : found dir = .ok (.directory entries))
    (h : Holds entries texts) (hread : found.readDocuments dir = .ok m) :
    m.numbered ~ texts.map fun entry => (entry.1.docId?, textFile dir entry) := by
  obtain ⟨files, hperm, hfiles⟩ := readDocuments_eq hdir h
  have hgathered := gather_perm (hfiles ▸ hread)
  calc m.numbered
    _ ~ files.map DocFile.numbered ++ DocFiles.numbered ∅ := hgathered
    _ = files.map DocFile.numbered := List.append_nil _
    _ ~ (texts.map (textFile dir)).map DocFile.numbered := hperm.map _
    _ = texts.map fun entry => (entry.1.docId?, textFile dir entry) := by
      rw [List.map_map]
      refine List.map_congr_left fun entry hentry => ?_
      exact congrArg (·, textFile dir entry) (id?_textFile (h.isFileName entry hentry))

theorem exists_readDocuments_iff (hdir : found dir = .ok (.directory entries))
    (h : Holds entries texts) : (∃ m, found.readDocuments dir = .ok m) ↔ WellNamed texts := by
  obtain ⟨files, hperm, hfiles⟩ := readDocuments_eq hdir h
  rw [hfiles, exists_gather_iff, fresh_empty_iff hperm h.isFileName]

theorem readDocuments_eq_error (hdir : found dir = .ok (.directory entries))
    (h : Holds entries texts) (hread : found.readDocuments dir = .error e) :
    ∃ name, e = .invalidDocId name := by
  obtain ⟨files, -, hfiles⟩ := readDocuments_eq hdir h
  exact gather_eq_error (hfiles ▸ hread)

/-- What is loaded is built from the texts under their numbers. -/
theorem loadCorpus_eq (hdir : found dir = .ok (.directory entries)) (h : Holds entries texts)
    (hread : found.readDocuments dir = .ok m) : Numbered texts m.texts ∧
    found.loadCorpus order dir = (ofCalls (documentCalls m.texts)).build order := by
  have hperm := numbered_readDocuments_perm hdir h hread
  constructor
  · have htexts := hperm.map fun (id, file) => (id, file.text)
    rw [DocFiles.numbered, List.map_map, List.map_map] at htexts
    rw [Numbered, DocFiles.texts, List.map_map]
    simpa [Function.comp_def, text_textFile] using htexts
  · apply loadCorpus_of_readDocuments hread
    intro entry hentry
    have hmem : (some entry.1, entry.2) ∈ m.numbered := List.mem_map_of_mem hentry
    obtain ⟨text, -, he⟩ := List.mem_map.mp (hperm.mem_iff.mp hmem)
    have hcontent : entry.2.content = .ok text.2.toUTF8 :=
      congrArg DocFile.content (congrArg Prod.snd he).symm
    rw [hcontent, decode_toUTF8]
    rfl

end Files

/-! ## The index of a directory -/

section
variable {texts : List (Bytes × String)} {docs docs' : List (DocId × String)}

theorem Numbered.nodup (h : Numbered texts docs) (hw : WellNamed texts) :
    (docs.map (·.1)).Nodup := by
  have hids : (docs.map (·.1)).map some ~ texts.map fun entry => entry.1.docId? := by
    have hfst := h.map Prod.fst
    rw [List.map_map, List.map_map] at hfst
    rw [List.map_map]
    exact hfst
  exact List.Nodup.of_map some (hids.nodup_iff.mpr hw.distinct)

theorem Numbered.perm (h : Numbered texts docs) (h' : Numbered texts docs') : docs ~ docs' := by
  have hinj : Function.Injective fun (entry : DocId × String) => (some entry.1, entry.2) := by
    intro entry entry' he
    simpa [Prod.ext_iff] using he
  exact (List.map_perm_map_iff hinj).mp (h.trans h'.symm)

theorem Numbered.exists_mem (h : Numbered texts docs) {name : Bytes} {text : String}
    (hentry : (name, text) ∈ texts) : ∃ d, name.docId? = some d ∧ (d, text) ∈ docs := by
  have hmem : (name.docId?, text) ∈ docs.map fun (d, text) => (some d, text) := by
    rw [h.mem_iff]
    exact List.mem_map.mpr ⟨(name, text), hentry, rfl⟩
  obtain ⟨⟨d, text'⟩, hdoc, he⟩ := List.mem_map.mp hmem
  obtain ⟨hd, htext⟩ := Prod.mk.inj he
  exact ⟨d, hd.symm, htext ▸ hdoc⟩

theorem Numbered.eq_nil_iff (h : Numbered texts docs) : docs = [] ↔ texts = [] := by
  rw [← List.length_eq_zero_iff, ← List.length_eq_zero_iff]
  have hlength := h.length_eq
  rw [List.length_map, List.length_map] at hlength
  rw [hlength]

end

/-- A directory whose files hold some texts is refused for the name of one of them, unless the names
are the numbers of as many documents. Then every file is read as the document of its number. The
directory has no index if it has no files. Otherwise its index is built from the texts under their
numbers, in any order, and what it holds of each document is its text. In which order the entries
of tables are visited makes no difference. -/
theorem Files.loadCorpus_of_holds {files : Files} {dir : String} {entries : List (Bytes × Entry)}
    {texts : List (Bytes × String)} (hdir : files dir = .ok (.directory entries))
    (h : Holds entries texts) :
    (¬WellNamed texts → ∃ name, files.readDocuments dir = .error (.invalidDocId name) ∧
      ∀ order, files.loadCorpus order dir = .error (.invalidDocId name)) ∧
    (WellNamed texts → ∃ m, files.readDocuments dir = .ok m ∧
      (m.toList.map fun (d, file) => (some d, file)).Perm
        (texts.map fun (name, text) => (name.docId?, ⟨join dir name, .ok text.toUTF8⟩)) ∧
      (texts = [] → ∀ order, files.loadCorpus order dir = .error .emptyCorpus) ∧
      (texts ≠ [] → ∃ index, (∀ order, files.loadCorpus order dir = .ok index) ∧
        (∃ docs, Numbered texts docs) ∧
        (∀ docs order, Numbered texts docs →
          (ofCalls (documentCalls docs)).build order = .ok index) ∧
        ∀ name text, (name, text) ∈ texts → ∃ d, name.docId? = some d ∧
          index.docLength? d = some (Builder.lengthOf text) ∧
          ∀ term p, Listed (index.postings term) d p ↔ ⟨term, p⟩ ∈ occurrences text)) := by
  constructor
  · intro hw
    cases hread : files.readDocuments dir with
    | ok m => exact absurd ((exists_readDocuments_iff hdir h).mp ⟨m, hread⟩) hw
    | error e =>
      obtain ⟨name, rfl⟩ := readDocuments_eq_error hdir h hread
      exact ⟨name, rfl, fun _ => bind_eq_error_iff.mpr (.inl hread)⟩
  · intro hw
    obtain ⟨m, hread⟩ := (exists_readDocuments_iff hdir h).mpr hw
    have hload : ∀ order, Numbered texts m.texts ∧
        files.loadCorpus order dir = (ofCalls (documentCalls m.texts)).build order :=
      fun order => loadCorpus_eq hdir h hread
    have hnumbered := (hload .byTerm).1
    refine ⟨m, hread, numbered_readDocuments_perm hdir h hread, ?_, ?_⟩
    · intro hnil order
      rw [(hload order).2, hnumbered.eq_nil_iff.mpr hnil]
      exact build_documentCalls_nil
    · intro hne
      have hids := hnumbered.nodup hw
      have hdocs : m.texts ≠ [] := fun hnil => hne (hnumbered.eq_nil_iff.mp hnil)
      obtain ⟨index, hbuild⟩ :=
        Builder.exists_build_ofCalls (not_silent_documentCalls hdocs) .byTerm
      -- the lengths are registered, so that no order of the table matters
      have hbuilt : ∀ docs order, Numbered texts docs →
          (ofCalls (documentCalls docs)).build order = .ok index := fun docs order hdocs =>
        (build_documentCalls_perm (hdocs.perm hnumbered) hids order .byTerm).trans hbuild
      refine ⟨index, fun order => (hload order).2.trans (hbuilt _ order hnumbered),
        ⟨_, hnumbered⟩, hbuilt, ?_⟩
      · intro name text hentry
        obtain ⟨d, hd, hdoc⟩ := hnumbered.exists_mem hentry
        exact ⟨d, hd, docLength?_documentCalls hids hbuild hdoc,
          fun term p => listed_document_iff hids hbuild hdoc⟩

/-- Some texts beside a directory that is passed over. -/
def entriesOf (texts : List (Bytes × String)) : List (Bytes × Entry) :=
  (.ofText "nested", .directory []) :: texts.map fun (name, text) => (name, .file (.ok text.toUTF8))

theorem holds_entriesOf {texts : List (Bytes × String)}
    (h : ∀ entry ∈ texts, IsFileName entry.1) : Holds (entriesOf texts) texts := by
  refine ⟨?_, h⟩
  rw [regularFiles, entriesOf, List.filterMap_cons_none rfl, List.filterMap_map,
    ← List.filterMap_eq_map]
  rfl

def catFiles : List (Bytes × String) :=
  [(.ofText "7", "The cat sat."), (.ofText "+12", "a cat")]

/-- With a third name, which is one of the numbers again. -/
def catFilesAgain : List (Bytes × String) := (.ofText "007", "") :: catFiles

theorem Files.loadCorpus_of_holds_cat :
    let corpus (texts : List (Bytes × String)) : Files :=
      fun _ => .ok (.directory (entriesOf texts))
    (∃ index, index.docLength? 7 = some 3 ∧ ∀ order,
      (corpus catFiles).loadCorpus order "corpus" = .ok index ∧
      (ofCalls (documentCalls [(12, "a cat"), (7, "The cat sat.")])).build order = .ok index) ∧
    ∃ name, ∀ order,
      (corpus catFilesAgain).loadCorpus order "corpus" = .error (.invalidDocId name) := by
  intro corpus
  have hdir : ∀ texts, corpus texts "corpus" = .ok (.directory (entriesOf texts)) := fun _ => rfl
  constructor
  · have hholds : Holds (entriesOf catFiles) catFiles := holds_entriesOf (by decide)
    obtain ⟨-, hload⟩ := Files.loadCorpus_of_holds (hdir catFiles) hholds
    obtain ⟨m, -, -, -, hindex⟩ := hload (by decide)
    obtain ⟨index, hload, -, hbuild, hholds⟩ := hindex (by decide)
    obtain ⟨d, hd, hlength, -⟩ := hholds (.ofText "7") "The cat sat." (by decide)
    have hseven : 7 = d :=
      Option.some.inj ((show (Bytes.ofText "7").docId? = some 7 by decide).symm.trans hd)
    refine ⟨index, ?_, fun order => ⟨hload order, hbuild _ order ?_⟩⟩
    · rw [hseven, hlength]
      decide +kernel
    · show [(some 12, "a cat"), (some 7, "The cat sat.")].Perm
        [((Bytes.ofText "7").docId?, "The cat sat."), ((Bytes.ofText "+12").docId?, "a cat")]
      decide
  · have hholds : Holds (entriesOf catFilesAgain) catFilesAgain := holds_entriesOf (by decide)
    obtain ⟨hrefuse, -⟩ := Files.loadCorpus_of_holds (hdir catFilesAgain) hholds
    obtain ⟨name, -, hload⟩ := hrefuse (by decide)
    exact ⟨name, hload⟩

end Concordance
