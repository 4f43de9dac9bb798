import Concordance.Corpus.Load
import Concordance.Proofs.Text.Words
/-!
The names of documents. The path of a file in a directory ends in the name of the file
(`exists_join_eq`), so that the number of a path is that of the name (`docIdOfPath_join`).
-/
namespace Concordance

variable {name : Bytes} {dir : String} {d : DocId}

namespace Bytes

theorem text?_ofText (text : String) : (ofText text).text? = some text := by
  unfold text? String.fromUTF8?
  exact dif_pos text.isValidUTF8

@[simp] theorem shown_ofText (text : String) : (ofText text).shown = text := by
  rw [shown, text?_ofText, Option.getD_some]

def docId? (name : Bytes) : Option DocId := name.text?.bind Concordance.docId?

end Bytes

example : docId? "7" = some 7 ∧ docId? "007" = some 7 ∧ docId? "+7" = some 7 ∧
    docId? "7.txt" = none := by decide

/-- What the name of a file can be. -/
structure IsFileName (name : Bytes) : Prop where
  moves : staysPut name = false
  inside : leadsOut name = false
  no_slash : slash ∉ name

theorem isFileName_iff :
    IsFileName name ↔ staysPut name = false ∧ leadsOut name = false ∧ slash ∉ name :=
  ⟨fun h => ⟨h.moves, h.inside, h.no_slash⟩, fun ⟨hm, hi, hs⟩ => ⟨hm, hi, hs⟩⟩

instance : DecidablePred IsFileName := fun _ => decidable_of_iff' _ isFileName_iff

theorem Files.exists_join_eq (dir : String) (name : Bytes) :
    ∃ above, join dir name = above ++ slash :: name := by
  unfold join
  simp only
  split
  · next h =>
    obtain ⟨above, habove⟩ := List.getLast?_eq_some_iff.mp h
    exact ⟨above, by rw [habove, List.append_assoc, List.singleton_append]⟩
  · exact ⟨_, rfl⟩

theorem fileName?_join (h : IsFileName name) : fileName? (Files.join dir name) = some name := by
  obtain ⟨above, hpath⟩ := Files.exists_join_eq dir name
  have hname : pieces (· == slash) name = [name] := by
    apply pieces_of_not_cut
    intro b hb
    exact beq_false_of_ne fun he => h.no_slash (he ▸ hb)
  have hparts : pathParts (Files.join dir name) = pieces (· == slash) above ++ [name] := by
    rw [pathParts, hpath, pieces_append (by decide), hname]
  rw [fileName?, hparts, List.filter_append, List.filter_cons_of_pos (by simp [h.moves])]
  simp [h.inside]

theorem toOption_docIdOfPath_join (h : IsFileName name) :
    (docIdOfPath (Files.join dir name)).toOption = name.docId? := by
  unfold docIdOfPath Bytes.docId?
  rw [fileName?_join h, Option.bind_some]
  cases name.text? with
  | none => rfl
  | some text =>
    rw [Option.bind_some]
    cases hd : docId? text <;> simp [hd, Except.toOption]

theorem docIdOfPath_eq_error {path : Bytes} {e : Error} (h : docIdOfPath path = .error e) :
    ∃ name, e = .invalidDocId name := by
  unfold docIdOfPath at h
  split at h
  · exact ⟨_, (Except.error.inj h).symm⟩
  · split at h
    · cases h
    · exact ⟨_, (Except.error.inj h).symm⟩

end Concordance
