import Concordance.Proofs.Spelling.Distance
/-!
Scripts of edits. The edit distance of two words is the length of a shortest script of insertions,
deletions and substitutions of single characters that turns the first word into the second
(`editDistance_shortest`). A script of that length is put together along the recursion of `cost`
(`turns_cost`); none is shorter, because one edit changes the cost against any third word by one at
most (`Edited.cost_le`), and so a run of edits by no more than its length (`Turns.cost_le`).
-/
namespace Concordance

/-! ## Edits -/

/-- An edit of one character at a place in a word. -/
inductive Edit where
  | insert (place : Nat) (c : Char)
  | delete (place : Nat)
  | substitute (place : Nat) (c : Char)
  deriving DecidableEq, Repr

/-- What an edit makes of a word. A word without the place cannot be edited there. -/
def Edit.run? : Edit → List Char → Option (List Char)
  | insert place c, word =>
    if place ≤ word.length then some (word.take place ++ c :: word.drop place) else none
  | delete place, word =>
    if place < word.length then some (word.take place ++ word.drop (place + 1)) else none
  | substitute place c, word =>
    if place < word.length then some (word.take place ++ c :: word.drop (place + 1)) else none

/-- Edits, the first one first. -/
abbrev Script := List Edit

/-- What a script makes of a word. -/
def Script.run? (script : Script) (word : List Char) : Option (List Char) :=
  script.foldlM (fun word edit => edit.run? word) word

/-- The second word is the first one after one edit. -/
inductive Edited : List Char → List Char → Prop
  | insert (front back : List Char) (c : Char) : Edited (front ++ back) (front ++ c :: back)
  | delete (front back : List Char) (c : Char) : Edited (front ++ c :: back) (front ++ back)
  | substitute (front back : List Char) (c d : Char) :
    Edited (front ++ c :: back) (front ++ d :: back)

theorem edited_iff {word next : List Char} :
    Edited word next ↔ ∃ edit : Edit, edit.run? word = some next := by
  constructor
  · intro h
    cases h with
    | insert front back c => exact ⟨.insert front.length c, by simp [Edit.run?]⟩
    | delete front back c => exact ⟨.delete front.length, by simp [Edit.run?]⟩
    | substitute front back c d => exact ⟨.substitute front.length d, by simp [Edit.run?]⟩
  · rintro ⟨edit, h⟩
    -- the place of the edit splits the word
    cases edit with
    | insert place c =>
      obtain ⟨_, he⟩ := Option.ite_none_right_eq_some.mp h
      obtain rfl := Option.some.inj he
      have hedited := Edited.insert (word.take place) (word.drop place) c
      rwa [List.take_append_drop] at hedited
    | delete place =>
      obtain ⟨hplace, he⟩ := Option.ite_none_right_eq_some.mp h
      obtain rfl := Option.some.inj he
      have hedited := Edited.delete (word.take place) (word.drop (place + 1)) word[place]
      rwa [← List.drop_eq_getElem_cons hplace, List.take_append_drop] at hedited
    | substitute place d =>
      obtain ⟨hplace, he⟩ := Option.ite_none_right_eq_some.mp h
      obtain rfl := Option.some.inj he
      have hedited := Edited.substitute (word.take place) (word.drop (place + 1)) word[place] d
      rwa [← List.drop_eq_getElem_cons hplace, List.take_append_drop] at hedited

namespace Edited
variable {word next : List Char}

theorem cons (c : Char) (h : Edited word next) : Edited (c :: word) (c :: next) := by
  cases h with
  | insert front back d => exact insert (c :: front) back d
  | delete front back d => exact delete (c :: front) back d
  | substitute front back d e => exact substitute (c :: front) back d e

theorem reverse (h : Edited word next) : Edited word.reverse next.reverse := by
  cases h with
  | insert front back c =>
    simpa using insert back.reverse front.reverse c
  | delete front back c =>
    simpa using delete back.reverse front.reverse c
  | substitute front back c d =>
    simpa using substitute back.reverse front.reverse c d

end Edited

/-! ## Scripts -/

/-- Some script of `n` edits turns the first word into the second. -/
def Turns (n : Nat) (source target : List Char) : Prop :=
  ∃ script : Script, script.length = n ∧ script.run? source = some target

theorem turns_zero_iff {source target : List Char} : Turns 0 source target ↔ source = target := by
  constructor
  · rintro ⟨script, hlength, h⟩
    obtain rfl := List.length_eq_zero_iff.mp hlength
    exact Option.some.inj h
  · rintro rfl
    exact ⟨[], rfl, rfl⟩

theorem turns_succ_iff {n : Nat} {source target : List Char} :
    Turns (n + 1) source target ↔ ∃ word, Edited source word ∧ Turns n word target := by
  constructor
  · rintro ⟨script, hlength, h⟩
    obtain ⟨edit, rest, rfl⟩ := List.exists_cons_of_length_eq_add_one hlength
    rw [Script.run?, List.foldlM_cons] at h
    obtain ⟨word, hword, hrest⟩ := Option.bind_eq_some_iff.mp h
    exact ⟨word, edited_iff.mpr ⟨edit, hword⟩, rest, Nat.succ.inj hlength, hrest⟩
  · rintro ⟨word, hedited, rest, rfl, hrest⟩
    obtain ⟨edit, hword⟩ := edited_iff.mp hedited
    refine ⟨edit :: rest, rfl, ?_⟩
    rw [Script.run?, List.foldlM_cons]
    exact Option.bind_eq_some_iff.mpr ⟨word, hword, hrest⟩

namespace Turns
variable {m n : Nat} {source target : List Char}

/-- What can be done around each edit can be done around a script. -/
theorem map {f : List Char → List Char} (hf : ∀ word next, Edited word next →
    Edited (f word) (f next)) (h : Turns n source target) : Turns n (f source) (f target) := by
  induction n generalizing source with
  | zero => rw [turns_zero_iff.mp h, turns_zero_iff]
  | succ n ih =>
    obtain ⟨word, hedited, hrest⟩ := turns_succ_iff.mp h
    exact turns_succ_iff.mpr ⟨f word, hf _ _ hedited, ih hrest⟩

theorem cons (c : Char) (h : Turns n source target) : Turns n (c :: source) (c :: target) :=
  h.map fun _ _ => Edited.cons c

theorem reverse (h : Turns n source target) : Turns n source.reverse target.reverse :=
  h.map fun _ _ => Edited.reverse

theorem shorter (hm : Turns m source target) (hn : Turns n source target) :
    Turns (min m n) source target := by
  rw [Nat.min_def]
  split
  · exact hm
  · exact hn

end Turns

theorem turns_nil_left (target : List Char) : Turns target.length [] target := by
  induction target with
  | nil => exact turns_zero_iff.mpr rfl
  | cons d target ih => exact turns_succ_iff.mpr ⟨[d], .insert [] [] d, ih.cons d⟩

theorem turns_nil_right (source : List Char) : Turns source.length source [] := by
  induction source with
  | nil => exact turns_zero_iff.mpr rfl
  | cons c source ih => exact turns_succ_iff.mpr ⟨source, .delete [] source c, ih⟩

/-- The heads that `cost` looks at are deleted, inserted or substituted, then the rest is turned. -/
theorem turns_cost (source target : List Char) : Turns (cost source target) source target := by
  fun_induction cost source target with
  | case1 target => exact turns_nil_left target
  | case2 source => exact turns_nil_right source
  | case3 c source d target ihDelete ihInsert ihReplace =>
    have hdelete : Turns (cost source (d :: target) + 1) (c :: source) (d :: target) :=
      turns_succ_iff.mpr ⟨source, .delete [] source c, ihDelete⟩
    have hinsert : Turns (cost (c :: source) target + 1) (c :: source) (d :: target) :=
      turns_succ_iff.mpr ⟨d :: c :: source, .insert [] (c :: source) d, ihInsert.cons d⟩
    have hsubstitute : Turns (cost source target + if c = d then 0 else 1) (c :: source)
        (d :: target) := by
      split
      · next h => exact h ▸ ihReplace.cons c
      · exact turns_succ_iff.mpr ⟨d :: source, .substitute [] source c d, ihReplace.cons d⟩
    exact (hdelete.shorter hinsert).shorter hsubstitute

/-! ## No shorter script -/

section
variable (c d : Char) (source target : List Char)

theorem cost_cons_le : cost (c :: source) target ≤ cost source target + 1 := by
  cases target with
  | nil => simp [cost_nil_right]
  | cons e target =>
    rw [cost_cons_cons]
    omega

theorem cost_le_cons_right : cost source (d :: target) ≤ cost source target + 1 := by
  rw [cost_comm source, cost_comm source]
  exact cost_cons_le d target source

theorem cost_le_cons : cost source target ≤ cost (c :: source) target + 1 := by
  induction target with
  | nil =>
    rw [cost_nil_right, cost_nil_right, List.length_cons]
    omega
  | cons e target ih =>
    have hinsert := cost_le_cons_right e source target
    rw [cost_cons_cons]
    omega

theorem cost_cons_le_cons : cost (c :: source) target ≤ cost (d :: source) target + 1 := by
  induction target with
  | nil => simp [cost_nil_right]
  | cons e target ih =>
    rw [cost_cons_cons, cost_cons_cons]
    split <;> split <;> omega

end

/-- Behind a common front, too, the costs stay as close as they are. -/
theorem cost_append_le {word next : List Char}
    (h : ∀ target, cost word target ≤ cost next target + 1) (front target : List Char) :
    cost (front ++ word) target ≤ cost (front ++ next) target + 1 := by
  induction front generalizing target with
  | nil => exact h target
  | cons c front ih =>
    induction target with
    | nil =>
      have hlengths := h []
      simp only [cost_nil_right, List.length_append] at hlengths ⊢
      omega
    | cons d target ihTarget =>
      have hdelete := ih (d :: target)
      have hrest := ih target
      rw [List.cons_append, List.cons_append, cost_cons_cons, cost_cons_cons]
      rw [List.cons_append, List.cons_append] at ihTarget
      omega

theorem Edited.cost_le {word next : List Char} (h : Edited word next) (target : List Char) :
    cost word target ≤ cost next target + 1 := by
  cases h with
  | insert front back c => exact cost_append_le (cost_le_cons c back) front target
  | delete front back c => exact cost_append_le (cost_cons_le c back) front target
  | substitute front back c d => exact cost_append_le (cost_cons_le_cons c d back) front target

theorem Turns.cost_le {n : Nat} {source target : List Char} (h : Turns n source target) :
    cost source target ≤ n := by
  induction n generalizing source with
  | zero => exact Nat.le_of_eq (cost_eq_zero_iff.mpr (turns_zero_iff.mp h))
  | succ n ih =>
    obtain ⟨word, hedited, hrest⟩ := turns_succ_iff.mp h
    exact Nat.le_trans (hedited.cost_le target) (Nat.succ_le_succ (ih hrest))

/-! ## The shortest script -/

theorem turns_distance (source target : List Char) :
    Turns (distance source target) source target := by
  have h := (turns_cost source.reverse target.reverse).reverse
  rwa [List.reverse_reverse, List.reverse_reverse, ← distance_eq_cost] at h

theorem Turns.distance_le {n : Nat} {source target : List Char} (h : Turns n source target) :
    distance source target ≤ n := by
  rw [distance_eq_cost]
  exact h.reverse.cost_le

/-- The edit distance is the length of a shortest script that turns the first word into the second:
one has this length, and none is shorter. -/
theorem editDistance_shortest (source target : String) :
    (∃ script : Script, script.length = editDistance source target ∧
      script.run? source.toList = some target.toList) ∧
    ∀ script : Script, script.run? source.toList = some target.toList →
      editDistance source target ≤ script.length := by
  constructor
  · exact turns_distance source.toList target.toList
  · intro script h
    exact Turns.distance_le ⟨script, rfl, h⟩

/-- Two characters are substituted, and one comes in at the end. -/
def kittenScript : Script := [.substitute 0 's', .substitute 4 'i', .insert 6 'g']

theorem editDistance_shortest_kitten :
    kittenScript.run? "kitten".toList = some "sitting".toList ∧
    editDistance "kitten" "sitting" ≤ kittenScript.length ∧
    ∃ script : Script, script.length = editDistance "kitten" "sitting" ∧
      script.run? "kitten".toList = some "sitting".toList := by
  have hscript : kittenScript.run? "kitten".toList = some "sitting".toList := by decide +kernel
  obtain ⟨hexists, hleast⟩ := editDistance_shortest "kitten" "sitting"
  exact ⟨hscript, hleast kittenScript hscript, hexists⟩

end Concordance
