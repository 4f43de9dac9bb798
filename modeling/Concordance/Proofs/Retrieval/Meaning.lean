import Concordance.Retrieval.Boolean
import Concordance.Proofs.Index.Lookup
import Concordance.Proofs.Index.Window
/-!
Evaluation computes the meaning of a query. `Satisfies` says, document by document, what a node
asks for; `evaluate_meaning` says that `evaluate` lists exactly the documents of the index that
satisfy all nodes, in ascending order, and that neither the order of the nodes nor the stop at an
empty list of documents changes the answer.

Every merge is right only for ascending lists of documents of the index, so each step carries three
facts together, gathered in `Answers`: the order, the membership in the index, and the meaning.
-/
namespace Concordance

open Query (Leaf Node)

namespace Index
variable (index : Index) (settings : Settings) (d : DocId)

/-! ## Meaning -/

def flipped (negated : Bool) (p : Prop) : Prop := if negated then ¬p else p

mutual

/-- Whether a document satisfies a node. -/
def Satisfies : Node → Prop
  | .leaf negated leaf => flipped negated (d ∈ index.leafDocs settings leaf)
  | .or negated operands => flipped negated (SatisfiesSome operands)
  | .group negated children => flipped negated (children ≠ [] ∧ SatisfiesEvery children)

/-- Whether a document satisfies some node of a list. -/
def SatisfiesSome : List Node → Prop
  | [] => False
  | node :: nodes => Satisfies node ∨ SatisfiesSome nodes

/-- Whether a document satisfies every node of a list. -/
def SatisfiesEvery : List Node → Prop
  | [] => True
  | node :: nodes => Satisfies node ∧ SatisfiesEvery nodes

end

/-- Whether a document satisfies a query. No document satisfies the empty one. -/
def SatisfiesQuery (nodes : List Node) : Prop :=
  nodes ≠ [] ∧ index.SatisfiesEvery settings d nodes

variable {index settings d}

theorem satisfiesEvery_iff : ∀ {nodes : List Node},
    index.SatisfiesEvery settings d nodes ↔ ∀ node ∈ nodes, index.Satisfies settings d node
  | [] => by simp [SatisfiesEvery]
  | node :: nodes => by
    rw [SatisfiesEvery, satisfiesEvery_iff, List.forall_mem_cons]

theorem satisfiesQuery_perm {nodes others : List Node} (h : others.Perm nodes) :
    index.SatisfiesQuery settings d others ↔ index.SatisfiesQuery settings d nodes := by
  have hnil : others = [] ↔ nodes = [] :=
    ⟨fun e => List.Perm.nil_eq (e ▸ h) ▸ rfl, fun e => List.Perm.eq_nil (e ▸ h)⟩
  rw [SatisfiesQuery, SatisfiesQuery, Ne, hnil, satisfiesEvery_iff, satisfiesEvery_iff]
  simp only [h.mem_iff]

/-! ## Answers -/

/-- The documents of the index for which the condition holds, in ascending order. -/
structure Answers (index : Index) (ds : List DocId) (p : DocId → Prop) : Prop where
  lists : index.Lists ds
  mem_iff : ∀ d ∈ index.docIds, d ∈ ds ↔ p d

namespace Answers
variable {ds es : List DocId} {p q : DocId → Prop}

theorem congr (h : index.Answers ds p) (hpq : ∀ d ∈ index.docIds, p d ↔ q d) :
    index.Answers ds q :=
  ⟨h.lists, fun d hd => (h.mem_iff d hd).trans (hpq d hd)⟩

/-- A condition has one answer. -/
theorem unique (h : index.Answers ds p) (h' : index.Answers es p) : ds = es := by
  apply h.lists.ascending.ext h'.lists.ascending
  intro d
  constructor
  · intro hd
    have hu := h.lists.subset d hd
    exact (h'.mem_iff d hu).mpr ((h.mem_iff d hu).mp hd)
  · intro hd
    have hu := h'.lists.subset d hd
    exact (h.mem_iff d hu).mpr ((h'.mem_iff d hu).mp hd)

theorem nil (h : ∀ d ∈ index.docIds, ¬p d) : index.Answers [] p :=
  ⟨Lists.nil,
    fun d hd => ⟨fun hm => absurd hm List.not_mem_nil, fun hp => absurd hp (h d hd)⟩⟩

theorem inter (h : index.Answers ds p) (h' : index.Answers es q) :
    index.Answers (DocSet.inter ds es) (fun d => p d ∧ q d) := by
  refine ⟨h.lists.sublist (DocSet.inter_sublist ds es), fun d hd => ?_⟩
  rw [DocSet.mem_inter h.lists.ascending h'.lists.ascending, h.mem_iff d hd, h'.mem_iff d hd]

theorem signed (hi : index.Sound) (h : index.Answers ds p) (negated : Bool) :
    index.Answers (index.signed negated ds) (fun d => flipped negated (p d)) := by
  cases negated with
  | false => exact h
  | true =>
    -- the opposite holds of the documents of the index that are left
    refine ⟨hi.docIds.sublist (DocSet.diff_sublist index.docIds ds), fun d hd => ?_⟩
    have hm := DocSet.mem_diff (d := d) hi.docIds_ascending h.lists.ascending
    simp only [Index.signed, flipped, if_true, hm, h.mem_iff d hd, hd, true_and]

end Answers

/-! ## Leaves -/

theorem lookup_lists (hi : index.Sound) (term : Term) :
    index.Lists (index.lookup settings term) := by
  simp only [lookup]
  split
  · exact hi.docs term
  · exact hi.resolve _ _ _

/-- A phrase of several words is found among the documents of its first word. -/
theorem phrasePostings_sublist (term next : Term) (rest : List Term) :
    (docsOf (index.phrasePostings (term :: next :: rest))).Sublist (index.docs term) :=
  docsOf_nearPostings_sublist _ _ _ _

theorem leafDocs_lists (hi : index.Sound) (leaf : Leaf) :
    index.Lists (index.leafDocs settings leaf) := by
  cases leaf with
  | term word => exact lookup_lists hi word
  | proximity left right distance =>
    exact (hi.docs left).sublist (docsOf_nearPostings_sublist _ _ _ _)
  | phrase words =>
    match words with
    | [] => exact Lists.nil
    | [word] => exact lookup_lists hi word
    | word :: next :: rest => exact (hi.docs word).sublist (phrasePostings_sublist word next rest)

/-! ## Nodes -/

mutual

theorem nodeDocs_answers (hi : index.Sound) : ∀ node : Node,
    index.Answers (index.nodeDocs settings node) (fun d => index.Satisfies settings d node)
  | .leaf negated leaf => by
    have h : index.Answers (index.leafDocs settings leaf)
        (fun d => d ∈ index.leafDocs settings leaf) :=
      ⟨leafDocs_lists hi leaf, fun _ _ => Iff.rfl⟩
    simpa only [nodeDocs, Satisfies] using h.signed hi negated
  | .or negated operands => by
    have h : index.Answers (DocSet.unionAll (index.operandDocs settings operands))
        (fun d => index.SatisfiesSome settings d operands) := by
      obtain ⟨hlists, hmem⟩ := operandDocs_answers hi operands
      exact ⟨Lists.unionAll hlists, fun d hd => DocSet.mem_unionAll.trans (hmem d hd)⟩
    simpa only [nodeDocs, Satisfies] using h.signed hi negated
  | .group negated children => by
    simpa only [nodeDocs, Satisfies] using (evaluate_answers hi children).signed hi negated

theorem operandDocs_answers (hi : index.Sound) : ∀ nodes : List Node,
    (∀ s ∈ index.operandDocs settings nodes, index.Lists s) ∧
      ∀ d ∈ index.docIds, (∃ s ∈ index.operandDocs settings nodes, d ∈ s) ↔
        index.SatisfiesSome settings d nodes
  | [] => by simp [operandDocs, SatisfiesSome]
  | node :: nodes => by
    have hn := nodeDocs_answers hi node
    obtain ⟨hlists, hmem⟩ := operandDocs_answers hi nodes
    simp only [operandDocs, SatisfiesSome]
    refine ⟨List.forall_mem_cons.mpr ⟨hn.lists, hlists⟩, fun d hd => ?_⟩
    rw [← hmem d hd, ← hn.mem_iff d hd]
    simp

theorem evaluate_answers (hi : index.Sound) : ∀ nodes : List Node,
    index.Answers (index.evaluate settings nodes)
      (fun d => nodes ≠ [] ∧ index.SatisfiesEvery settings d nodes)
  | [] => by
    rw [evaluate]
    exact Answers.nil (by simp)
  | node :: nodes => by
    rw [evaluate]
    apply (restrict_answers hi (nodeDocs_answers hi node) nodes).congr
    intro d _
    simp [SatisfiesEvery]

theorem restrict_answers (hi : index.Sound) {docs : List DocId} {p : DocId → Prop}
    (h : index.Answers docs p) : ∀ nodes : List Node,
    index.Answers (index.restrict settings docs nodes)
      (fun d => p d ∧ index.SatisfiesEvery settings d nodes)
  | [] => by
    rw [restrict]
    exact h.congr (by simp [SatisfiesEvery])
  | node :: nodes => by
    rw [restrict]
    split
    · -- the early exit: where no document is left, none satisfies what has been read
      next he =>
      rw [List.isEmpty_iff] at he
      subst he
      exact Answers.nil fun d hd hp => List.not_mem_nil ((h.mem_iff d hd).mpr hp.1)
    · have hn := nodeDocs_answers hi node
      apply (restrict_answers hi (h.inter hn) nodes).congr
      intro d _
      rw [SatisfiesEvery, and_assoc]

end

/-! ## Queries -/

/-- The documents in all sets of a list, each set merged in turn. -/
def interAll : List (List DocId) → List DocId
  | [] => []
  | ds :: sets => sets.foldl DocSet.inter ds

theorem inter_nil_left (ds : List DocId) : DocSet.inter [] ds = [] := by
  rw [DocSet.inter]

theorem foldl_inter_nil (sets : List (List DocId)) : sets.foldl DocSet.inter [] = [] := by
  induction sets with
  | nil => rfl
  | cons ds sets ih => rw [List.foldl_cons, inter_nil_left, ih]

theorem restrict_eq_foldl (docs : List DocId) : ∀ nodes : List Node,
    index.restrict settings docs nodes =
      (index.operandDocs settings nodes).foldl DocSet.inter docs
  | [] => by rw [restrict, operandDocs, List.foldl_nil]
  | node :: nodes => by
    rw [restrict, operandDocs, List.foldl_cons]
    split
    · next he =>
      rw [List.isEmpty_iff] at he
      rw [he, inter_nil_left, foldl_inter_nil]
    · exact restrict_eq_foldl _ nodes

/-- Stopping at an empty list of documents gives what going on gives. -/
theorem evaluate_eq_interAll (nodes : List Node) :
    index.evaluate settings nodes = interAll (index.operandDocs settings nodes) := by
  cases nodes with
  | nil => rw [evaluate, operandDocs, interAll]
  | cons node nodes => rw [evaluate, operandDocs, interAll, restrict_eq_foldl]

/-- The answer to a query is the list of the documents of the index that satisfy it, in ascending
order. It depends on nothing but the meaning of the query: two queries that the same documents
satisfy have one answer, a query has it in any order of its nodes, and the stop at an empty list of
documents leaves it as it is. -/
theorem evaluate_meaning {order : TableOrder} (calls : List Builder.Call)
    (h : (Builder.ofCalls calls).build order = .ok index) (nodes : List Node) :
    Ascending (index.evaluate settings nodes) ∧
    (∀ d ∈ index.evaluate settings nodes, d ∈ index.docIds) ∧
    (∀ d ∈ index.docIds,
      d ∈ index.evaluate settings nodes ↔ index.SatisfiesQuery settings d nodes) ∧
    (∀ others, (∀ d ∈ index.docIds, index.SatisfiesQuery settings d others ↔
        index.SatisfiesQuery settings d nodes) →
      index.evaluate settings others = index.evaluate settings nodes) ∧
    (∀ others, others.Perm nodes →
      index.evaluate settings others = index.evaluate settings nodes) ∧
    index.evaluate settings nodes = interAll (index.operandDocs settings nodes) := by
  have hi := Builder.build_sound h
  have ha : index.Answers (index.evaluate settings nodes)
      (index.SatisfiesQuery settings · nodes) := evaluate_answers hi nodes
  have same : ∀ others, (∀ d ∈ index.docIds, index.SatisfiesQuery settings d others ↔
      index.SatisfiesQuery settings d nodes) →
      index.evaluate settings others = index.evaluate settings nodes :=
    fun others hsame => ((evaluate_answers hi others).congr hsame).unique ha
  exact ⟨ha.lists.ascending, ha.lists.subset, ha.mem_iff, same,
    fun others hp => same others fun _ _ => satisfiesQuery_perm hp, evaluate_eq_interAll nodes⟩

/-- Two short documents, one place of a third, and a document without words. -/
def catCalls : List Builder.Call :=
  [.addDocument 1 "the cat sat", .add "cat" 3 7, .addDocument 2 "the cat ran", .setLength 4 0]

/-- A misspelt word, a negated `or` over a phrase and an empty group, and a negated proximity. -/
def caatNodes : List Node :=
  [.leaf false (.term "caat"), .or true [.leaf false (.phrase ["cat", "sat"]), .group false []],
    .leaf true (.proximity "ran" "the" 2)]

/-- Of the three documents with a cat, one has the phrase and one the two words near each other. -/
theorem evaluate_meaning_caat : ∃ index, (Builder.ofCalls catCalls).build .byTerm = .ok index ∧
    index.evaluate {} caatNodes = [3] ∧
    ∀ d ∈ index.docIds, d ∈ index.evaluate {} caatNodes ↔ index.SatisfiesQuery {} d caatNodes := by
  have hknown : (Builder.ofCalls catCalls).lengthTable .byTerm ≠ [] := by decide +kernel
  have hbuild := Builder.build_of_ne_nil hknown
  exact ⟨_, hbuild, by decide +kernel, (evaluate_meaning catCalls hbuild caatNodes).2.2.1⟩

end Index
end Concordance
