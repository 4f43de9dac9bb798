import Concordance.Runs
/-!
What gathering neighbours by key keeps: each run is a sublist of the pairs (`sublist_of_mem_runs`),
every pair is in some run (`exists_mem_runs_iff`), no run is empty (`ne_nil_of_mem_runs`), the keys
stay the same (`mem_keys_runs`), and where the pairs stand in order, the keys of the runs rise
(`runs_pairwise`).
-/
namespace Concordance
variable {κ α : Type} [DecidableEq κ] {key : κ} {values : List α} {pairs : List (κ × α)}

/-- The pairs of a run. -/
def unrun (run : κ × List α) : List (κ × α) := run.2.map (run.1, ·)

@[simp] theorem runs_nil : runs ([] : List (κ × α)) = [] := rfl

@[simp] theorem runs_cons (key : κ) (value : α) (pairs : List (κ × α)) :
    runs ((key, value) :: pairs) = consRun key value (runs pairs) := rfl

theorem flatMap_unrun_consRun (key : κ) (value : α) (rs : List (κ × List α)) :
    (consRun key value rs).flatMap unrun = (key, value) :: rs.flatMap unrun := by
  unfold consRun
  split
  · simp [unrun]
  · split
    · next h => simp [unrun, h]
    · simp [unrun]

theorem flatMap_unrun_runs : ∀ pairs : List (κ × α), (runs pairs).flatMap unrun = pairs
  | [] => rfl
  | (key, value) :: pairs => by
    rw [runs_cons, flatMap_unrun_consRun, flatMap_unrun_runs pairs]

theorem sublist_of_mem_runs (h : (key, values) ∈ runs pairs) :
    (values.map (key, ·)).Sublist pairs := by
  have hs := List.sublist_flatten_of_mem (List.mem_map_of_mem (f := unrun) h)
  rwa [← List.flatMap_def, flatMap_unrun_runs] at hs

theorem mem_of_mem_runs {value : α} (h : (key, values) ∈ runs pairs) (hv : value ∈ values) :
    (key, value) ∈ pairs :=
  (sublist_of_mem_runs h).subset (List.mem_map_of_mem hv)

theorem consRun_ne_nil {value : α} {rs : List (κ × List α)} (hrs : ∀ r ∈ rs, r.2 ≠ []) :
    ∀ r ∈ consRun key value rs, r.2 ≠ [] := by
  unfold consRun
  split
  · simp
  · next first values rest =>
    have hrest : ∀ r ∈ rest, r.2 ≠ [] := fun r hr => hrs r (List.mem_cons_of_mem _ hr)
    split
    · exact List.forall_mem_cons.mpr ⟨List.cons_ne_nil _ _, hrest⟩
    · exact List.forall_mem_cons.mpr ⟨List.cons_ne_nil _ _, hrs⟩

theorem runs_ne_nil (pairs : List (κ × α)) : ∀ r ∈ runs pairs, r.2 ≠ [] := by
  induction pairs with
  | nil => simp
  | cons p pairs ih => exact consRun_ne_nil ih

theorem ne_nil_of_mem_runs (h : (key, values) ∈ runs pairs) : values ≠ [] :=
  runs_ne_nil pairs _ h

theorem exists_mem_runs_iff {value : α} :
    (∃ values, (key, values) ∈ runs pairs ∧ value ∈ values) ↔ (key, value) ∈ pairs := by
  constructor
  · rintro ⟨values, h, hv⟩
    exact mem_of_mem_runs h hv
  · intro h
    rw [← flatMap_unrun_runs pairs] at h
    obtain ⟨⟨k, values⟩, hr, hm⟩ := List.mem_flatMap.mp h
    obtain ⟨v, hv, he⟩ := List.mem_map.mp hm
    obtain ⟨rfl, rfl⟩ := Prod.mk.inj he
    exact ⟨values, hr, hv⟩

theorem exists_of_mem_runs (h : (key, values) ∈ runs pairs) :
    ∃ value ∈ values, (key, value) ∈ pairs := by
  obtain ⟨value, hv⟩ := List.exists_mem_of_ne_nil values (ne_nil_of_mem_runs h)
  exact ⟨value, hv, mem_of_mem_runs h hv⟩

/-- Gathering leaves the keys of the pairs, however often one of them stands there. -/
theorem mem_keys_runs : key ∈ (runs pairs).map (·.1) ↔ ∃ value, (key, value) ∈ pairs := by
  constructor
  · intro h
    obtain ⟨⟨k, values⟩, hr, rfl⟩ := List.mem_map.mp h
    obtain ⟨value, _, hm⟩ := exists_of_mem_runs hr
    exact ⟨value, hm⟩
  · rintro ⟨value, hm⟩
    obtain ⟨values, hr, _⟩ := exists_mem_runs_iff.mpr hm
    exact List.mem_map_of_mem (f := (·.1)) hr

theorem consRun_pairwise {lt : κ → κ → Prop} (trans : ∀ a b c, lt a b → lt b c → lt a c)
    {value : α} {rs : List (κ × List α)} (hrs : (rs.map (·.1)).Pairwise lt)
    (hk : ∀ r ∈ rs, key = r.1 ∨ lt key r.1) : ((consRun key value rs).map (·.1)).Pairwise lt := by
  unfold consRun
  split
  · simp
  · next first values rest =>
    have hfirst := List.pairwise_cons.mp hrs
    split
    · exact hrs
    · next hne =>
      have hlt : lt key first := (hk (first, values) List.mem_cons_self).resolve_left hne
      refine List.pairwise_cons.mpr ⟨?_, hrs⟩
      intro k hm
      rcases List.mem_cons.mp hm with rfl | hm
      · exact hlt
      · exact trans _ _ _ hlt (hfirst.1 k hm)

/-- Where the pairs stand in the order of their keys, and only then in one of their values, each key
has one run, and the keys of the runs rise. -/
theorem runs_pairwise {lt : κ → κ → Prop} {before : α → α → Prop}
    (trans : ∀ a b c, lt a b → lt b c → lt a c)
    (h : pairs.Pairwise fun p q => lt p.1 q.1 ∨ p.1 = q.1 ∧ before p.2 q.2) :
    ((runs pairs).map (·.1)).Pairwise lt := by
  induction pairs with
  | nil => simp
  | cons p pairs ih =>
    obtain ⟨hp, hpairs⟩ := List.pairwise_cons.mp h
    refine consRun_pairwise trans (ih hpairs) ?_
    -- the key of a run is the key of some pair behind `p`
    rintro ⟨k, vs⟩ hr
    obtain ⟨v, _, hm⟩ := exists_of_mem_runs hr
    rcases hp (k, v) hm with hlt | ⟨heq, _⟩
    · exact .inr hlt
    · exact .inl heq

end Concordance
