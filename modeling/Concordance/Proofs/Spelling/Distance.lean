import Concordance.Spelling.Distance
/-!
What the table of the edit distance holds. The cell of two beginnings is what it costs to turn the
one into the other (`cost`), where the last characters are looked at first. So the distance of two
words is the cost of turning them into one another from behind (`distance_eq_cost`), and it is zero
only where they are equal (`distance_eq_zero_iff`).

One row follows from the row above (`nextRow_row`), and a run of rows from the first
(`foldl_nextRow`).
-/
namespace Concordance

/-! ## Costs -/

/-- The least number of edits that turn the first list into the second. The heads are deleted or
inserted, or the one is put in the place of the other, which is free where they are equal. -/
def cost : List Char → List Char → Nat
  | [], target => target.length
  | source, [] => source.length
  | c :: source, d :: target =>
    min (min (cost source (d :: target) + 1) (cost (c :: source) target + 1))
      (cost source target + if c = d then 0 else 1)
termination_by source target => source.length + target.length

theorem cost_nil_left (target : List Char) : cost [] target = target.length := by
  rw [cost]

theorem cost_nil_right (source : List Char) : cost source [] = source.length := by
  cases source with
  | nil => rw [cost_nil_left]
  | cons c source => rw [cost]; simp

theorem cost_cons_cons (c d : Char) (source target : List Char) :
    cost (c :: source) (d :: target) =
      min (min (cost source (d :: target) + 1) (cost (c :: source) target + 1))
        (cost source target + if c = d then 0 else 1) := by
  rw [cost]

theorem cost_comm (source target : List Char) : cost source target = cost target source := by
  fun_induction cost source target with
  | case1 target => rw [cost_nil_right]
  | case2 source => rw [cost_nil_left]
  | case3 c source d target ihDelete ihInsert ihReplace =>
    rw [ihDelete, ihInsert, ihReplace, cost_cons_cons, Nat.min_comm (cost (d :: target) source + 1)]
    simp only [eq_comm]

theorem cost_eq_zero_iff {source target : List Char} :
    cost source target = 0 ↔ source = target := by
  fun_induction cost source target with
  | case1 target => rw [List.length_eq_zero_iff, eq_comm]
  | case2 source => rw [List.length_eq_zero_iff]
  | case3 c source d target _ _ ih =>
    rw [List.cons.injEq, ← ih]
    split
    · next h => simp [h]
    · next h => simp [h]

/-! ## Rows -/

/-- The costs behind those of the beginning `seen`, which is given from behind. -/
def cells (source seen : List Char) : List Char → List Nat
  | [] => []
  | d :: columns => cost source (d :: seen) :: cells source (d :: seen) columns

def row (columns source : List Char) : List Nat := cost source [] :: cells source [] columns

theorem cells_nil (seen columns : List Char) :
    cells [] seen columns = List.range' (seen.length + 1) columns.length := by
  induction columns generalizing seen with
  | nil => rfl
  | cons d columns ih =>
    rw [cells, ih, cost_nil_left, List.length_cons, List.length_cons, List.range'_succ]

theorem row_nil (columns : List Char) : row columns [] = List.range (columns.length + 1) := by
  rw [row, cells_nil, cost_nil_left, List.range_eq_range', List.range'_succ]
  rfl

theorem nextCells_cells (c : Char) (source seen columns : List Char) :
    nextCells c (cost (c :: source) seen) (cost source seen) columns (cells source seen columns) =
      cells (c :: source) seen columns := by
  induction columns generalizing seen with
  | nil => rfl
  | cons d columns ih => rw [cells, nextCells, ← cost_cons_cons, ih, cells]

theorem nextRow_row (columns source : List Char) (c : Char) :
    nextRow columns (row columns source) c = row columns (c :: source) := by
  have hfirst : cost (c :: source) [] = cost source [] + 1 := by
    rw [cost_nil_right, cost_nil_right, List.length_cons]
  rw [row, row, nextRow, ← hfirst, nextCells_cells]

theorem foldl_nextRow (columns rows source : List Char) :
    rows.foldl (nextRow columns) (row columns source) = row columns (rows.reverse ++ source) := by
  -- the characters that have had their rows stand in front of the source, the last one first
  induction rows generalizing source with
  | nil => rfl
  | cons c rows ih =>
    rw [List.foldl_cons, nextRow_row, ih, List.reverse_cons, List.append_assoc,
      List.singleton_append]

theorem getLastD_cells (source seen columns : List Char) :
    (cells source seen columns).getLastD (cost source seen) =
      cost source (columns.reverse ++ seen) := by
  induction columns generalizing seen with
  | nil => rfl
  | cons d columns ih =>
    rw [cells, List.getLastD_cons, ih, List.reverse_cons, List.append_assoc, List.singleton_append]

theorem getLastD_lastRow (columns rows : List Char) :
    (lastRow columns rows).getLastD 0 = cost rows.reverse columns.reverse := by
  rw [lastRow, ← row_nil, foldl_nextRow, row, List.getLastD_cons, getLastD_cells, List.append_nil,
    List.append_nil]

/-! ## Distances -/

/-- The distance is the cost from behind, whichever word stands over the columns. -/
theorem distance_eq_cost (source target : List Char) :
    distance source target = cost source.reverse target.reverse := by
  unfold distance
  split
  · rw [List.reverse_nil, cost_nil_left, List.length_reverse]
  · rw [List.reverse_nil, cost_nil_right, List.length_reverse]
  · split
    · rw [getLastD_lastRow, cost_comm]
    · rw [getLastD_lastRow]

theorem distance_eq_zero_iff {source target : List Char} :
    distance source target = 0 ↔ source = target := by
  rw [distance_eq_cost, cost_eq_zero_iff, List.reverse_inj]

theorem editDistance_eq_zero_iff {word term : String} :
    editDistance word term = 0 ↔ word = term := by
  rw [editDistance, distance_eq_zero_iff, String.toList_inj]

end Concordance
