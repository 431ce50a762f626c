import Petri.Text.Lines

/-! # Lines and the texts of them

A text that consists of rows, each with a line feed behind it, is cut into these rows.
-/
namespace Petri.Text
set_option autoImplicit false

/-- A row that is one line when a line feed stands behind it. -/
structure IsLine (row : String) : Prop where
  feed : '\n' ∉ row.toList
  notReturn : row.toList.getLast? ≠ some '\r'

theorem linesFrom_row (start : List Char) {row : List Char} (hFeed : '\n' ∉ row)
    (hReturn : (start.reverse ++ row).getLast? ≠ some '\r') (rest : List Char) :
    linesFrom start (row ++ '\n' :: rest) = (start.reverse ++ row) :: linesFrom [] rest := by
  induction row generalizing start with
  | nil =>
    rw [List.append_nil] at hReturn ⊢
    rw [List.nil_append, linesFrom, if_pos rfl, dropReturn, if_neg hReturn]
  | cons c row ih =>
    rw [List.mem_cons, not_or] at hFeed
    have hStart : (c :: start).reverse ++ row = start.reverse ++ c :: row := by
      rw [List.reverse_cons, List.append_assoc, List.singleton_append]
    rw [List.cons_append, linesFrom, if_neg (Ne.symm hFeed.1), ih _ hFeed.2 (hStart ▸ hReturn),
      hStart]

theorem lines_join {rows : List String} (h : ∀ row ∈ rows, IsLine row) :
    lines (String.join (rows.map (· ++ "\n"))) = rows := by
  have hLines : linesFrom [] (String.join (rows.map (· ++ "\n"))).toList =
      rows.map String.toList := by
    induction rows with
    | nil => rfl
    | cons row rows ih =>
      rw [List.forall_mem_cons] at h
      have hText : (String.join ((row :: rows).map (· ++ "\n"))).toList =
          row.toList ++ '\n' :: (String.join (rows.map (· ++ "\n"))).toList := by
        rw [List.map_cons, String.join_cons, String.toList_append, String.toList_append,
          List.append_assoc]
        rfl
      rw [hText, linesFrom_row [] h.1.feed h.1.notReturn, ih h.2]
      rfl
  rw [lines, hLines, List.map_map, Function.comp_def]
  simp only [String.ofList_toList, List.map_id']

end Petri.Text
