import Exio.TableReplica
/-!
# TableShape — rows against columns

What the operations do to the cells of the columns that are not reserved, read through `copy_field`: `add_column_NOLOCK`
writes the empty string into every row of the table and into no later one (`copyField_addColumn`), and `update_row` writes
its fields into one row (`copyField_updateRow`).  A cell is always in a column of the table (`table_representation`); a row
has a cell in every column only as long as every new row is given all of them (`table_rectangular`).
-/
namespace Exio

open Sam Replica
open KeyIndex (Indexed)

/-! ## One row -/

theorem compare_ne {a b : Bytes} (h : a ≠ b) : ¬ compare a b = .eq :=
  fun he => h (Std.LawfulEqOrd.compare_eq_iff_eq.1 he)

theorem updateField_getElem? (acc : Fields × Option Fields) (up : Bytes × Bytes) {c : Bytes} (hc : ¬ reserved c = true) :
    (updateField acc up).1[c]? = if up.1 = c then some up.2 else acc.1[c]? := by
  unfold updateField
  split
  · rename_i hr
    rw [if_neg]
    rintro rfl
    exact hc hr
  · split
    · rename_i hv
      split
      · rename_i he
        rw [← he]
        exact hv
      · rfl
    · rw [Std.TreeMap.getElem?_insert]
      by_cases he : up.1 = c
      · rw [if_pos he, if_pos (Std.LawfulEqOrd.compare_eq_iff_eq.2 he)]
      · rw [if_neg he, if_neg (compare_ne he)]

/-- **`update_fields` sets every field that is not reserved**, and no other but the time. -/
theorem DataRow.updateFields_getElem? (row : DataRow) (fields : Fields) (clock : Nat → Bytes) (events : List TableEvent)
    {c : Bytes} (hc : ¬ reserved c = true) :
    (row.updateFields fields clock events).1.fields[c]? = fields[c]?.or row.fields[c]? := by
  have hfold : (fields.toList.foldl updateField (row.fields, none)).1[c]? = fields[c]?.or row.fields[c]? :=
    @KeyIndex.lookup_foldl_toList _ _ _ c updateField (fun acc => acc.1[c]?) _ _ _ _
      (fun acc up => updateField_getElem? acc up hc) fields (row.fields, none)
  unfold DataRow.updateFields
  rcases he : fields.toList.foldl updateField (row.fields, none) with ⟨ours, ev⟩
  rw [he] at hfold
  cases ev with
  | none => exact hfold
  | some ev =>
    show (ours.insert Id.rowLast _)[c]? = _
    rw [Std.TreeMap.getElem?_insert, if_neg (compare_ne (Ne.symm (not_reserved hc).2))]
    exact hfold

theorem updateRows_getElem? (fields : Fields) (clock : Nat → Bytes) {c : Bytes} (hc : ¬ reserved c = true) :
    ∀ (rows : List DataRow) (events : List TableEvent) (i : Nat),
    ((DataTable.updateRows fields clock rows events).1[i]?).map (fun row => row.fields[c]?) =
      (rows[i]?).map (fun row => fields[c]?.or row.fields[c]?)
  | [], _, _ => rfl
  | row :: rows, events, i => by
    have ih := updateRows_getElem? fields clock hc rows (row.updateFields fields clock events).2
    simp only [DataTable.updateRows]
    cases i with
    | zero => exact congrArg some (row.updateFields_getElem? fields clock events hc)
    | succ i => exact ih i

/-! ## The operations, cell by cell -/

namespace DataTable

theorem hasRow_iff {t : DataTable} (h : t.Inv) (k : Bytes) : t.hasRow k = true ↔ k ∈ t.rows.map DataRow.rowkey := by
  have := h.rows.eq_none_iff k
  rw [hasRow]
  cases hk : t.rowIndex[k]? with
  | none => simpa [hk] using this.1 hk
  | some i => simpa [hk] using this

theorem copyField_eq_join (t : DataTable) (k c : Bytes) :
    t.copyField k c = (t.rowIndex[k]?.bind fun i => (t.rows[i]?).map (fun row => row.fields[c]?)).join := by
  unfold copyField
  cases t.rowIndex[k]? with
  | none => rfl
  | some i =>
    simp only [Option.bind_some]
    cases t.rows[i]? <;> rfl

/-- A row's fields are what its key looks up. -/
theorem copyField_row {t : DataTable} (h : t.Inv) {row : DataRow} (hrow : row ∈ t.rows) (c : Bytes) :
    t.copyField row.rowkey c = row.fields[c]? := by
  obtain ⟨i, hi⟩ := List.mem_iff_getElem?.1 hrow
  have hidx : t.rowIndex[row.rowkey]? = some i := (h.rows.iff row.rowkey i).2 (by rw [List.getElem?_map, hi]; rfl)
  rw [copyField, hidx, Option.bind_some, hi, Option.bind_some]

theorem copyField_of_not_hasRow {t : DataTable} {k : Bytes} (h : ¬ t.hasRow k = true) (c : Bytes) :
    t.copyField k c = none := by
  have hnone : t.rowIndex[k]? = none := by simpa [hasRow] using h
  rw [copyField, hnone]
  rfl

/-- The row of a key that has one. -/
theorem exists_row {t : DataTable} (h : t.Inv) {k : Bytes} (hk : t.hasRow k = true) :
    ∃ i row, t.rowIndex[k]? = some i ∧ t.rows[i]? = some row ∧ row.rowkey = k := by
  obtain ⟨i, hi⟩ := Option.isSome_iff_exists.1 hk
  have hki := (h.rows.iff k i).1 hi
  rw [List.getElem?_map, Option.map_eq_some_iff] at hki
  obtain ⟨row, hrow, hkey⟩ := hki
  exact ⟨i, row, hi, hrow, hkey⟩

theorem addColumn_of_mem {t : DataTable} (h : t.Inv) (clock : Nat → Bytes) (events : List TableEvent) {column : Bytes}
    (hm : column ∈ t.columns) : addColumn clock (t, events) column = (t, events) := by
  have hidx : t.columnIndex[column]?.isSome = true := by
    by_contra hn
    exact (h.columns.eq_none_iff column).1 (by simpa using hn) hm
  unfold addColumn
  simp only [if_pos hidx]

theorem addColumn_of_not_mem {t : DataTable} (h : t.Inv) (clock : Nat → Bytes) (events : List TableEvent) {column : Bytes}
    (hnew : column ∉ t.columns) : (addColumn clock (t, events) column).1 =
      { t with
        columns     := t.columns ++ [column]
        columnIndex := KeyIndex.rebuild (t.columns ++ [column])
        rows        := (updateRows ((∅ : Fields).insert column []) clock t.rows
          (events ++ [.newColumn t.tableName column])).1 } := by
  have hidx : ¬ t.columnIndex[column]?.isSome = true := by
    rw [(h.columns.eq_none_iff column).2 hnew]
    simp
  unfold addColumn
  simp only [if_neg hidx]

/-- **A new column**: the empty string in every row there is. -/
theorem copyField_addColumn {t : DataTable} (h : t.Inv) (clock : Nat → Bytes) (events : List TableEvent) {column : Bytes}
    (hnew : column ∉ t.columns) (k : Bytes) {c : Bytes} (hc : ¬ reserved c = true) :
    (addColumn clock (t, events) column).1.copyField k c =
      if c = column ∧ t.hasRow k = true then some [] else t.copyField k c := by
  rw [addColumn_of_not_mem h clock events hnew, copyField_eq_join, copyField_eq_join]
  by_cases hk : t.hasRow k = true
  · obtain ⟨i, row, hi, hrow, -⟩ := exists_row h hk
    simp only [hi, Option.bind_some, updateRows_getElem? _ clock hc, hrow, Option.map_some, Option.join_some, hk, and_true,
      Std.TreeMap.getElem?_insert, Std.TreeMap.getElem?_emptyc]
    by_cases he : c = column
    · rw [if_pos he, if_pos (Std.LawfulEqOrd.compare_eq_iff_eq.2 he.symm), Option.some_or]
    · rw [if_neg he, if_neg (compare_ne (Ne.symm he)), Option.none_or]
  · have hnone : t.rowIndex[k]? = none := by simpa [hasRow] using hk
    rw [if_neg (fun hh => hk hh.2), hnone]
    rfl

end DataTable

/-! ## Adding columns -/

/-- **What adding the columns `names` does to a table.** -/
structure Widened (names : List Bytes) (t t' : DataTable) : Prop where
  keys    : t'.rows.map DataRow.rowkey = t.rows.map DataRow.rowkey
  columns : ∀ c, c ∈ t'.columns ↔ c ∈ names ∨ c ∈ t.columns
  cells   : ∀ k c, ¬ reserved c = true →
    t'.copyField k c = if (c ∈ names ∧ c ∉ t.columns) ∧ t.hasRow k = true then some [] else t.copyField k c

theorem Widened.refl (t : DataTable) : Widened [] t t :=
  ⟨rfl, fun c => by simp, fun k c _ => by simp⟩

theorem Widened.hasRow_iff {names : List Bytes} {t t' : DataTable} (hw : Widened names t t') (h : t.Inv) (h' : t'.Inv)
    (k : Bytes) : t'.hasRow k = true ↔ t.hasRow k = true := by
  rw [DataTable.hasRow_iff h', DataTable.hasRow_iff h, hw.keys]

theorem Widened.trans {ns ms : List Bytes} {t u v : DataTable} (h : t.Inv) (hu : u.Inv) (h1 : Widened ns t u)
    (h2 : Widened ms u v) : Widened (ns ++ ms) t v := by
  refine ⟨h2.keys.trans h1.keys, fun c => ?_, fun k c hc => ?_⟩
  · rw [h2.columns, h1.columns, List.mem_append, or_left_comm, or_assoc]
  · have hk := h1.hasRow_iff h hu k
    rw [h2.cells k c hc, h1.cells k c hc]
    simp only [hk, h1.columns, List.mem_append]
    by_cases hn : c ∈ ns <;> by_cases ht : c ∈ t.columns <;> simp [hn, ht]

theorem addColumn_widened {t : DataTable} (h : t.Inv) (clock : Nat → Bytes) (events : List TableEvent) (column : Bytes) :
    Widened [column] t (DataTable.addColumn clock (t, events) column).1 := by
  by_cases hm : column ∈ t.columns
  · rw [DataTable.addColumn_of_mem h clock events hm]
    refine ⟨rfl, fun c => ?_, fun k c _ => ?_⟩
    · rw [List.mem_singleton]
      exact ⟨.inr, fun hc => hc.elim (fun he => he ▸ hm) id⟩
    · rw [if_neg]
      rintro ⟨⟨hc, hnew⟩, -⟩
      exact hnew (List.mem_singleton.1 hc ▸ hm)
  · refine ⟨?_, fun c => ?_, fun k c hc => ?_⟩
    · rw [DataTable.addColumn_of_not_mem h clock events hm]
      exact updateRows_keys _ clock _ _
    · rw [DataTable.addColumn_of_not_mem h clock events hm]
      exact List.mem_append.trans or_comm
    · rw [DataTable.copyField_addColumn h clock events hm k hc]
      refine if_congr (and_congr_left fun _ => ?_) rfl rfl
      rw [List.mem_singleton]
      exact ⟨fun he => ⟨he, he ▸ hm⟩, And.left⟩

theorem foldl_addColumn_widened {t₀ : DataTable} (clock : Nat → Bytes) : ∀ (cols : List Bytes)
    {s : DataTable × List TableEvent}, Tracked t₀ s →
    Widened cols s.1 (cols.foldl (DataTable.addColumn clock) s).1
  | [], s, _ => .refl s.1
  | col :: cols, s, h => by
    have h1 := addColumn_tracked h clock col
    exact Widened.trans h.inv h1.inv (addColumn_widened h.inv clock s.2 col) (foldl_addColumn_widened clock cols h1)

/-! ## Updating a row -/

theorem mem_columnNames {fields : Fields} {c : Bytes} (hc : ¬ reserved c = true) :
    c ∈ columnNames fields ↔ fields[c]?.isSome = true := by
  simp [columnNames, hc]

namespace DataTable

theorem addRow_frame (t : DataTable) (rowkey : Bytes) (events : List TableEvent) :
    (t.addRow rowkey events).1.rows.map DataRow.rowkey = t.rows.map DataRow.rowkey ++ [rowkey] ∧
      (t.addRow rowkey events).1.columns = t.columns :=
  ⟨List.map_append, rfl⟩

/-- A new row has its key, and no cell. -/
theorem copyField_addRow {t : DataTable} (h : t.Inv) {rowkey : Bytes} (hnew : ¬ t.hasRow rowkey = true)
    (k : Bytes) {c : Bytes} (hc : ¬ reserved c = true) : (t.addRow rowkey []).1.copyField k c = t.copyField k c := by
  have ht := addRow_tracked (.start h) hnew
  rw [ht.inv.copyField_eq k c (not_reserved hc).1, h.copyField_eq k c (not_reserved hc).1, ht.cells]
  rfl

theorem updateRowAt_frame (t : DataTable) (clock : Nat → Bytes) (rowkey : Bytes) (fields : Fields)
    (events : List TableEvent) :
    (t.updateRowAt clock rowkey fields events).1.rowIndex = t.rowIndex ∧
      (t.updateRowAt clock rowkey fields events).1.columns = t.columns := by
  unfold updateRowAt
  simp only
  split <;> exact ⟨rfl, rfl⟩

theorem copyField_updateRowAt {t : DataTable} (h : t.Inv) (clock : Nat → Bytes) {rowkey : Bytes} (fields : Fields)
    (events : List TableEvent) (hk : t.hasRow rowkey = true) (k : Bytes) {c : Bytes} (hc : ¬ reserved c = true) :
    (t.updateRowAt clock rowkey fields events).1.copyField k c =
      if k = rowkey then fields[c]?.or (t.copyField k c) else t.copyField k c := by
  obtain ⟨i, row, hi, hrow, hkey⟩ := exists_row h hk
  have hlt := (List.getElem?_eq_some_iff.1 hrow).1
  have ht : (t.updateRowAt clock rowkey fields events).1 =
      { t with rows := t.rows.set i (row.updateFields fields clock events).1 } := by
    unfold updateRowAt
    simp only [hi, Option.getD_some, hrow]
  rw [ht, copyField, copyField]
  by_cases he : k = rowkey
  · subst he
    rw [if_pos rfl]
    simp only [hi, Option.bind_some, List.getElem?_set_self hlt, hrow]
    exact row.updateFields_getElem? fields clock events hc
  · rw [if_neg he]
    cases hj : t.rowIndex[k]? with
    | none => rfl
    | some j =>
      -- another key stands at another position
      have hne : i ≠ j := by
        rintro rfl
        have h1 := (h.rows.iff k i).1 hj
        rw [(h.rows.iff rowkey i).1 hi] at h1
        exact he (Option.some.inj h1).symm
      simp only [Option.bind_some, List.getElem?_set_ne hne]

theorem hasRow_withRow {t : DataTable} (h : t.Inv) (rowkey k : Bytes) :
    (if t.hasRow rowkey then (t, []) else t.addRow rowkey []).1.hasRow k = true ↔ k = rowkey ∨ t.hasRow k = true := by
  split
  · rename_i hk
    exact ⟨.inr, fun hh => hh.elim (fun he => he ▸ hk) id⟩
  · rename_i hk
    rw [hasRow_iff (addRow_tracked (.start h) hk).inv, (t.addRow_frame rowkey []).1, List.mem_append, hasRow_iff h,
      List.mem_singleton, or_comm]

section UpdateRow

variable {t : DataTable} (h : t.Inv) (clock : Nat → Bytes) (rowkey : Bytes) (fields : Fields)
include h

/-- `update_row`, in its three parts. -/
theorem updateRow_parts : ∃ t₁ t₂ : DataTable, ∃ events,
    (t.updateRow clock rowkey fields).1 = (t₂.updateRowAt clock rowkey fields events).1 ∧
    t₁.Inv ∧ t₂.Inv ∧ Widened (columnNames fields) t₁ t₂ ∧ t₁.columns = t.columns ∧
    (∀ k, t₁.hasRow k = true ↔ k = rowkey ∨ t.hasRow k = true) ∧
    ∀ k c, ¬ reserved c = true → t₁.copyField k c = t.copyField k c := by
  have h1 := withRow_tracked h rowkey
  have hw := foldl_addColumn_widened clock (columnNames fields) h1
  have h2 := foldl_addColumn_tracked clock (columnNames fields) h1
  refine ⟨_, _, _, congrArg Prod.fst (t.updateRow_eq clock rowkey fields), h1.inv, h2.inv, hw, ?_,
    hasRow_withRow h rowkey, ?_⟩
  · split <;> rfl
  · intro k c hc
    split
    · rfl
    · rename_i hk
      exact copyField_addRow h hk k hc

theorem hasRow_updateRow (k : Bytes) :
    (t.updateRow clock rowkey fields).1.hasRow k = true ↔ k = rowkey ∨ t.hasRow k = true := by
  obtain ⟨t₁, t₂, events, heq, h1, h2, hw, -, hrow, -⟩ := updateRow_parts h clock rowkey fields
  rw [heq, hasRow, (t₂.updateRowAt_frame clock rowkey fields events).1]
  exact (hw.hasRow_iff h1 h2 k).trans (hrow k)

theorem mem_columns_updateRow (c : Bytes) :
    c ∈ (t.updateRow clock rowkey fields).1.columns ↔ c ∈ columnNames fields ∨ c ∈ t.columns := by
  obtain ⟨t₁, t₂, events, heq, -, -, hw, hcols, -, -⟩ := updateRow_parts h clock rowkey fields
  rw [heq, (t₂.updateRowAt_frame clock rowkey fields events).2, hw.columns, hcols]

/-- **The cells after an update**: its fields in its row, and the empty string in the new columns of the other rows. -/
theorem copyField_updateRow (k : Bytes) {c : Bytes} (hc : ¬ reserved c = true) :
    (t.updateRow clock rowkey fields).1.copyField k c =
      if k = rowkey then fields[c]?.or (t.copyField k c)
      else if (c ∈ columnNames fields ∧ c ∉ t.columns) ∧ t.hasRow k = true then some []
      else t.copyField k c := by
  obtain ⟨t₁, t₂, events, heq, h1, h2, hw, hcols, hrow, hcells⟩ := updateRow_parts h clock rowkey fields
  have hk2 : t₂.hasRow rowkey = true := (hw.hasRow_iff h1 h2 rowkey).2 ((hrow rowkey).2 (.inl rfl))
  rw [heq, copyField_updateRowAt h2 clock fields events hk2 k hc, hw.cells k c hc, hcols, hcells k c hc]
  split
  · -- a new column of the row is among the fields of the update
    cases hf : fields[c]? with
    | none =>
      have hn : c ∉ columnNames fields := by
        rw [mem_columnNames hc, hf]
        simp
      simp [hn]
    | some v => rfl
  · rename_i hne
    refine if_congr (and_congr_right fun _ => ?_) rfl rfl
    rw [hrow k]
    exact or_iff_right hne

end UpdateRow

end DataTable

/-! ## Cells are in columns -/

/-- The rows of a table, through its index. -/
theorem forall_row_iff {t : DataTable} (h : t.Inv) (Q : (Bytes → Option Bytes) → Prop) :
    (∀ row ∈ t.rows, Q fun c => row.fields[c]?) ↔ ∀ k, t.hasRow k = true → Q (t.copyField k) := by
  have hcells : ∀ row ∈ t.rows, t.copyField row.rowkey = fun c => row.fields[c]? :=
    fun row hrow => funext fun c => DataTable.copyField_row h hrow c
  constructor
  · intro hrows k hk
    obtain ⟨i, row, -, hrow, rfl⟩ := DataTable.exists_row h hk
    rw [hcells row (List.mem_of_getElem? hrow)]
    exact hrows row (List.mem_of_getElem? hrow)
  · intro hkeys row hrow
    rw [← hcells row hrow]
    exact hkeys row.rowkey ((DataTable.hasRow_iff h row.rowkey).2 (List.mem_map_of_mem hrow))

/-- A value that is not reserved stands in a column of the table. -/
def CellsInColumns (t : DataTable) : Prop :=
  ∀ row ∈ t.rows, ∀ c, ¬ reserved c = true → (row.fields[c]?).isSome = true → c ∈ t.columns

theorem cellsInColumns_iff {t : DataTable} (h : t.Inv) : CellsInColumns t ↔
    ∀ k, t.hasRow k = true → ∀ c, ¬ reserved c = true → (t.copyField k c).isSome = true → c ∈ t.columns :=
  forall_row_iff h fun cells => ∀ c, ¬ reserved c = true → (cells c).isSome = true → c ∈ t.columns

theorem CellsInColumns.copyField {t : DataTable} (hs : CellsInColumns t) (h : t.Inv) {k c : Bytes}
    (hc : ¬ reserved c = true) (hv : (t.copyField k c).isSome = true) : c ∈ t.columns := by
  by_cases hk : t.hasRow k = true
  · exact (cellsInColumns_iff h).1 hs k hk c hc hv
  · rw [DataTable.copyField_of_not_hasRow hk] at hv
    cases hv

theorem CellsInColumns.updateRow {t : DataTable} (hs : CellsInColumns t) (h : t.Inv) (clock : Nat → Bytes)
    (rowkey : Bytes) (fields : Fields) : CellsInColumns (t.updateRow clock rowkey fields).1 := by
  rw [cellsInColumns_iff (updateRow_tracked h clock rowkey fields).inv]
  intro k _ c hc hv
  rw [DataTable.copyField_updateRow h clock rowkey fields k hc] at hv
  rw [DataTable.mem_columns_updateRow h clock rowkey fields]
  split at hv
  · rw [Option.isSome_or, Bool.or_eq_true, ← mem_columnNames hc] at hv
    exact hv.imp_right (hs.copyField h hc)
  · split at hv
    · rename_i hnew
      exact .inl hnew.1.1
    · exact .inr (hs.copyField h hc hv)

theorem CellsInColumns.widened {names : List Bytes} {t t' : DataTable} (hs : CellsInColumns t) (h : t.Inv) (h' : t'.Inv)
    (hw : Widened names t t') : CellsInColumns t' := by
  rw [cellsInColumns_iff h']
  intro k _ c hc hv
  rw [hw.cells k c hc] at hv
  rw [hw.columns]
  split at hv
  · rename_i hnew
    exact .inl hnew.1.1
  · exact .inr (hs.copyField h hc hv)

theorem deleteRow_frame (t : DataTable) (rowkey : Bytes) :
    (∀ row ∈ (t.deleteRow rowkey).1.rows, row ∈ t.rows) ∧ (t.deleteRow rowkey).1.columns = t.columns := by
  unfold DataTable.deleteRow
  split
  · exact ⟨fun _ hrow => hrow, rfl⟩
  · exact ⟨fun _ hrow => List.mem_of_mem_eraseIdx hrow, rfl⟩

theorem hasRow_deleteRow (t : DataTable) (rowkey k : Bytes) :
    (t.deleteRow rowkey).1.hasRow k = true ↔ k ≠ rowkey ∧ t.hasRow k = true := by
  unfold DataTable.deleteRow
  split
  · rename_i hnone
    refine ⟨fun hk => ⟨?_, hk⟩, And.right⟩
    rintro rfl
    simp [DataTable.hasRow, hnone] at hk
  · show (KeyIndex.remove t.rowIndex rowkey _)[k]?.isSome = true ↔ _
    rw [KeyIndex.remove, Std.TreeMap.getElem?_map, Option.isSome_map, Std.TreeMap.getElem?_erase]
    by_cases he : k = rowkey
    · subst he
      simp
    · rw [if_neg (compare_ne (Ne.symm he))]
      exact ⟨fun hk => ⟨he, hk⟩, And.right⟩

theorem CellsInColumns.sameData {t t' : DataTable} (hs : CellsInColumns t) (h : t.SameData t') : CellsInColumns t' := by
  unfold CellsInColumns
  rw [h.rows, h.columns]
  exact hs

theorem CellsInColumns.exec {s : TableServer} (hs : CellsInColumns s.table) (h : s.table.Inv) (op : TableOp) :
    CellsInColumns (s.exec op).1.table := by
  cases op with
  | updateRow clock rowkey fields => exact (s.commit_table _).symm ▸ hs.updateRow h clock rowkey fields
  | addColumns clock cols =>
    exact (s.commit_table _).symm ▸
      hs.widened h (addColumns_tracked h clock cols).inv (foldl_addColumn_widened clock cols (.start h))
  | updateMeta rowkey column info => exact (s.commit_table _).symm ▸ hs.sameData ⟨rfl, rfl, rfl, rfl⟩
  | addColumnAttr column attr => exact hs.sameData ⟨rfl, rfl, rfl, rfl⟩
  | clearTable => exact (s.commit_table _).symm ▸ fun row hrow => by cases hrow
  | deleteRow rowkey =>
    obtain ⟨hrows, hcols⟩ := deleteRow_frame s.table rowkey
    exact (s.commit_table _).symm ▸ fun row hrow c hc hv => hcols ▸ hs row (hrows row hrow) c hc hv
  | snapshot => exact hs.sameData (TableServer.snapshotEach_sameData _ s)
  | addSubscriber sid => exact hs.sameData (s.addSubscriber_sameData sid)
  | delSubscriber sid => exact hs.sameData ⟨rfl, rfl, rfl, rfl⟩
  | sessions used isOpen => exact hs

theorem cellsInColumns_of_reaches {tableName : Bytes} {s : TableServer}
    (hrun : Steps.Reaches tableStep Steps.Always (.new tableName) s) : CellsInColumns s.table := by
  have hcells : s.table.Inv ∧ CellsInColumns s.table := by
    refine hrun.invariant (P := fun s => s.table.Inv ∧ CellsInColumns s.table)
      ⟨DataTable.new_inv tableName, fun row hrow => by cases hrow⟩ ?_
    intro t u op ht _ hs
    cases hs
    exact ⟨TableServer.exec_inv ht.1 op, ht.2.exec ht.1 op⟩
  exact hcells.2

/-- **The representation of a table.**  In every state reached from an empty table, whatever the operations and the names
they are given: the keys of the rows are distinct, and the row index maps exactly them, to their positions; so it is for
the columns; every row holds its own key under `RowKey`; and every other field of a row that is not `RowLastUpdated` is one
of the columns. -/
theorem table_representation (tableName : Bytes) {s : TableServer}
    (hrun : Steps.Reaches tableStep Steps.Always (.new tableName) s) :
    (s.table.rows.map DataRow.rowkey).Nodup ∧
    (∀ (k : Bytes) (i : Nat), s.table.rowIndex[k]? = some i ↔ (s.table.rows.map DataRow.rowkey)[i]? = some k) ∧
    s.table.columns.Nodup ∧
    (∀ (c : Bytes) (i : Nat), s.table.columnIndex[c]? = some i ↔ s.table.columns[i]? = some c) ∧
    (∀ row ∈ s.table.rows, row.fields[Id.rowKey]? = some row.rowkey) ∧
    ∀ row ∈ s.table.rows, ∀ c, c ≠ Id.rowKey → c ≠ Id.rowLast → c ∈ row.fields → c ∈ s.table.columns := by
  have hinv := TableServer.inv_of_reaches hrun
  refine ⟨hinv.rows.nodup, hinv.rows.iff, hinv.columns.nodup, hinv.columns.iff, hinv.keyed, ?_⟩
  intro row hrow c hk hl hc
  refine cellsInColumns_of_reaches hrun row hrow c ?_ ?_
  · simp [reserved, hk, hl]
  · rw [Std.TreeMap.isSome_getElem?_eq_contains]
    exact hc

/-- Two rows, columns in between, reserved names among the fields and the columns, and a row deleted. -/
def shapeOps : List TableOp :=
  [.updateRow (fun _ => ascii "now") (ascii "a")
      (((∅ : Fields).insert (ascii "x") (ascii "1")).insert Id.rowKey (ascii "z")),
    .addColumns (fun _ => ascii "then") [ascii "y", Id.rowLast, ascii "y"],
    .updateRow (fun _ => ascii "later") (ascii "b") ((∅ : Fields).insert (ascii "v") (ascii "2")),
    .deleteRow (ascii "a")]

theorem table_representation_sample : ∃ s, Steps.run tableStep (.new (ascii "t")) shapeOps = some s ∧
    s.table.rows.length = 1 ∧
    ∀ row ∈ s.table.rows, ∀ c, c ≠ Id.rowKey → c ≠ Id.rowLast → c ∈ row.fields → c ∈ s.table.columns := by
  refine ⟨_, rfl, by decide +kernel, ?_⟩
  exact (table_representation (ascii "t") (Steps.reaches_of_run shapeOps rfl)).2.2.2.2.2

/-! ## Rows against columns -/

/-- `std::out_of_range`. -/
structure OutOfRange where
  what : String
deriving DecidableEq

def DataRow.getField (row : DataRow) (fn : Bytes) : Except OutOfRange Bytes :=
  match row.fields[fn]? with
  | none   => .error ⟨"field not found"⟩
  | some v => .ok v

/-- `get_row_field`; a position past the last row is excluded by `DataTable.Inv`. -/
def DataTable.getRowField (t : DataTable) (rowkey column : Bytes) : Except OutOfRange Bytes :=
  match t.rowIndex[rowkey]?.bind fun i => t.rows[i]? with
  | none     => .error ⟨"row not found"⟩
  | some row => row.getField column

/-- **Rows and columns are rectangular**: every row has a value in every column that is not reserved, and reading it does
not throw. -/
structure Rectangular (t : DataTable) : Prop where
  rows   : ∀ row ∈ t.rows, ∀ c ∈ t.columns, ¬ reserved c = true → c ∈ row.fields
  lookup : ∀ k c, t.hasRow k = true → c ∈ t.columns → ¬ reserved c = true → ∃ v, t.getRowField k c = .ok v

theorem getRowField_eq_ok_iff (t : DataTable) (k c v : Bytes) : t.getRowField k c = .ok v ↔ t.copyField k c = some v := by
  unfold DataTable.getRowField DataTable.copyField
  cases t.rowIndex[k]?.bind fun i => t.rows[i]? with
  | none => simp
  | some row =>
    show row.getField c = .ok v ↔ row.fields[c]? = some v
    unfold DataRow.getField
    split
    · rename_i hnone
      simp [hnone]
    · rename_i w hsome
      simp [hsome]

theorem rectangular_iff {t : DataTable} (h : t.Inv) : Rectangular t ↔
    ∀ k, t.hasRow k = true → ∀ c ∈ t.columns, ¬ reserved c = true → (t.copyField k c).isSome = true := by
  constructor
  · intro hr k hk c hcol hc
    obtain ⟨v, hv⟩ := hr.lookup k c hk hcol hc
    rw [(getRowField_eq_ok_iff t k c v).1 hv]
    rfl
  · intro hr
    refine ⟨?_, fun k c hk hcol hc => ?_⟩
    · intro row hrow c hcol hc
      rw [Std.TreeMap.mem_iff_isSome_getElem?]
      exact (forall_row_iff h fun cells => ∀ c ∈ t.columns, ¬ reserved c = true → (cells c).isSome = true).2 hr row hrow
        c hcol hc
    · obtain ⟨v, hv⟩ := Option.isSome_iff_exists.1 (hr k hk c hcol hc)
      exact ⟨v, (getRowField_eq_ok_iff t k c v).2 hv⟩

/-- A row is created with a value for every column. -/
def Covers (s : TableServer) : TableOp → Prop
  | .updateRow _ rowkey fields =>
    s.table.hasRow rowkey = true ∨ ∀ c ∈ s.table.columns, ¬ reserved c = true → c ∈ fields
  | _ => True

theorem Rectangular.widened {names : List Bytes} {t t' : DataTable} (hr : Rectangular t) (h : t.Inv) (h' : t'.Inv)
    (hw : Widened names t t') : Rectangular t' := by
  rw [rectangular_iff h'] at *
  rw [rectangular_iff h] at hr
  intro k hk c hcol hc
  have hk' := (hw.hasRow_iff h h' k).1 hk
  rw [hw.cells k c hc]
  split
  · rfl
  · rename_i hold
    refine hr k hk' c ?_ hc
    by_contra hnew
    exact hold ⟨⟨((hw.columns c).1 hcol).resolve_right hnew, hnew⟩, hk'⟩

/-- **One update of a row**: a new row is filled from the fields of the update only. -/
theorem rectangular_updateRow_iff {t : DataTable} (hr : Rectangular t) (h : t.Inv) (clock : Nat → Bytes) (rowkey : Bytes)
    (fields : Fields) : Rectangular (t.updateRow clock rowkey fields).1 ↔
      (t.hasRow rowkey = true ∨ ∀ c ∈ t.columns, ¬ reserved c = true → c ∈ fields) := by
  rw [rectangular_iff h] at hr
  rw [rectangular_iff (updateRow_tracked h clock rowkey fields).inv]
  constructor
  · intro hr'
    by_cases hk : t.hasRow rowkey = true
    · exact .inl hk
    · refine .inr fun c hcol hc => ?_
      have hv := hr' rowkey ((DataTable.hasRow_updateRow h clock rowkey fields rowkey).2 (.inl rfl)) c
        ((DataTable.mem_columns_updateRow h clock rowkey fields c).2 (.inr hcol)) hc
      rw [DataTable.copyField_updateRow h clock rowkey fields rowkey hc, if_pos rfl,
        DataTable.copyField_of_not_hasRow hk, Option.or_none] at hv
      exact Std.TreeMap.mem_iff_isSome_getElem?.2 hv
  · intro hcov k hk c hcol hc
    rw [DataTable.hasRow_updateRow h clock rowkey fields] at hk
    rw [DataTable.mem_columns_updateRow h clock rowkey fields] at hcol
    rw [DataTable.copyField_updateRow h clock rowkey fields k hc]
    split
    · rename_i he
      subst he
      rw [Option.isSome_or, Bool.or_eq_true]
      rcases hcol with hnew | hold
      · exact .inl ((mem_columnNames hc).1 hnew)
      · rcases hcov with hrow | hall
        · exact .inr (hr k hrow c hold hc)
        · exact .inl (Std.TreeMap.mem_iff_isSome_getElem?.1 (hall c hold hc))
    · rename_i hne
      have hk' := hk.resolve_left hne
      split
      · rfl
      · rename_i hold
        refine hr k hk' c ?_ hc
        by_contra hnew
        exact hold ⟨⟨hcol.resolve_right hnew, hnew⟩, hk'⟩

theorem Rectangular.sameData {t t' : DataTable} (hr : Rectangular t) (h : t.SameData t') : Rectangular t' := by
  refine ⟨?_, ?_⟩
  · rw [h.rows, h.columns]
    exact hr.rows
  · unfold DataTable.hasRow DataTable.getRowField
    rw [h.rows, h.columns, h.rowIndex]
    exact hr.lookup

theorem Rectangular.deleteRow {t : DataTable} (hr : Rectangular t) (h : t.Inv) (rowkey : Bytes) :
    Rectangular (t.deleteRow rowkey).1 := by
  obtain ⟨hrows, hcols⟩ := deleteRow_frame t rowkey
  refine (rectangular_iff (deleteRow_inv h rowkey)).2 ((forall_row_iff (deleteRow_inv h rowkey)
    fun cells => ∀ c ∈ _, ¬ reserved c = true → (cells c).isSome = true).1 fun row hrow c hcol hc => ?_)
  rw [hcols] at hcol
  exact Std.TreeMap.mem_iff_isSome_getElem?.1 (hr.rows row (hrows row hrow) c hcol hc)

theorem rectangular_clearTable {t : DataTable} (h : t.Inv) : Rectangular t.clearTable.1 := by
  refine (rectangular_iff (clearTable_tracked h).inv).2 fun k hk => ?_
  rw [DataTable.hasRow_iff (clearTable_tracked h).inv] at hk
  cases hk

/-- **One operation**: only the creation of a row can leave a hole. -/
theorem rectangular_exec_iff {s : TableServer} (h : s.table.Inv) (hr : Rectangular s.table) (op : TableOp) :
    Rectangular (s.exec op).1.table ↔ Covers s op := by
  cases op with
  | updateRow clock rowkey fields => exact (s.commit_table _).symm ▸ rectangular_updateRow_iff hr h clock rowkey fields
  | addColumns clock cols =>
    refine iff_of_true ((s.commit_table _).symm ▸ ?_) trivial
    exact hr.widened h (addColumns_tracked h clock cols).inv (foldl_addColumn_widened clock cols (.start h))
  | updateMeta rowkey column info =>
    exact iff_of_true ((s.commit_table _).symm ▸ hr.sameData ⟨rfl, rfl, rfl, rfl⟩) trivial
  | addColumnAttr column attr => exact iff_of_true (hr.sameData ⟨rfl, rfl, rfl, rfl⟩) trivial
  | clearTable => exact iff_of_true ((s.commit_table _).symm ▸ rectangular_clearTable h) trivial
  | deleteRow rowkey => exact iff_of_true ((s.commit_table _).symm ▸ hr.deleteRow h rowkey) trivial
  | snapshot => exact iff_of_true (hr.sameData (TableServer.snapshotEach_sameData _ s)) trivial
  | addSubscriber sid => exact iff_of_true (hr.sameData (s.addSubscriber_sameData sid)) trivial
  | delSubscriber sid => exact iff_of_true (hr.sameData ⟨rfl, rfl, rfl, rfl⟩) trivial
  | sessions used isOpen => exact iff_of_true hr trivial

theorem rectangular_new (tableName : Bytes) : Rectangular (.new tableName) := by
  refine (rectangular_iff (DataTable.new_inv tableName)).2 fun k hk => ?_
  rw [DataTable.hasRow_iff (DataTable.new_inv tableName)] at hk
  cases hk

/-- **When a table stays rectangular.**  Along a run from an empty table every state is rectangular exactly if every
`update_row` that creates a row gives a value for every column the table then has, the reserved ones aside. -/
theorem table_rectangular (tableName : Bytes) (ops : List TableOp) :
    Steps.Throughout tableStep (fun s => Rectangular s.table) (.new tableName) ops ↔
      Steps.EachStep tableStep Covers (.new tableName) ops := by
  refine Steps.throughout_iff (I := fun s => s.table.Inv) (A := fun _ => True) ?_ ?_ ops (fun _ _ => trivial)
    (DataTable.new_inv tableName) (rectangular_new tableName)
  · intro s t op h _ hs
    cases hs
    exact TableServer.exec_inv h op
  · intro s t op h _ hr hs
    cases hs
    exact rectangular_exec_iff h hr op

/-- A row with a value in `x`, and then a row without one. -/
def holeOps : List TableOp :=
  [.updateRow (fun _ => ascii "now") (ascii "a") ((∅ : Fields).insert (ascii "x") (ascii "1")),
    .updateRow (fun _ => ascii "later") (ascii "b") ((∅ : Fields).insert (ascii "y") (ascii "2"))]

/-- The second row of a table has no value in the column the first one brought, and reading it throws. -/
theorem table_rectangular_hole : ∃ s, Steps.run tableStep (.new (ascii "t")) holeOps = some s ∧
    s.table.hasRow (ascii "b") = true ∧ ascii "x" ∈ s.table.columns ∧
    s.table.getRowField (ascii "b") (ascii "x") = .error ⟨"field not found"⟩ ∧
    s.table.getRowField (ascii "a") (ascii "y") = .ok [] := by
  refine ⟨_, rfl, ?_⟩
  decide +kernel

end Exio
