import Exio.TableShape
/-!
# TableUpdate — what `update_row` changes, and what it leaves alone

One call may create its row, create columns and with them an empty cell in every row, and then write its fields; each of
these raises events and moves `RowLastUpdated`.  `RowUpdate` is the frame: the fields in the one row, the empty string in
the new columns of the others, and nothing else.  A second call finds row, columns and values as it wants them, and does
nothing at all (`updateRow_again`).
-/
namespace Exio

open Sam Replica

/-- **What a call of `update_row` may change**, apart from `RowLastUpdated`. -/
structure RowUpdate (t t' : DataTable) (rowkey : Bytes) (fields : Fields) : Prop where
  /-- The fields that are not reserved are in the row. -/
  written   : ∀ c v, ¬ reserved c = true → fields[c]? = some v → t'.copyField rowkey c = some v
  /-- Every other cell of the row is as it was. -/
  unwritten : t.hasRow rowkey = true → ∀ c, c ≠ Id.rowLast → (reserved c = true ∨ fields[c]? = none) →
    t'.copyField rowkey c = t.copyField rowkey c
  /-- A row that was created has its key, and no other cell. -/
  created   : ¬ t.hasRow rowkey = true → ∀ c, c ≠ Id.rowLast → (reserved c = true ∨ fields[c]? = none) →
    t'.copyField rowkey c = if c = Id.rowKey then some rowkey else none
  /-- No other row comes or goes. -/
  others    : ∀ k, k ≠ rowkey → (t'.hasRow k = true ↔ t.hasRow k = true)
  /-- Another row keeps its cells. -/
  kept      : ∀ k c v, k ≠ rowkey → c ≠ Id.rowLast → t.copyField k c = some v → t'.copyField k c = some v
  /-- Another row gets the new columns with the empty string, and no other cell. -/
  filled    : ∀ k c, k ≠ rowkey → c ≠ Id.rowLast → t.hasRow k = true → t.copyField k c = none →
    t'.copyField k c = if c ∈ columnNames fields ∧ c ∉ t.columns then some [] else none
  /-- Without a new column another row stays as it is. -/
  still     : (∀ c ∈ columnNames fields, c ∈ t.columns) → ∀ (i : Nat) (row : DataRow), t.rows[i]? = some row →
    row.rowkey ≠ rowkey → t'.rows[i]? = some row

/-! ## The second call -/

namespace DataTable

theorem foldl_addColumn_of_subset {t : DataTable} (h : t.Inv) (clock : Nat → Bytes) (events : List TableEvent) :
    ∀ (cols : List Bytes), (∀ c ∈ cols, c ∈ t.columns) → cols.foldl (addColumn clock) (t, events) = (t, events)
  | [], _ => rfl
  | c :: cols, hm => by
    rw [List.foldl_cons, addColumn_of_mem h clock events (hm c List.mem_cons_self)]
    exact foldl_addColumn_of_subset h clock events cols fun c' hc' => hm c' (List.mem_cons_of_mem c hc')

/-- `update_row` where no column is new. -/
theorem prepareRow_of_subset {t : DataTable} (h : t.Inv) (clock : Nat → Bytes) (rowkey : Bytes) {fields : Fields}
    (hcols : ∀ c ∈ columnNames fields, c ∈ t.columns) :
    t.prepareRow clock rowkey fields = if t.hasRow rowkey then (t, []) else t.addRow rowkey [] := by
  unfold prepareRow
  split
  · exact foldl_addColumn_of_subset h clock [] _ hcols
  · rename_i hnew
    exact foldl_addColumn_of_subset (addRow_tracked (.start h) hnew).inv clock _ _ hcols

/-- **A call that finds everything as it wants it does nothing.** -/
theorem updateRow_same {t : DataTable} (h : t.Inv) (clock : Nat → Bytes) {rowkey : Bytes} {fields : Fields}
    (hrow : t.hasRow rowkey = true) (hcols : ∀ c ∈ columnNames fields, c ∈ t.columns)
    (hvals : ∀ c v, ¬ reserved c = true → fields[c]? = some v → t.copyField rowkey c = some v) :
    t.updateRow clock rowkey fields = (t, []) := by
  obtain ⟨i, row, hi, hat, hkey⟩ := exists_row h hrow
  have hsame : ∀ c v, ¬ reserved c = true → fields[c]? = some v → row.fields[c]? = some v := by
    intro c v hc hv
    rw [← copyField_row h (List.mem_of_getElem? hat), hkey]
    exact hvals c v hc hv
  rw [updateRow_eq, prepareRow_of_subset h clock rowkey hcols, if_pos hrow]
  unfold updateRowAt
  simp only [hi, Option.getD_some, hat, row.updateFields_same hsame]
  obtain ⟨hlt, rfl⟩ := List.getElem?_eq_some_iff.1 hat
  rw [List.set_getElem_self]

end DataTable

section

variable {t : DataTable} (h : t.Inv) (clock : Nat → Bytes) (rowkey : Bytes) (fields : Fields)
include h

theorem copyField_updateRow_written {c v : Bytes} (hc : ¬ reserved c = true) (hv : fields[c]? = some v) :
    (t.updateRow clock rowkey fields).1.copyField rowkey c = some v := by
  rw [DataTable.copyField_updateRow h clock rowkey fields rowkey hc, if_pos rfl, hv, Option.some_or]

/-- **The second call changes nothing and raises nothing**, whatever the time. -/
theorem updateRow_again (clock' : Nat → Bytes) :
    (t.updateRow clock rowkey fields).1.updateRow clock' rowkey fields = ((t.updateRow clock rowkey fields).1, []) := by
  refine DataTable.updateRow_same (updateRow_tracked h clock rowkey fields).inv clock' ?_ ?_ ?_
  · exact (DataTable.hasRow_updateRow h clock rowkey fields rowkey).2 (.inl rfl)
  · exact fun c hc => (DataTable.mem_columns_updateRow h clock rowkey fields c).2 (.inl hc)
  · exact fun c v hc hv => copyField_updateRow_written h clock rowkey fields hc hv

end

/-! ## The first call -/

/-- The cell `RowKey` of a row is its key. -/
theorem DataTable.Inv.copyField_rowKey {t : DataTable} (h : t.Inv) (k : Bytes) :
    t.copyField k Id.rowKey = if t.hasRow k = true then some k else none := by
  by_cases hk : t.hasRow k = true
  · obtain ⟨i, row, -, hrow, rfl⟩ := DataTable.exists_row h hk
    rw [if_pos hk, DataTable.copyField_row h (List.mem_of_getElem? hrow)]
    exact h.keyed row (List.mem_of_getElem? hrow)
  · rw [if_neg hk, DataTable.copyField_of_not_hasRow hk]

/-- A column that may be asked for is `RowKey`, or not reserved. -/
theorem rowKey_or_not_reserved {c : Bytes} (hc : c ≠ Id.rowLast) : c = Id.rowKey ∨ ¬ reserved c = true := by
  by_cases hk : c = Id.rowKey
  · exact .inl hk
  · exact .inr (by simp [reserved, hk, hc])

/-- Rows at their places, where no column is new. -/
theorem updateRow_still {t : DataTable} (h : t.Inv) (clock : Nat → Bytes) (rowkey : Bytes) {fields : Fields}
    (hcols : ∀ c ∈ columnNames fields, c ∈ t.columns) {i : Nat} {row : DataRow} (hrow : t.rows[i]? = some row)
    (hne : row.rowkey ≠ rowkey) : (t.updateRow clock rowkey fields).1.rows[i]? = some row := by
  have hinv := (withRow_tracked h rowkey).inv
  obtain ⟨j, row', hj, hrow', hkey⟩ := DataTable.exists_row hinv ((DataTable.hasRow_withRow h rowkey rowkey).2 (.inl rfl))
  -- the row stands where it stood, with or without a new row behind it
  have hat : (if t.hasRow rowkey then (t, []) else t.addRow rowkey []).1.rows[i]? = some row := by
    split
    · exact hrow
    · exact List.getElem?_append_left (List.getElem?_eq_some_iff.1 hrow).1 ▸ hrow
  have hij : j ≠ i := by
    rintro rfl
    rw [hat] at hrow'
    cases hrow'
    exact hne hkey
  rw [DataTable.updateRow_eq, DataTable.prepareRow_of_subset h clock rowkey hcols]
  unfold DataTable.updateRowAt
  simp only [hj, Option.getD_some, hrow', List.getElem?_set_ne hij]
  exact hat

theorem updateRow_rowUpdate {t : DataTable} (h : t.Inv) (hcells : CellsInColumns t) (clock : Nat → Bytes) (rowkey : Bytes)
    (fields : Fields) : RowUpdate t (t.updateRow clock rowkey fields).1 rowkey fields := by
  have h' := (updateRow_tracked h clock rowkey fields).inv
  have hrow := DataTable.hasRow_updateRow h clock rowkey fields
  have hcell := fun k {c} => DataTable.copyField_updateRow h clock rowkey fields k (c := c)
  have hold : ∀ {c}, ¬ reserved c = true → (reserved c = true ∨ fields[c]? = none) →
      (t.updateRow clock rowkey fields).1.copyField rowkey c = t.copyField rowkey c := by
    intro c hc hf
    rw [hcell rowkey hc, if_pos rfl, hf.resolve_left hc, Option.none_or]
  refine ⟨fun c v hc hv => copyField_updateRow_written h clock rowkey fields hc hv, fun hk c hl hf => ?_,
    fun hk c hl hf => ?_, fun k hk => ?_, fun k c v hk hl hv => ?_, fun k c hk hl hkrow hv => ?_,
    fun hcols i row hat hne => updateRow_still h clock rowkey hcols hat hne⟩
  · rcases rowKey_or_not_reserved hl with rfl | hc
    · rw [h'.copyField_rowKey, h.copyField_rowKey, if_pos ((hrow rowkey).2 (.inl rfl)), if_pos hk]
    · exact hold hc hf
  · rcases rowKey_or_not_reserved hl with rfl | hc
    · rw [h'.copyField_rowKey, if_pos ((hrow rowkey).2 (.inl rfl)), if_pos rfl]
    · rw [hold hc hf, DataTable.copyField_of_not_hasRow hk, if_neg (not_reserved hc).1]
  · rw [hrow k]
    exact or_iff_right hk
  · rcases rowKey_or_not_reserved hl with rfl | hc
    · rw [h.copyField_rowKey] at hv
      rw [h'.copyField_rowKey]
      split at hv
      · rename_i hkrow
        rw [if_pos ((hrow k).2 (.inr hkrow))]
        exact hv
      · cases hv
    · -- a cell stands in a column, so it is not one of the new ones
      have hm : c ∈ t.columns := hcells.copyField h hc (by rw [hv]; rfl)
      rw [hcell k hc, if_neg hk, if_neg (fun hh => hh.1.2 hm)]
      exact hv
  · rcases rowKey_or_not_reserved hl with rfl | hc
    · rw [h.copyField_rowKey, if_pos hkrow] at hv
      cases hv
    · rw [hcell k hc, if_neg hk, hv]
      simp only [hkrow, and_true]

/-- **`update_row` changes only what it should, and only once.** -/
theorem update_row_frame (tableName : Bytes) {s : TableServer}
    (hrun : Steps.Reaches tableStep Steps.Always (.new tableName) s) (clock : Nat → Bytes) (rowkey : Bytes)
    (fields : Fields) :
    (∀ clock', ((s.exec (.updateRow clock rowkey fields)).1.exec (.updateRow clock' rowkey fields)).1 =
      (s.exec (.updateRow clock rowkey fields)).1) ∧
    (∀ clock', ((s.exec (.updateRow clock rowkey fields)).1.table.updateRow clock' rowkey fields).2 = []) ∧
    RowUpdate s.table (s.exec (.updateRow clock rowkey fields)).1.table rowkey fields := by
  have hinv := TableServer.inv_of_reaches hrun
  have htable : (s.exec (.updateRow clock rowkey fields)).1.table = (s.table.updateRow clock rowkey fields).1 :=
    s.commit_table _
  refine ⟨fun clock' => ?_, fun clock' => ?_, ?_⟩
  · have hagain := updateRow_again hinv clock rowkey fields clock'
    rw [← htable] at hagain
    show TableServer.commit _ (DataTable.updateRow _ clock' rowkey fields) = _
    rw [hagain]
    rfl
  · rw [htable, updateRow_again hinv clock rowkey fields clock']
  · rw [htable]
    exact updateRow_rowUpdate hinv (cellsInColumns_of_reaches hrun) clock rowkey fields

theorem update_row_frame_sample : ∃ s, Steps.run tableStep (.new (ascii "t")) shapeOps = some s ∧
    RowUpdate s.table (s.exec (.updateRow (fun _ => ascii "now") (ascii "a") ((∅ : Fields).insert (ascii "u") []))).1.table
      (ascii "a") ((∅ : Fields).insert (ascii "u") []) :=
  ⟨_, rfl, (update_row_frame (ascii "t") (Steps.reaches_of_run shapeOps rfl) _ _ _).2.2⟩

end Exio
