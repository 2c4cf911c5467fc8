import Exio.TableShape
/-!
# TableCopy — reading a table by copying it

An application polls a table by `copy_field`, `copy_row` or `copy_table` (`Table.cc`), each of which writes into something
the application owns.  `copy_field` assigns.  The other two insert into a `std::map`, and `insert` leaves an entry that is
there as it is: a copy fills the gaps of its destination (`getElem?_copyRow`, `cell_copyTableInto`).

**So a poll is current exactly if the destination does not hold another value of the cell already** (`polls_current_iff`).
-/
namespace Exio

open Sam

/-! ## The reads -/

/-- `AdminInterface::Table`; an `AdminInterface::Row` is `Fields`. -/
abbrev TableCopy := Std.TreeMap Bytes Fields

def DataRow.copyFieldInto (row : DataRow) (fn dest : Bytes) : Bool × Bytes :=
  match row.fields[fn]? with
  | none   => (false, dest)
  | some v => (true, if dest ≠ v then v else dest)

def DataRow.copyRow (row : DataRow) (dest : Fields) : Fields :=
  row.fields.toList.foldl (fun dest f => dest.insertIfNew f.1 f.2) dest

namespace DataTable

/-- `copy_field`: whether the cell is there, and the destination. -/
def copyFieldInto (t : DataTable) (rowkey field dest : Bytes) : Bool × Bytes :=
  match t.rowIndex[rowkey]?.bind fun i => t.rows[i]? with
  | none     => (false, dest)
  | some row => row.copyFieldInto field dest

def copyRow (t : DataTable) (rowkey : Bytes) (dest : Fields) : Fields :=
  match t.rowIndex[rowkey]?.bind fun i => t.rows[i]? with
  | none     => dest
  | some row => row.copyRow dest

/-- `copy_table(AdminInterface::Table&)`: `dest[it->rowkey()]` makes the row if there is none. -/
def copyTableInto (t : DataTable) (dest : TableCopy) : TableCopy :=
  t.rows.foldl (fun dest row => dest.insert row.rowkey (row.copyRow (dest[row.rowkey]?.getD ∅))) dest

end DataTable

/-! ## What a destination holds afterwards -/

theorem getElem?_insertIfNew_or (dest : Fields) (f : Bytes × Bytes) (c : Bytes) :
    (dest.insertIfNew f.1 f.2)[c]? = dest[c]?.or (if f.1 = c then some f.2 else none) := by
  rw [Std.TreeMap.getElem?_insertIfNew]
  by_cases hc : f.1 = c
  · subst hc
    rw [if_pos rfl]
    by_cases hm : f.1 ∈ dest
    · rw [if_neg fun h => h.2 hm, Std.TreeMap.getElem?_eq_some_getElem hm, Option.some_or]
    · rw [if_pos ⟨Std.ReflOrd.compare_self, hm⟩, Std.TreeMap.getElem?_eq_none hm, Option.none_or]
  · rw [if_neg hc, if_neg fun h => compare_ne hc h.1, Option.or_none]

/-- **`copy_row` fills the gaps of a row.** -/
theorem DataRow.getElem?_copyRow (row : DataRow) (dest : Fields) (c : Bytes) :
    (row.copyRow dest)[c]? = dest[c]?.or row.fields[c]? := by
  rw [DataRow.copyRow, KeyIndex.lookup_foldl_keeping (fun dest : Fields => dest[c]?)
    (fun dest f => getElem?_insertIfNew_or dest f c), KeyIndex.findSome?_toList]

/-- A cell of a copied table. -/
def TableCopy.cell (dest : TableCopy) (rowkey c : Bytes) : Option Bytes := dest[rowkey]?.bind fun row => row[c]?

/-- One turn of `copy_table`. -/
theorem cell_copyTable_turn (dest : TableCopy) (row : DataRow) (k c : Bytes) :
    TableCopy.cell (dest.insert row.rowkey (row.copyRow (dest[row.rowkey]?.getD ∅))) k c =
      (dest.cell k c).or (if row.rowkey = k then row.fields[c]? else none) := by
  rw [TableCopy.cell, TableCopy.cell, Std.TreeMap.getElem?_insert]
  by_cases hk : row.rowkey = k
  · subst hk
    rw [if_pos Std.ReflOrd.compare_self, if_pos rfl, Option.bind_some, row.getElem?_copyRow]
    cases dest[row.rowkey]? with
    | none => rw [Option.getD_none, Std.TreeMap.getElem?_emptyc, Option.bind_none]
    | some old => rfl
  · rw [if_neg (compare_ne hk), if_neg hk, Option.or_none]

section

variable {t : DataTable} (h : t.Inv) {row : DataRow} (hrow : row ∈ t.rows)
include h hrow

/-- **`copy_table` fills the gaps of every row.** -/
theorem cell_copyTableInto (dest : TableCopy) (c : Bytes) :
    (t.copyTableInto dest).cell row.rowkey c = (dest.cell row.rowkey c).or row.fields[c]? := by
  rw [DataTable.copyTableInto, KeyIndex.lookup_foldl_keeping (fun dest : TableCopy => dest.cell row.rowkey c)
    (fun dest r => cell_copyTable_turn dest r row.rowkey c),
    KeyIndex.findSome?_of_mem DataRow.rowkey (fun r => r.fields[c]?) h.rows.nodup hrow]

/-- The row behind its key. -/
theorem row_of_key : (t.rowIndex[row.rowkey]?.bind fun i => t.rows[i]?) = some row := by
  obtain ⟨i, hi, rfl⟩ := List.mem_iff_getElem.1 hrow
  have hkey : (t.rows.map DataRow.rowkey)[i]? = some (t.rows[i]).rowkey := by
    rw [List.getElem?_map, List.getElem?_eq_getElem hi, Option.map_some]
  rw [(h.rows.iff _ i).2 hkey, Option.bind_some, List.getElem?_eq_getElem hi]

theorem getElem?_copyRow (dest : Fields) (c : Bytes) :
    (t.copyRow row.rowkey dest)[c]? = dest[c]?.or row.fields[c]? := by
  rw [DataTable.copyRow, row_of_key h hrow]
  exact row.getElem?_copyRow dest c

/-- **`copy_field` assigns.** -/
theorem copyFieldInto_eq {c v : Bytes} (hcell : row.fields[c]? = some v) (dest : Bytes) :
    t.copyFieldInto row.rowkey c dest = (true, v) := by
  rw [DataTable.copyFieldInto, row_of_key h hrow]
  simp only [DataRow.copyFieldInto, hcell]
  by_cases hd : dest ≠ v
  · rw [if_pos hd]
  · rw [if_neg hd, not_not.1 hd]

end

/-! ## Polling -/

/-- **The three reads of a cell return its current value `v`**, into a row and a table that hold what they hold. -/
structure PollsCurrent (t : DataTable) (k c v : Bytes) (row : Fields) (table : TableCopy) : Prop where
  copyRow   : (t.copyRow k row)[c]? = some v
  copyTable : (t.copyTableInto table).cell k c = some v
  copyField : ∀ dest, t.copyFieldInto k c dest = (true, v)

theorem or_eq_some_iff (old : Option Bytes) (v : Bytes) : old.or (some v) = some v ↔ ∀ w, old = some w → w = v := by
  cases old with
  | none => simp
  | some w => simp

/-- **When polling reads are current**: the destinations hold nothing for the cell, or its value. -/
theorem polls_current_iff (tableName : Bytes) {s : TableServer}
    (hrun : Steps.Reaches tableStep Steps.Always (.new tableName) s) {row : DataRow} (hrow : row ∈ s.table.rows)
    {c v : Bytes} (hcell : row.fields[c]? = some v) (dest : Fields) (table : TableCopy) :
    PollsCurrent s.table row.rowkey c v dest table ↔
      (∀ old, dest[c]? = some old → old = v) ∧ ∀ old, table.cell row.rowkey c = some old → old = v := by
  have hinv := TableServer.inv_of_reaches hrun
  have hcopyRow := getElem?_copyRow hinv hrow dest c
  have hcopyTable := cell_copyTableInto hinv hrow table c
  rw [hcell] at hcopyRow hcopyTable
  constructor
  · intro hpoll
    exact ⟨(or_eq_some_iff _ v).1 (hcopyRow ▸ hpoll.copyRow), (or_eq_some_iff _ v).1 (hcopyTable ▸ hpoll.copyTable)⟩
  · rintro ⟨hdest, htable⟩
    refine ⟨?_, ?_, copyFieldInto_eq hinv hrow hcell⟩
    · rw [hcopyRow]
      exact (or_eq_some_iff _ v).2 hdest
    · rw [hcopyTable]
      exact (or_eq_some_iff _ v).2 htable

/-- A cell that is written twice. -/
def pollOps : List TableOp :=
  [.updateRow (fun _ => ascii "now") (ascii "a") ((∅ : Fields).insert (ascii "x") (ascii "1")),
    .updateRow (fun _ => ascii "later") (ascii "a") ((∅ : Fields).insert (ascii "x") (ascii "2"))]

/-- Into an empty row, and into a table whose row `a` has another cell. -/
theorem polls_current_iff_sample : ∃ s row, Steps.run tableStep (.new (ascii "t")) pollOps = some s ∧
    s.table.rows = [row] ∧ row.rowkey = ascii "a" ∧
    PollsCurrent s.table row.rowkey (ascii "x") (ascii "2") ∅
      ((∅ : TableCopy).insert (ascii "a") ((∅ : Fields).insert (ascii "y") (ascii "0"))) := by
  refine ⟨_, _, rfl, rfl, rfl, ?_⟩
  refine (polls_current_iff (ascii "t") (Steps.reaches_of_run pollOps rfl) (List.mem_singleton.2 rfl) ?_ _ _).2 ⟨?_, ?_⟩
  · decide +kernel
  · exact (or_eq_some_iff _ _).1 (by decide +kernel)
  · exact (or_eq_some_iff _ _).1 (by decide +kernel)

/-- **A destination that is used again stays as it was**: `x` is polled as `1`, becomes `2`, and is polled as `1`. -/
theorem polls_stale : ∃ s₁ s₂, Steps.run tableStep (.new (ascii "t")) (pollOps.take 1) = some s₁ ∧
    Steps.run tableStep s₁ (pollOps.drop 1) = some s₂ ∧
    s₂.table.copyFieldInto (ascii "a") (ascii "x") [] = (true, ascii "2") ∧
    (s₂.table.copyRow (ascii "a") (s₁.table.copyRow (ascii "a") ∅))[ascii "x"]? = some (ascii "1") ∧
    (s₂.table.copyTableInto (s₁.table.copyTableInto ∅)).cell (ascii "a") (ascii "x") = some (ascii "1") := by
  refine ⟨_, _, rfl, rfl, ?_⟩
  decide +kernel

end Exio
