import Mathlib.Data.List.InsertIdx
import Exio.KeyIndex
import Exio.Replica
import Exio.Sam
/-!
# Table — a table of rows, and the events its operations raise

A `DataTable` (`Table.cc`) is a vector of rows, each a map from columns to values, and a vector of columns; both vectors
have a map of positions.  An operation works on the table and raises a list of events, of which the cell changes carry
what was written.  The columns `RowKey` and `RowLastUpdated` are reserved: the first is the row's key, the second is
written by the row itself, from the clock, whenever another cell changes.

The clock is arbitrary: `clock i` is what it shows when event number `i` of an operation is raised.

The cells of a table are those of its rows except `RowKey`.  **Every operation's events account for what it did to the
cells** (`Tracked`): the new cells are the old ones with the events' deltas applied in order.
-/
namespace Exio

open Sam Replica
open KeyIndex (Indexed)

namespace Id

def rowKey  : Bytes := ascii "RowKey"
def rowLast : Bytes := ascii "RowLastUpdated"

end Id

/-- `std::map<std::string, std::string>`; strings are ordered by their bytes. -/
abbrev Fields := Std.TreeMap Bytes Bytes

abbrev TableCells := Cells Bytes Bytes Bytes

/-! ## Rows and events -/

inductive TableEvent where
  | newRow (tableName rowKey : Bytes)
  | newColumn (tableName column : Bytes)
  | rowMultiUpdate (tableName rowKey : Bytes) (fields : Fields)
  | tableCleared (tableName : Bytes)
  | rowRemoved (tableName rowKey : Bytes)
  | pcmd (tableName rowKey column : Bytes) (info : TxContainer)

structure DataRow where
  rowkey    : Bytes
  tableName : Bytes
  fields    : Fields

def DataRow.new (rowkey tableName : Bytes) : DataRow := ⟨rowkey, tableName, (∅ : Fields).insert Id.rowKey rowkey⟩

/-- The columns that cannot be written from outside. -/
def reserved (name : Bytes) : Bool := name == Id.rowKey || name == Id.rowLast

/-- One turn of the loop of `update_fields`: the row's fields, and those of the event once there is one. -/
def updateField (acc : Fields × Option Fields) (up : Bytes × Bytes) : Fields × Option Fields :=
  if reserved up.1 then acc
  else if acc.1[up.1]? = some up.2 then acc
  else (acc.1.insert up.1 up.2, some ((acc.2.getD ∅).insert up.1 up.2))

def DataRow.updateFields (row : DataRow) (fields : Fields) (clock : Nat → Bytes) (events : List TableEvent) :
    DataRow × List TableEvent :=
  match fields.toList.foldl updateField (row.fields, none) with
  | (ours, none)    => ({ row with fields := ours }, events)
  | (ours, some ev) =>
    let timestring := clock events.length
    ({ row with fields := ours.insert Id.rowLast timestring },
      events ++ [.rowMultiUpdate row.tableName row.rowkey (ev.insert Id.rowLast timestring)])

/-! ## The table and its operations -/

/-- `m_batchsize`: the number of rows a snapshot message gets, at least one. -/
structure BatchSize where
  rows : Nat
  pos  : 0 < rows

def BatchSize.initial : BatchSize := ⟨500, by decide⟩

/-- `std::max(1, batchsize/2)`. -/
def BatchSize.half (b : BatchSize) : BatchSize := ⟨max 1 (b.rows / 2), by omega⟩

structure DataTable where
  tableName   : Bytes
  columns     : List Bytes
  columnIndex : Std.TreeMap Bytes Nat
  rows        : List DataRow
  rowIndex    : Std.TreeMap Bytes Nat
  subscribers : List Nat
  columnAttrs : Std.TreeMap Bytes (List TxContainer)
  /-- The metadata of the cells, by row and column; the row or column may not exist. -/
  pcmd        : Std.TreeMap Bytes (Std.TreeMap Bytes TxContainer)
  batchsize   : BatchSize

namespace DataTable

def new (tableName : Bytes) : DataTable := ⟨tableName, [], ∅, [], ∅, [], ∅, ∅, .initial⟩

def hasRow (t : DataTable) (rowkey : Bytes) : Bool := t.rowIndex[rowkey]?.isSome

def addRow (t : DataTable) (rowkey : Bytes) (events : List TableEvent) : DataTable × List TableEvent :=
  let rows := t.rows ++ [.new rowkey t.tableName]
  ({ t with rows := rows, rowIndex := KeyIndex.rebuild (rows.map DataRow.rowkey) },
    events ++ [.newRow t.tableName rowkey])

/-- The loop of `add_column_NOLOCK`: `update_fields` on every row. -/
def updateRows (fields : Fields) (clock : Nat → Bytes) : List DataRow → List TableEvent → List DataRow × List TableEvent
  | [], events          => ([], events)
  | row :: rows, events =>
    let (row, events) := row.updateFields fields clock events
    let (rows, events) := updateRows fields clock rows events
    (row :: rows, events)

/-- `add_column_NOLOCK`: a new column gets the empty string in every row. -/
def addColumn (clock : Nat → Bytes) (s : DataTable × List TableEvent) (column : Bytes) : DataTable × List TableEvent :=
  let (t, events) := s
  if t.columnIndex[column]?.isSome then s
  else
    let columns := t.columns ++ [column]
    let (rows, events) := updateRows ((∅ : Fields).insert column []) clock t.rows
      (events ++ [.newColumn t.tableName column])
    ({ t with columns := columns, columnIndex := KeyIndex.rebuild columns, rows := rows }, events)

def addColumns (t : DataTable) (clock : Nat → Bytes) (cols : List Bytes) : DataTable × List TableEvent :=
  cols.foldl (addColumn clock) (t, [])

/-- `m_rows[ m_row_index[ rowkey ] ].update_fields(fields, events)`. -/
def updateRowAt (t : DataTable) (clock : Nat → Bytes) (rowkey : Bytes) (fields : Fields) (events : List TableEvent) :
    DataTable × List TableEvent :=
  let i := t.rowIndex[rowkey]?.getD 0
  match t.rows[i]? with
  | none     => (t, events)
  | some row =>
    let (row, events) := row.updateFields fields clock events
    ({ t with rows := t.rows.set i row }, events)

def updateRow (t : DataTable) (clock : Nat → Bytes) (rowkey : Bytes) (fields : Fields) : DataTable × List TableEvent :=
  let s := if t.hasRow rowkey then (t, []) else t.addRow rowkey []
  let s := fields.toList.foldl (fun s f => if reserved f.1 then s else addColumn clock s f.1) s
  s.1.updateRowAt clock rowkey fields s.2

def clearTable (t : DataTable) : DataTable × List TableEvent :=
  ({ t with rows := [], rowIndex := ∅ }, [.tableCleared t.tableName])

def deleteRow (t : DataTable) (rowkey : Bytes) : DataTable × List TableEvent :=
  match t.rowIndex[rowkey]? with
  | none       => (t, [])
  | some index =>
    ({ t with rows := t.rows.eraseIdx index, rowIndex := KeyIndex.remove t.rowIndex rowkey index },
      [.rowRemoved t.tableName rowkey])

/-- The stored copy is renamed; the event takes the metadata as it was passed. -/
def updateMeta (t : DataTable) (rowkey fieldname : Bytes) (info : TxContainer) : DataTable × List TableEvent :=
  let metaForCol := (t.pcmd[rowkey]?.getD ∅).insert fieldname { info with name := ascii ".meta." ++ fieldname }
  ({ t with pcmd := t.pcmd.insert rowkey metaForCol }, [.pcmd t.tableName rowkey fieldname info])

def addColumnAttr (t : DataTable) (column : Bytes) (attr : TxContainer) : DataTable :=
  { t with columnAttrs := t.columnAttrs.insert column ((t.columnAttrs[column]?.getD []) ++ [attr]) }

/-- The new entry of `m_subscribers`. -/
def subscribe (t : DataTable) (sid : Nat) : DataTable := { t with subscribers := t.subscribers ++ [sid] }

/-- `del_subscriber` takes the first entry of the session. -/
def delSubscriber (t : DataTable) (sid : Nat) : DataTable := { t with subscribers := t.subscribers.erase sid }

/-- `copy_field`: the value of a cell, looked up through the row index. -/
def copyField (t : DataTable) (rowkey field : Bytes) : Option Bytes :=
  (t.rowIndex[rowkey]?.bind fun i => t.rows[i]?).bind fun row => row.fields[field]?

end DataTable

/-! ## What an update changes in a row -/

/-- The loop's state against the fields it began with: the event holds what differs, and never the row's key. -/
structure Changed (base : Fields) (acc : Fields × Option Fields) : Prop where
  same   : acc.2 = none → acc.1 = base
  fields : ∀ c : Bytes, acc.1[c]? = (acc.2.getD ∅)[c]?.or base[c]?
  key    : (acc.2.getD ∅)[Id.rowKey]? = none

theorem Changed.insert {base ours ev : Fields} (h : Changed base (ours, some ev)) {name : Bytes}
    (hname : name ≠ Id.rowKey) (v : Bytes) : Changed base (ours.insert name v, some (ev.insert name v)) := by
  refine ⟨fun he => by simp at he, fun c => ?_, ?_⟩
  · have := h.fields c
    simp only [Option.getD_some] at this ⊢
    rw [Std.TreeMap.getElem?_insert, Std.TreeMap.getElem?_insert]
    split
    · rfl
    · exact this
  · have := h.key
    simp only [Option.getD_some] at this ⊢
    rw [Std.TreeMap.getElem?_insert, if_neg (fun he => hname (Std.LawfulEqOrd.compare_eq_iff_eq.1 he))]
    exact this

/-- An event without fields says the same as no event yet. -/
theorem Changed.start {base : Fields} {acc : Fields × Option Fields} (h : Changed base acc) :
    Changed base (acc.1, some (acc.2.getD ∅)) :=
  ⟨fun he => by simp at he, h.fields, h.key⟩

theorem not_reserved {name : Bytes} (h : ¬ reserved name = true) : name ≠ Id.rowKey ∧ name ≠ Id.rowLast := by
  simpa [reserved, not_or] using h

theorem updateField_changed {base : Fields} {acc : Fields × Option Fields} (h : Changed base acc) (up : Bytes × Bytes) :
    Changed base (updateField acc up) := by
  unfold updateField
  split
  · exact h
  · rename_i hr
    split
    · exact h
    · exact h.start.insert (not_reserved hr).1 up.2

theorem foldl_updateField_changed {base : Fields} : ∀ (ups : List (Bytes × Bytes)) {acc : Fields × Option Fields},
    Changed base acc → Changed base (ups.foldl updateField acc)
  | [], _, h => h
  | up :: ups, _, h => foldl_updateField_changed ups (updateField_changed h up)

/-- **What `update_fields` does**: nothing, or one event that carries every changed field and never the row's key. -/
theorem DataRow.updateFields_cases (row : DataRow) (fields : Fields) (clock : Nat → Bytes) (events : List TableEvent) :
    row.updateFields fields clock events = (row, events) ∨
    ∃ ours ev, row.updateFields fields clock events =
        ({ row with fields := ours }, events ++ [.rowMultiUpdate row.tableName row.rowkey ev]) ∧
      Changed row.fields (ours, some ev) := by
  have h0 : Changed row.fields (row.fields, none) := ⟨fun _ => rfl, fun c => by simp, by simp⟩
  have h := foldl_updateField_changed fields.toList h0
  unfold DataRow.updateFields
  rcases hfold : fields.toList.foldl updateField (row.fields, none) with ⟨ours, ev⟩
  rw [hfold] at h
  cases ev with
  | none =>
    have : ours = row.fields := h.same rfl
    subst this
    exact .inl rfl
  | some ev => exact .inr ⟨_, _, rfl, h.insert (by decide) (clock events.length)⟩

theorem foldl_updateField_same : ∀ (ups : List (Bytes × Bytes)) (acc : Fields × Option Fields),
    (∀ up ∈ ups, reserved up.1 = true ∨ acc.1[up.1]? = some up.2) → ups.foldl updateField acc = acc
  | [], _, _ => rfl
  | up :: ups, acc, h => by
    obtain ⟨hup, hrest⟩ := List.forall_mem_cons.1 h
    have hstep : updateField acc up = acc := by
      rcases hup with hr | hv
      · rw [updateField, if_pos hr]
      · rw [updateField, if_pos hv, ite_self]
    rw [List.foldl_cons, hstep, foldl_updateField_same ups acc hrest]

/-- A row that has the values already. -/
theorem DataRow.updateFields_same (row : DataRow) {fields : Fields}
    (h : ∀ c v, ¬ reserved c = true → fields[c]? = some v → row.fields[c]? = some v) (clock : Nat → Bytes)
    (events : List TableEvent) : row.updateFields fields clock events = (row, events) := by
  unfold DataRow.updateFields
  rw [foldl_updateField_same]
  rintro ⟨c, v⟩ hup
  by_cases hc : reserved c = true
  · exact .inl hc
  · exact .inr (h c v hc (Std.TreeMap.mem_toList_iff_getElem?_eq_some.1 hup))

theorem DataRow.updateFields_rowkey (row : DataRow) (fields : Fields) (clock : Nat → Bytes) (events : List TableEvent) :
    (row.updateFields fields clock events).1.rowkey = row.rowkey := by
  rcases row.updateFields_cases fields clock events with h | ⟨ours, ev, h, -⟩ <;> rw [h]

/-! ## Cells and deltas -/

/-- A row's cells, apart from its key. -/
def cellsOfFields (fields : Fields) : Bytes → Option Bytes := fun c => if c = Id.rowKey then none else fields[c]?

def DataRow.keyed (row : DataRow) : Bytes × (Bytes → Option Bytes) := (row.rowkey, cellsOfFields row.fields)

def rowCells (rows : List DataRow) : TableCells := cellsOf (rows.map DataRow.keyed)

/-- What an event says about the cells. -/
def TableEvent.deltas : TableEvent → List (Delta Bytes Bytes Bytes)
  | .rowMultiUpdate _ k fields => [.write k (cellsOfFields fields)]
  | .tableCleared _            => [.clear]
  | _                          => []

/-- The fields of an update do not name a row key of their own. -/
def TableEvent.KeyFree : TableEvent → Prop
  | .rowMultiUpdate _ _ fields => fields[Id.rowKey]? = none
  | _                          => True

/-- The events' deltas, applied in order. -/
def applyEvents (r : TableCells) (events : List TableEvent) : TableCells :=
  (events.flatMap TableEvent.deltas).foldl Cells.apply r

theorem applyEvents_append (r : TableCells) (events : List TableEvent) (e : TableEvent) :
    applyEvents r (events ++ [e]) = e.deltas.foldl Cells.apply (applyEvents r events) := by
  simp [applyEvents]

/-- **Rows and the events that led to them from the cells `r`.** -/
structure RowsTracked (r : TableCells) (rows : List DataRow) (events : List TableEvent) : Prop where
  nodup : (rows.map DataRow.rowkey).Nodup
  keyed : ∀ row ∈ rows, row.fields[Id.rowKey]? = some row.rowkey
  cells : rowCells rows = applyEvents r events
  free  : ∀ e ∈ events, e.KeyFree

theorem map_keyed_fst (rows : List DataRow) : (rows.map DataRow.keyed).map Prod.fst = rows.map DataRow.rowkey := by
  rw [List.map_map]
  rfl

/-- An event without deltas changes nothing. -/
theorem RowsTracked.silent {r : TableCells} {rows : List DataRow} {events : List TableEvent}
    (h : RowsTracked r rows events) {e : TableEvent} (he : e.deltas = []) (hfree : e.KeyFree) :
    RowsTracked r rows (events ++ [e]) := by
  refine ⟨h.nodup, h.keyed, ?_, List.forall_mem_append.2 ⟨h.free, List.forall_mem_singleton.2 hfree⟩⟩
  rw [applyEvents_append, he]
  exact h.cells

theorem RowsTracked.updateFields {r : TableCells} {pre post : List DataRow} {row : DataRow} {events : List TableEvent}
    (h : RowsTracked r (pre ++ row :: post) events) (fields : Fields) (clock : Nat → Bytes) :
    RowsTracked r (pre ++ (row.updateFields fields clock events).1 :: post)
      (row.updateFields fields clock events).2 := by
  rcases row.updateFields_cases fields clock events with he | ⟨ours, ev, he, hch⟩
  · rw [he]
    exact h
  · rw [he]
    have hnodup := h.nodup
    simp only [List.map_append, List.map_cons] at hnodup
    refine ⟨?_, fun row' hrow' => ?_, ?_, List.forall_mem_append.2 ⟨h.free, List.forall_mem_singleton.2 hch.key⟩⟩
    · simpa only [List.map_append, List.map_cons] using hnodup
    · rcases List.mem_append.1 hrow' with hm | hm
      · exact h.keyed row' (List.mem_append_left _ hm)
      · rcases List.mem_cons.1 hm with rfl | hm
        · have hkey := hch.key
          rw [Option.getD_some] at hkey
          rw [hch.fields, Option.getD_some, hkey, Option.none_or]
          exact h.keyed row (List.mem_append_right _ List.mem_cons_self)
        · exact h.keyed row' (List.mem_append_right _ (List.mem_cons_of_mem _ hm))
    · have hcells : ∀ c, cellsOfFields ours c = (cellsOfFields ev c).or (cellsOfFields row.fields c) := fun c => by
        unfold cellsOfFields
        split
        · rfl
        · exact hch.fields c
      have hk : row.rowkey ∉ (pre.map DataRow.keyed).map Prod.fst := by
        rw [map_keyed_fst]
        exact fun hm => List.disjoint_of_nodup_append hnodup hm List.mem_cons_self
      rw [applyEvents_append, ← h.cells]
      simp only [rowCells, List.map_append, List.map_cons]
      exact cellsOf_modify hcells (post.map DataRow.keyed) (pre.map DataRow.keyed) hk

theorem updateRows_keys (fields : Fields) (clock : Nat → Bytes) : ∀ (rows : List DataRow) (events : List TableEvent),
    (DataTable.updateRows fields clock rows events).1.map DataRow.rowkey = rows.map DataRow.rowkey
  | [], _ => rfl
  | row :: rows, events => by
    have ih := updateRows_keys fields clock rows (row.updateFields fields clock events).2
    simp only [DataTable.updateRows, List.map_cons]
    rw [ih, row.updateFields_rowkey]

/-- **The loop over the rows**: the rows before the current one are done. -/
theorem RowsTracked.updateRows {r : TableCells} (fields : Fields) (clock : Nat → Bytes) :
    ∀ (rows pre : List DataRow) {events : List TableEvent}, RowsTracked r (pre ++ rows) events →
    RowsTracked r (pre ++ (DataTable.updateRows fields clock rows events).1)
      (DataTable.updateRows fields clock rows events).2
  | [], _, _, h => h
  | row :: rows, pre, events, h => by
    have h1 := h.updateFields fields clock
    rw [List.append_cons] at h1
    have h2 := RowsTracked.updateRows fields clock rows (pre ++ [(row.updateFields fields clock events).1]) h1
    rw [List.append_assoc, List.singleton_append] at h2
    exact h2

/-! ## The operations keep the table's two indexes, and their events account for the cells -/

/-- **The representation**: both indexes are exact, and every row holds its key. -/
structure DataTable.Inv (t : DataTable) : Prop where
  rows    : Indexed (t.rows.map DataRow.rowkey) t.rowIndex
  columns : Indexed t.columns t.columnIndex
  keyed   : ∀ row ∈ t.rows, row.fields[Id.rowKey]? = some row.rowkey

def DataTable.cells (t : DataTable) : TableCells := rowCells t.rows

/-- A table and the events raised on the way to it from the table `t₀`; the subscribers stay. -/
structure Tracked (t₀ : DataTable) (s : DataTable × List TableEvent) : Prop where
  inv   : s.1.Inv
  cells : s.1.cells = applyEvents t₀.cells s.2
  free  : ∀ e ∈ s.2, e.KeyFree
  subs  : s.1.subscribers = t₀.subscribers

theorem DataTable.new_inv (tableName : Bytes) : (DataTable.new tableName).Inv :=
  ⟨.empty, .empty, fun _ h => by cases h⟩

theorem Tracked.start {t : DataTable} (h : t.Inv) : Tracked t (t, []) :=
  ⟨h, rfl, (fun _ he => by cases he), rfl⟩

theorem Tracked.rows {t₀ t : DataTable} {events : List TableEvent} (h : Tracked t₀ (t, events)) :
    RowsTracked t₀.cells t.rows events := ⟨h.inv.rows.nodup, h.inv.keyed, h.cells, h.free⟩

/-- New rows under the same keys. -/
theorem Tracked.withRows {t₀ t : DataTable} {events events' : List TableEvent} {rows' : List DataRow}
    (h : Tracked t₀ (t, events)) (hkeys : rows'.map DataRow.rowkey = t.rows.map DataRow.rowkey)
    (hrows : RowsTracked t₀.cells rows' events') : Tracked t₀ ({ t with rows := rows' }, events') := by
  refine ⟨⟨?_, h.inv.columns, hrows.keyed⟩, hrows.cells, hrows.free, h.subs⟩
  show Indexed (rows'.map DataRow.rowkey) t.rowIndex
  rw [hkeys]
  exact h.inv.rows

/-- **Lookups through the index read the cells.** -/
theorem DataTable.Inv.copyField_eq {t : DataTable} (h : t.Inv) (k c : Bytes) (hc : c ≠ Id.rowKey) :
    t.copyField k c = t.cells k c := by
  unfold DataTable.copyField DataTable.cells rowCells cellsOf
  have hfind : (t.rows.map DataRow.keyed).find? (fun row => row.1 = k) =
      (t.rowIndex[k]?.bind fun i => t.rows[i]?).map DataRow.keyed := by
    cases hi : t.rowIndex[k]? with
    | none =>
      rw [Option.bind_none, Option.map_none, List.find?_eq_none]
      intro row hrow hk
      refine (h.rows.eq_none_iff k).1 hi ?_
      rw [← map_keyed_fst, ← of_decide_eq_true hk]
      exact List.mem_map_of_mem hrow
    | some i =>
      have hki := (h.rows.iff k i).1 hi
      rw [List.getElem?_map, Option.map_eq_some_iff] at hki
      obtain ⟨row, hrow, rfl⟩ := hki
      rw [Option.bind_some, hrow, Option.map_some, List.find?_eq_some_iff_getElem]
      have hlt := (List.getElem?_eq_some_iff.1 hrow).1
      refine ⟨decide_eq_true rfl, i, by rw [List.length_map]; exact hlt, ?_, fun j hj => ?_⟩
      · rw [List.getElem_map, (List.getElem?_eq_some_iff.1 hrow).2]
      · rw [List.getElem_map]
        rw [Bool.not_eq_true', decide_eq_false_iff_not]
        intro hk
        have hjl : j < (t.rows.map DataRow.rowkey).length := by rw [List.length_map]; omega
        have hjk : (t.rows.map DataRow.rowkey)[j]? = (t.rows.map DataRow.rowkey)[i]? := by
          rw [List.getElem?_map, List.getElem?_map, hrow, List.getElem?_eq_getElem (by omega)]
          exact congrArg some hk
        exact absurd ((List.getElem?_inj hjl h.rows.nodup).1 hjk) (by omega)
  rw [hfind]
  cases (t.rowIndex[k]?.bind fun i => t.rows[i]?) with
  | none => rfl
  | some row => exact (if_neg hc).symm

theorem addRow_tracked {t₀ t : DataTable} {events : List TableEvent} (h : Tracked t₀ (t, events))
    {rowkey : Bytes} (hnew : ¬ t.hasRow rowkey = true) : Tracked t₀ (t.addRow rowkey events) := by
  have hidx : Indexed ((t.rows ++ [DataRow.new rowkey t.tableName]).map DataRow.rowkey)
      (KeyIndex.rebuild ((t.rows ++ [DataRow.new rowkey t.tableName]).map DataRow.rowkey)) := by
    rw [List.map_append]
    exact h.inv.rows.push (k := rowkey) (by simpa [DataTable.hasRow] using hnew)
  refine ⟨⟨hidx, h.inv.columns, fun row hrow => ?_⟩, ?_, List.forall_mem_append.2 ⟨h.free, List.forall_mem_singleton.2 trivial⟩, h.subs⟩
  · rcases List.mem_append.1 hrow with hm | hm
    · exact h.inv.keyed row hm
    · rw [List.mem_singleton.1 hm]
      exact Std.TreeMap.getElem?_insert_self
  · have hblank : (DataRow.new rowkey t.tableName).keyed = (rowkey, fun _ => none) := by
      refine Prod.ext rfl (funext fun c => ?_)
      show cellsOfFields ((∅ : Fields).insert Id.rowKey rowkey) c = none
      unfold cellsOfFields
      split
      · rfl
      · rename_i hc
        rw [Std.TreeMap.getElem?_insert, if_neg (fun he => hc (Std.LawfulEqOrd.compare_eq_iff_eq.1 he).symm)]
        exact Std.TreeMap.getElem?_emptyc
    show rowCells (t.rows ++ [_]) = _
    rw [rowCells, List.map_append, List.map_singleton, hblank, cellsOf_append_blank]
    exact (h.rows.silent (e := .newRow t.tableName rowkey) rfl trivial).cells

theorem addColumn_tracked {t₀ : DataTable} {s : DataTable × List TableEvent} (h : Tracked t₀ s) (clock : Nat → Bytes)
    (column : Bytes) : Tracked t₀ (DataTable.addColumn clock s column) := by
  obtain ⟨t, events⟩ := s
  unfold DataTable.addColumn
  simp only
  split
  · exact h
  · rename_i hnew
    have hrows := RowsTracked.updateRows ((∅ : Fields).insert column []) clock t.rows []
      (h.rows.silent (e := .newColumn t.tableName column) rfl trivial)
    have hkeys := updateRows_keys ((∅ : Fields).insert column []) clock t.rows (events ++ [.newColumn t.tableName column])
    have ht := h.withRows hkeys hrows
    exact ⟨⟨ht.inv.rows, h.inv.columns.push (by simpa using hnew), ht.inv.keyed⟩, ht.cells, ht.free, ht.subs⟩

theorem foldl_addColumn_tracked {t₀ : DataTable} (clock : Nat → Bytes) : ∀ (cols : List Bytes)
    {s : DataTable × List TableEvent}, Tracked t₀ s → Tracked t₀ (cols.foldl (DataTable.addColumn clock) s)
  | [], _, h => h
  | col :: cols, _, h => foldl_addColumn_tracked clock cols (addColumn_tracked h clock col)

/-- `updateRowAt` where it finds a row. -/
theorem set_updateFields_keys {rows : List DataRow} {i : Nat} {row : DataRow} (h : rows[i]? = some row) (fields : Fields)
    (clock : Nat → Bytes) (events : List TableEvent) :
    (rows.set i (row.updateFields fields clock events).1).map DataRow.rowkey = rows.map DataRow.rowkey := by
  obtain ⟨hlt, rfl⟩ := List.getElem?_eq_some_iff.1 h
  rw [List.map_set, DataRow.updateFields_rowkey, ← List.getElem_map DataRow.rowkey (h := by rw [List.length_map]; exact hlt)]
  exact List.set_getElem_self _

theorem updateRowAt_tracked {t₀ t : DataTable} {events : List TableEvent} (h : Tracked t₀ (t, events))
    (clock : Nat → Bytes) (rowkey : Bytes) (fields : Fields) :
    Tracked t₀ (t.updateRowAt clock rowkey fields events) := by
  unfold DataTable.updateRowAt
  simp only
  split
  · exact h
  · rename_i row hrow
    have hkeys := set_updateFields_keys hrow fields clock events
    obtain ⟨hlt, rfl⟩ := List.getElem?_eq_some_iff.1 hrow
    generalize t.rowIndex[rowkey]?.getD 0 = i at hlt hkeys
    have hrows : RowsTracked t₀.cells (t.rows.take i ++ t.rows[i] :: t.rows.drop (i + 1)) events := by
      rw [List.getElem_cons_drop, List.take_append_drop]
      exact h.rows
    have hrows' := hrows.updateFields fields clock
    have hset : t.rows.take i ++ (t.rows[i].updateFields fields clock events).1 :: t.rows.drop (i + 1) =
        t.rows.set i (t.rows[i].updateFields fields clock events).1 := by
      rw [List.set_eq_take_append_cons_drop, if_pos hlt]
    rw [hset] at hrows'
    exact h.withRows hkeys hrows'

/-- The columns an update names; `update_row` and `update_fields` both skip the reserved ones. -/
def columnNames (fields : Fields) : List Bytes := fields.keys.filter fun c => !reserved c

theorem foldl_columnNames (clock : Nat → Bytes) (fields : Fields) (s : DataTable × List TableEvent) :
    fields.toList.foldl (fun s f => if reserved f.1 then s else DataTable.addColumn clock s f.1) s =
      (columnNames fields).foldl (DataTable.addColumn clock) s := by
  rw [columnNames, ← Std.TreeMap.map_fst_toList_eq_keys, List.foldl_filter, List.foldl_map]
  congr 1
  funext s f
  cases reserved f.1 <;> rfl

/-- `update_row` up to its last line: the row is there, and the columns are. -/
def DataTable.prepareRow (t : DataTable) (clock : Nat → Bytes) (rowkey : Bytes) (fields : Fields) :
    DataTable × List TableEvent :=
  (columnNames fields).foldl (addColumn clock) (if t.hasRow rowkey then (t, []) else t.addRow rowkey [])

theorem DataTable.updateRow_eq (t : DataTable) (clock : Nat → Bytes) (rowkey : Bytes) (fields : Fields) :
    t.updateRow clock rowkey fields = (t.prepareRow clock rowkey fields).1.updateRowAt clock rowkey fields
      (t.prepareRow clock rowkey fields).2 := by
  unfold updateRow prepareRow
  simp only [foldl_columnNames]

/-- The table with a row for the key. -/
theorem withRow_tracked {t : DataTable} (h : t.Inv) (rowkey : Bytes) :
    Tracked t (if t.hasRow rowkey then (t, []) else t.addRow rowkey []) := by
  split
  · exact .start h
  · rename_i hnew
    exact addRow_tracked (.start h) hnew

theorem updateRow_tracked {t : DataTable} (h : t.Inv) (clock : Nat → Bytes) (rowkey : Bytes) (fields : Fields) :
    Tracked t (t.updateRow clock rowkey fields) := by
  rw [t.updateRow_eq]
  exact updateRowAt_tracked (foldl_addColumn_tracked clock _ (withRow_tracked h rowkey)) clock rowkey fields

theorem addColumns_tracked {t : DataTable} (h : t.Inv) (clock : Nat → Bytes) (cols : List Bytes) :
    Tracked t (t.addColumns clock cols) :=
  foldl_addColumn_tracked clock cols (.start h)

theorem clearTable_tracked {t : DataTable} (h : t.Inv) : Tracked t t.clearTable := by
  refine ⟨⟨.empty, h.columns, fun _ hrow => by cases hrow⟩, rfl, fun e he => ?_, rfl⟩
  rw [List.mem_singleton.1 he]
  trivial

theorem updateMeta_tracked {t : DataTable} (h : t.Inv) (rowkey fieldname : Bytes) (info : TxContainer) :
    Tracked t (t.updateMeta rowkey fieldname info) := by
  refine ⟨⟨h.rows, h.columns, h.keyed⟩, rfl, fun e he => ?_, rfl⟩
  rw [List.mem_singleton.1 he]
  trivial

/-- The event of a deleted row has no cells to write: only the representation is kept. -/
theorem deleteRow_inv {t : DataTable} (h : t.Inv) (rowkey : Bytes) : (t.deleteRow rowkey).1.Inv := by
  unfold DataTable.deleteRow
  split
  · exact h
  · rename_i i hi
    refine ⟨?_, h.columns, fun row hrow => h.keyed row (List.mem_of_mem_eraseIdx hrow)⟩
    show Indexed ((t.rows.eraseIdx i).map DataRow.rowkey) (KeyIndex.remove t.rowIndex rowkey i)
    rw [← List.eraseIdx_map]
    exact h.rows.remove hi

end Exio
