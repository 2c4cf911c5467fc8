import Exio.TableShape
/-!
# TableRows — a subscriber's set of rows

A session that has been subscribed since the table was new reads the rows of the table off the messages it is sent: a
`tableupdate` adds the row its `RowKey` names, a `tablerowdel` takes away the row named in its head, a `tableclear` takes
away all (`readRows`).  Two operations are not told to it: `update_row` announces a new row only through its cells, and the
message of a deleted row carries an empty key.  After every operation the session's rows are the table's exactly if no
operation of the run was one of these (`subscriber_rows`).
-/
namespace Exio

open Sam Replica

/-! ## Reading the rows -/

/-- The rows of a copy after a message. -/
def readRows (r : List Bytes) (m : TxMessage) : List Bytes :=
  if m.type = Id.tableupdate then ((bodyRows m.root).filterMap (findField Id.rowKey)).foldl (fun r k => r.insert k) r
  else if m.type = Id.tablerowdel then
    match findFieldQ [Id.head, Id.rowKey] m.root with
    | none   => r
    | some k => r.filter fun k' => k' ≠ k
  else if m.type = Id.tableclear then []
  else r

/-- What the message of an event does to the rows of a copy. -/
def TableEvent.readRows (r : List Bytes) : TableEvent → List Bytes
  | .newRow _ _           => r
  | .newColumn _ _        => r
  | .rowMultiUpdate _ k _ => r.insert k
  | .tableCleared _       => []
  | .rowRemoved _ _       => r.filter fun k => k ≠ []
  | .pcmd _ k _ _         => r.insert k

theorem readRows_one_row {m : TxMessage} {row : List TxItem} {k : Bytes} (hm : m.type = Id.tableupdate)
    (hrow : bodyRows m.root = [row]) (hk : findField Id.rowKey row = some k) (r : List Bytes) :
    readRows r m = r.insert k := by
  rw [readRows, if_pos hm, hrow, List.filterMap_cons_some hk]
  rfl

theorem foldl_readRows_serialise (r : List Bytes) {e : TableEvent} (h : e.KeyFree) :
    e.serialise.foldl readRows r = e.readRows r := by
  cases e with
  | newRow name k => rfl
  | newColumn name c => rfl
  | rowMultiUpdate name k fields =>
    rw [TableEvent.serialise, List.foldl_cons, List.foldl_nil, TableEvent.readRows]
    refine readRows_one_row rfl (bodyRows_updateMsg name k fields) ?_ r
    have hkey : fields[Id.rowKey]? = none := h
    rw [findField_putFields, hkey, Option.none_or, findField_putField, if_pos rfl]
  | tableCleared name => rfl
  | rowRemoved name k => rfl
  | pcmd name k column info =>
    rw [TableEvent.serialise, List.foldl_cons, List.foldl_nil, TableEvent.readRows]
    refine readRows_one_row rfl (bodyRows_pcmdMsg name k column info) ?_ r
    rw [findField_putChildCopy, findField_putField, if_pos rfl]

/-- An event has at most one message. -/
theorem TableEvent.serialise_of_mem {e : TableEvent} {m : TxMessage} (hm : m ∈ e.serialise) : e.serialise = [m] := by
  cases e with
  | newRow name k => cases hm
  | newColumn name c => cases hm
  | _ => exact congrArg (fun m => [m]) (List.mem_singleton.1 hm).symm

theorem TableEvent.readRows_idem (r : List Bytes) (e : TableEvent) : e.readRows (e.readRows r) = e.readRows r := by
  cases e with
  | rowMultiUpdate name k fields => exact List.insert_of_mem List.mem_insert_self
  | pcmd name k column info => exact List.insert_of_mem List.mem_insert_self
  | rowRemoved name k => exact (List.filter_filter.trans (by simp [TableEvent.readRows]))
  | _ => rfl

/-- The messages of an operation's events, each as often as the session is subscribed. -/
theorem foldl_readRows_events {n : Nat} (hn : 0 < n) {events : List TableEvent} (h : ∀ e ∈ events, e.KeyFree)
    (r : List Bytes) : ((events.flatMap TableEvent.serialise).flatMap (List.replicate n)).foldl readRows r =
      events.foldl TableEvent.readRows r := by
  have hidem : ∀ m ∈ events.flatMap TableEvent.serialise, ∀ r, readRows (readRows r m) m = readRows r m := by
    intro m hm r
    obtain ⟨e, he, hme⟩ := List.mem_flatMap.1 hm
    have hread : ∀ r, readRows r m = e.readRows r := fun r => by
      rw [← foldl_readRows_serialise r (h e he), e.serialise_of_mem hme]
      rfl
    rw [hread, hread, e.readRows_idem]
  rw [foldl_replicate_idem hn _ hidem, List.foldl_flatMap]
  exact List.foldl_ext _ _ _ fun r e he => foldl_readRows_serialise r (h e he)

/-! ## The rows an update announces -/

/-- The events of an update: they write cells of rows that are there. -/
def TableEvent.Upserts (keys : List Bytes) : TableEvent → Prop
  | .newRow _ _           => True
  | .newColumn _ _        => True
  | .rowMultiUpdate _ k _ => k ∈ keys
  | _                     => False

def Upserting (s : DataTable × List TableEvent) : Prop := ∀ e ∈ s.2, e.Upserts (s.1.rows.map DataRow.rowkey)

theorem DataRow.updateFields_upserts {keys : List Bytes} {row : DataRow} (hrow : row.rowkey ∈ keys) (fields : Fields)
    (clock : Nat → Bytes) {events : List TableEvent} (h : ∀ e ∈ events, e.Upserts keys) :
    ∀ e ∈ (row.updateFields fields clock events).2, e.Upserts keys := by
  rcases row.updateFields_cases fields clock events with he | ⟨ours, ev, he, -⟩
  · rw [he]
    exact h
  · rw [he]
    exact List.forall_mem_append.2 ⟨h, List.forall_mem_singleton.2 hrow⟩

theorem updateRows_upserts {keys : List Bytes} (fields : Fields) (clock : Nat → Bytes) :
    ∀ (rows : List DataRow) {events : List TableEvent}, (∀ row ∈ rows, row.rowkey ∈ keys) →
    (∀ e ∈ events, e.Upserts keys) → ∀ e ∈ (DataTable.updateRows fields clock rows events).2, e.Upserts keys
  | [], _, _, h => h
  | row :: rows, _, hrows, h => by
    obtain ⟨hrow, hrest⟩ := List.forall_mem_cons.1 hrows
    exact updateRows_upserts fields clock rows hrest (DataRow.updateFields_upserts hrow fields clock h)

theorem addColumn_upserting {s : DataTable × List TableEvent} (h : Upserting s) (clock : Nat → Bytes) (column : Bytes) :
    Upserting (DataTable.addColumn clock s column) := by
  obtain ⟨t, events⟩ := s
  unfold DataTable.addColumn
  simp only
  split
  · exact h
  · intro e he
    have hnew : TableEvent.Upserts (t.rows.map DataRow.rowkey) (.newColumn t.tableName column) := trivial
    rw [updateRows_keys]
    exact updateRows_upserts _ clock t.rows (fun row hrow => List.mem_map_of_mem hrow)
      (List.forall_mem_append.2 ⟨h, List.forall_mem_singleton.2 hnew⟩) e he

theorem foldl_addColumn_upserting (clock : Nat → Bytes) : ∀ (cols : List Bytes) {s : DataTable × List TableEvent},
    Upserting s → Upserting (cols.foldl (DataTable.addColumn clock) s)
  | [], _, h => h
  | col :: cols, _, h => foldl_addColumn_upserting clock cols (addColumn_upserting h clock col)

theorem updateRowAt_upserting {s : DataTable × List TableEvent} (h : Upserting s) (clock : Nat → Bytes) (rowkey : Bytes)
    (fields : Fields) : Upserting (s.1.updateRowAt clock rowkey fields s.2) := by
  unfold DataTable.updateRowAt
  simp only
  split
  · exact h
  · rename_i row hrow
    have hkeys := set_updateFields_keys hrow fields clock s.2
    intro e he
    rw [hkeys]
    exact DataRow.updateFields_upserts (List.mem_map_of_mem (List.mem_of_getElem? hrow)) fields clock h e he

theorem updateRow_upserting (t : DataTable) (clock : Nat → Bytes) (rowkey : Bytes) (fields : Fields) :
    Upserting (t.updateRow clock rowkey fields) := by
  have h0 : Upserting (if t.hasRow rowkey then (t, []) else t.addRow rowkey []) := by
    split
    · exact fun e he => by cases he
    · intro e he
      rw [List.mem_singleton.1 he]
      trivial
  rw [t.updateRow_eq]
  exact updateRowAt_upserting (foldl_addColumn_upserting clock _ h0) clock rowkey fields

def TableEvent.writtenRow : TableEvent → Option Bytes
  | .rowMultiUpdate _ k _ => some k
  | _                     => none

/-- The rows whose cells are written. -/
def writtenRows (events : List TableEvent) : List Bytes := events.filterMap TableEvent.writtenRow

theorem mem_foldl_readRows {keys : List Bytes} (k : Bytes) : ∀ (events : List TableEvent) (r : List Bytes),
    (∀ e ∈ events, e.Upserts keys) →
    (k ∈ events.foldl TableEvent.readRows r ↔ k ∈ r ∨ k ∈ writtenRows events)
  | [], r, _ => by simp [writtenRows]
  | e :: events, r, h => by
    obtain ⟨he, hrest⟩ := List.forall_mem_cons.1 h
    rw [List.foldl_cons, mem_foldl_readRows k events _ hrest]
    cases e with
    | newRow name k' => rfl
    | newColumn name c => rfl
    | rowMultiUpdate name k' fields =>
      have hw : writtenRows (.rowMultiUpdate name k' fields :: events) = k' :: writtenRows events := rfl
      rw [TableEvent.readRows, List.mem_insert_iff, hw, List.mem_cons, or_assoc, or_left_comm]
    | _ => cases he

theorem mem_of_mem_writtenRows {keys : List Bytes} {k : Bytes} {events : List TableEvent}
    (h : ∀ e ∈ events, e.Upserts keys) (hk : k ∈ writtenRows events) : k ∈ keys := by
  obtain ⟨e, he, hek⟩ := List.mem_filterMap.1 hk
  have hup := h e he
  cases e with
  | rowMultiUpdate name k' fields =>
    cases hek
    exact hup
  | _ => cases hek

/-- A row without cells that is not written stays without them. -/
theorem applyEvents_of_not_mem {k c : Bytes} : ∀ (events : List TableEvent) {r : TableCells}, r k c = none →
    k ∉ writtenRows events → applyEvents r events k c = none
  | [], _, h, _ => h
  | e :: events, r, h, hk => by
    have happly : applyEvents r (e :: events) = applyEvents (e.deltas.foldl Cells.apply r) events := by
      rw [applyEvents, applyEvents, List.flatMap_cons, List.foldl_append]
    rw [happly]
    cases e with
    | rowMultiUpdate name k' fields =>
      have hw : writtenRows (.rowMultiUpdate name k' fields :: events) = k' :: writtenRows events := rfl
      rw [hw, List.mem_cons, not_or] at hk
      refine applyEvents_of_not_mem events ?_ hk.2
      show (if k = k' then _ else r k c) = none
      rw [if_neg hk.1, h]
    | tableCleared name => exact applyEvents_of_not_mem events rfl hk
    | _ => exact applyEvents_of_not_mem events h hk

/-- Without a column to write, an update says nothing about any row. -/
theorem writtenRows_updateRow_reserved (t : DataTable) (clock : Nat → Bytes) (rowkey : Bytes) {fields : Fields}
    (h : columnNames fields = []) : writtenRows (t.updateRow clock rowkey fields).2 = [] := by
  have hprep : writtenRows (t.prepareRow clock rowkey fields).2 = [] := by
    unfold DataTable.prepareRow
    rw [h, List.foldl_nil]
    split <;> rfl
  rw [t.updateRow_eq]
  unfold DataTable.updateRowAt
  simp only
  split
  · exact hprep
  · rw [DataRow.updateFields_same _ fun c v hc hv => ?_]
    · exact hprep
    · have hmem := (mem_columnNames hc).2 (Option.isSome_of_eq_some hv)
      rw [h] at hmem
      cases hmem

/-- **A new row is announced by its cells**, and only by them. -/
theorem mem_writtenRows_updateRow {t : DataTable} (h : t.Inv) (clock : Nat → Bytes) {rowkey : Bytes} (fields : Fields)
    (hk : ¬ t.hasRow rowkey = true) :
    rowkey ∈ writtenRows (t.updateRow clock rowkey fields).2 ↔ ∃ c ∈ fields, ¬ reserved c = true := by
  constructor
  · intro hw
    by_contra hnone
    rw [writtenRows_updateRow_reserved t clock rowkey] at hw
    · cases hw
    · refine List.filter_eq_nil_iff.2 fun c hc hr => hnone ⟨c, Std.TreeMap.mem_keys.1 hc, ?_⟩
      simpa using hr
  · rintro ⟨c, hf, hc⟩
    by_contra hw
    have ht := updateRow_tracked h clock rowkey fields
    have hkey := (not_reserved hc).1
    have hblank : t.cells rowkey c = none := by
      rw [← h.copyField_eq rowkey c hkey, DataTable.copyField_of_not_hasRow hk]
    have hcell := DataTable.copyField_updateRow h clock rowkey fields rowkey hc
    rw [if_pos rfl, ht.inv.copyField_eq rowkey c hkey, ht.cells, applyEvents_of_not_mem _ hblank hw,
      DataTable.copyField_of_not_hasRow hk, Option.or_none] at hcell
    rw [Std.TreeMap.mem_iff_isSome_getElem?, ← hcell] at hf
    cases hf

/-! ## The session's rows against the table's -/

/-- The rows the session has read are the rows of the table. -/
def RowsAgree (sid : Nat) (s : TableServer) : Prop :=
  ∀ k, k ∈ (s.sent sid).foldl readRows [] ↔ k ∈ s.table.rows.map DataRow.rowkey

def TableOp.onRows : TableOp → Bool
  | .updateRow _ _ _ => true
  | .deleteRow _     => true
  | .clearTable      => true
  | _                => false

/-- A row is created with a value in some column, and no row is deleted but one whose key is empty. -/
def Announced (s : TableServer) : TableOp → Prop
  | .updateRow _ rowkey fields => s.table.hasRow rowkey = true ∨ ∃ c ∈ fields, ¬ reserved c = true
  | .deleteRow rowkey          => s.table.hasRow rowkey = true → rowkey = []
  | _                          => True

/-- The session is open and subscribed. -/
structure Listening (sid : Nat) (s : TableServer) : Prop where
  inv    : s.table.Inv
  sub    : sid ∈ s.table.subscribers
  used   : s.used sid = true
  isOpen : s.isOpen sid = true

theorem Listening.commit {sid : Nat} {s : TableServer} (h : Listening sid s) {r : DataTable × List TableEvent}
    (hinv : r.1.Inv) (hsubs : r.1.subscribers = s.table.subscribers) : Listening sid (s.commit r) := by
  obtain ⟨ht, hu, ho⟩ := s.commit_frame r
  exact ⟨ht ▸ hinv, ht ▸ hsubs ▸ h.sub, hu ▸ h.used, ho ▸ h.isOpen⟩

theorem deleteRow_subscribers (t : DataTable) (rowkey : Bytes) : (t.deleteRow rowkey).1.subscribers = t.subscribers := by
  unfold DataTable.deleteRow
  split <;> rfl

theorem Listening.exec {sid : Nat} {s : TableServer} (h : Listening sid s) {op : TableOp} (hop : op.onRows = true) :
    Listening sid (s.exec op).1 := by
  cases op with
  | updateRow clock rowkey fields =>
    have ht := updateRow_tracked h.inv clock rowkey fields
    exact h.commit ht.inv ht.subs
  | deleteRow rowkey => exact h.commit (deleteRow_inv h.inv rowkey) (deleteRow_subscribers s.table rowkey)
  | clearTable => exact h.commit (clearTable_tracked h.inv).inv rfl
  | _ => cases hop

/-- What the session has read after an operation. -/
theorem Listening.rows_commit {sid : Nat} {s : TableServer} (h : Listening sid s) {r : DataTable × List TableEvent}
    (hfree : ∀ e ∈ r.2, e.KeyFree) (hsubs : r.1.subscribers = s.table.subscribers) :
    ((s.commit r).sent sid).foldl readRows [] = r.2.foldl TableEvent.readRows ((s.sent sid).foldl readRows []) := by
  have hcount : 0 < r.1.subscribers.count sid := List.count_pos_iff.2 (hsubs ▸ h.sub)
  rw [TableServer.commit_sent h.used h.isOpen, List.foldl_append, foldl_readRows_events hcount hfree]

theorem rowsAgree_updateRow_iff {sid : Nat} {s : TableServer} (h : Listening sid s) (ha : RowsAgree sid s)
    (clock : Nat → Bytes) (rowkey : Bytes) (fields : Fields) :
    RowsAgree sid (s.commit (s.table.updateRow clock rowkey fields)) ↔
      (s.table.hasRow rowkey = true ∨ ∃ c ∈ fields, ¬ reserved c = true) := by
  have ht := updateRow_tracked h.inv clock rowkey fields
  have hup := updateRow_upserting s.table clock rowkey fields
  have hkeys : ∀ k, k ∈ (s.table.updateRow clock rowkey fields).1.rows.map DataRow.rowkey ↔
      k = rowkey ∨ k ∈ s.table.rows.map DataRow.rowkey := fun k => by
    rw [← DataTable.hasRow_iff ht.inv, ← DataTable.hasRow_iff h.inv,
      DataTable.hasRow_updateRow h.inv clock rowkey fields]
  unfold RowsAgree
  rw [h.rows_commit ht.free ht.subs, s.commit_table]
  simp only [mem_foldl_readRows _ _ _ hup, ha _]
  constructor
  · intro hagree
    by_cases hk : s.table.hasRow rowkey = true
    · exact .inl hk
    · have hnew := (hagree rowkey).2 ((hkeys rowkey).2 (.inl rfl))
      rw [← DataTable.hasRow_iff h.inv] at hnew
      exact .inr ((mem_writtenRows_updateRow h.inv clock fields hk).1 (hnew.resolve_left hk))
  · intro hann k
    refine ⟨fun hk => ?_, fun hk => ?_⟩
    · rcases hk with hold | hw
      · exact (hkeys k).2 (.inr hold)
      · exact mem_of_mem_writtenRows hup hw
    · rcases (hkeys k).1 hk with rfl | hold
      · by_cases hrow : s.table.hasRow k = true
        · exact .inl ((DataTable.hasRow_iff h.inv k).1 hrow)
        · exact .inr ((mem_writtenRows_updateRow h.inv clock fields hrow).2 (hann.resolve_left hrow))
      · exact .inl hold

/-- The message of a deleted row names the empty key. -/
theorem rowsAgree_deleteRow_iff {sid : Nat} {s : TableServer} (h : Listening sid s) (ha : RowsAgree sid s)
    (rowkey : Bytes) :
    RowsAgree sid (s.commit (s.table.deleteRow rowkey)) ↔ (s.table.hasRow rowkey = true → rowkey = []) := by
  have hinv := deleteRow_inv h.inv rowkey
  have hfree : ∀ e ∈ (s.table.deleteRow rowkey).2, e.KeyFree := by
    unfold DataTable.deleteRow
    split
    · exact fun e he => by cases he
    · intro e he
      rw [List.mem_singleton.1 he]
      trivial
  unfold RowsAgree at ha ⊢
  rw [h.rows_commit hfree (deleteRow_subscribers s.table rowkey), s.commit_table]
  simp only [← DataTable.hasRow_iff hinv, hasRow_deleteRow, ← DataTable.hasRow_iff h.inv] at ha ⊢
  by_cases hk : s.table.hasRow rowkey = true
  · obtain ⟨i, hi⟩ := Option.isSome_iff_exists.1 hk
    have hev : (s.table.deleteRow rowkey).2 = [.rowRemoved s.table.tableName rowkey] := by
      unfold DataTable.deleteRow
      rw [hi]
    simp only [hev, List.foldl_cons, List.foldl_nil, TableEvent.readRows, List.mem_filter, ha, decide_eq_true_eq]
    constructor
    · intro hagree _
      by_contra hne
      exact ((hagree rowkey).1 ⟨hk, hne⟩).1 rfl
    · intro hempty k
      rw [hempty hk, and_comm]
  · have hev : (s.table.deleteRow rowkey).2 = [] := by
      have hnone : s.table.rowIndex[rowkey]? = none := by simpa [DataTable.hasRow] using hk
      unfold DataTable.deleteRow
      rw [hnone]
    simp only [hev, List.foldl_nil, ha]
    refine iff_of_true (fun k => ⟨fun hrow => ⟨?_, hrow⟩, And.right⟩) (fun hrow => absurd hrow hk)
    rintro rfl
    exact hk hrow

theorem rowsAgree_clearTable {sid : Nat} {s : TableServer} (h : Listening sid s) :
    RowsAgree sid (s.commit s.table.clearTable) := by
  have ht := clearTable_tracked h.inv
  unfold RowsAgree
  rw [h.rows_commit ht.free ht.subs, s.commit_table]
  exact fun k => Iff.rfl

/-- **One operation**: the session's rows stay the table's exactly if the operation is announced. -/
theorem rowsAgree_exec_iff {sid : Nat} {s : TableServer} (h : Listening sid s) (ha : RowsAgree sid s) {op : TableOp}
    (hop : op.onRows = true) : RowsAgree sid (s.exec op).1 ↔ Announced s op := by
  cases op with
  | updateRow clock rowkey fields => exact rowsAgree_updateRow_iff h ha clock rowkey fields
  | deleteRow rowkey => exact rowsAgree_deleteRow_iff h ha rowkey
  | clearTable => exact iff_of_true (rowsAgree_clearTable h) trivial
  | _ => cases hop

/-! ## Subscribed from the start -/

/-- A new table with its first subscribers. -/
def TableServer.start (tableName : Bytes) (used isOpen : Nat → Bool) (sids : List Nat) : TableServer :=
  sids.foldl (fun s sid => (s.addSubscriber sid).1) ⟨.new tableName, used, isOpen, fun _ => []⟩

/-- A table without rows, and a session that has read none. -/
structure Blank (sid : Nat) (s : TableServer) : Prop where
  inv    : s.table.Inv
  rows   : s.table.rows = []
  used   : s.used sid = true
  isOpen : s.isOpen sid = true
  read   : (s.sent sid).foldl readRows [] = []

/-- The first thing a session is sent is the description, and a table without rows has no snapshot messages. -/
theorem Blank.addSubscriber {sid : Nat} {s : TableServer} (h : Blank sid s) (sid' : Nat) :
    Blank sid (s.addSubscriber sid').1 := by
  have hdata := s.addSubscriber_sameData sid'
  obtain ⟨-, hu, ho⟩ := s.addSubscriber_frame sid'
  refine ⟨h.inv.sameData hdata, hdata.rows.trans h.rows, hu ▸ h.used, ho ▸ h.isOpen, ?_⟩
  obtain ⟨ht, hu', ho'⟩ := TableServer.sendOne_frame { s with table := s.table.subscribe sid' } sid'
    [(s.table.subscribe sid').descrMsg]
  have hsent := TableServer.sendOne_sent (s := { s with table := s.table.subscribe sid' }) h.used h.isOpen sid'
    [(s.table.subscribe sid').descrMsg]
  unfold TableServer.addSubscriber
  simp only
  generalize TableServer.sendOne { s with table := s.table.subscribe sid' } sid' _ = s' at ht hu' ho' hsent ⊢
  have hnil : s'.table.snapshotMsgs = .ok ([], s'.table.batchsize) := by
    refine DataTable.snapshotMsgs_nil ?_
    rw [ht]
    exact h.rows
  unfold TableServer.sendSnapshot
  rw [hnil]
  show ((s'.sendOne sid' []).sent sid).foldl readRows [] = []
  rw [TableServer.sendOne_sent (hu' ▸ h.used) (ho' ▸ h.isOpen), List.append_nil, ite_self, hsent]
  split
  · rw [List.foldl_append, h.read]
    rfl
  · exact h.read

theorem foldl_addSubscriber {sid : Nat} : ∀ (sids : List Nat) {s : TableServer}, Blank sid s →
    Blank sid (sids.foldl (fun s sid => (s.addSubscriber sid).1) s) ∧
      (sids.foldl (fun s sid => (s.addSubscriber sid).1) s).table.subscribers = s.table.subscribers ++ sids
  | [], _, h => ⟨h, (List.append_nil _).symm⟩
  | sid' :: sids, s, h => by
    obtain ⟨hb, hsubs⟩ := foldl_addSubscriber sids (h.addSubscriber sid')
    rw [(s.addSubscriber_frame sid').1, List.append_assoc] at hsubs
    exact ⟨hb, hsubs⟩

theorem TableServer.start_listening (tableName : Bytes) {used isOpen : Nat → Bool} {sids : List Nat} {sid : Nat}
    (hsid : sid ∈ sids) (hu : used sid = true) (ho : isOpen sid = true) :
    Listening sid (.start tableName used isOpen sids) ∧ RowsAgree sid (.start tableName used isOpen sids) := by
  have h0 : Blank sid ⟨.new tableName, used, isOpen, fun _ => []⟩ := ⟨DataTable.new_inv tableName, rfl, hu, ho, rfl⟩
  obtain ⟨hb, hsubs⟩ := foldl_addSubscriber sids h0
  refine ⟨⟨hb.inv, ?_, hb.used, hb.isOpen⟩, fun k => ?_⟩
  · exact hsubs ▸ List.mem_append_right _ hsid
  · unfold TableServer.start
    rw [hb.read, hb.rows]
    rfl

/-- **When a subscriber's rows are the table's.**  A session is among the subscribers of a new table, and open.  Along a run
of `update_row`, `delete_row` and `clear_table`, the rows it reads off its messages are the table's rows after every
operation exactly if every `update_row` that creates a row is given a column that is not reserved, and no `delete_row`
removes a row, except one whose key is empty. -/
theorem subscriber_rows (tableName : Bytes) {used isOpen : Nat → Bool} {sids : List Nat} {sid : Nat} (hsid : sid ∈ sids)
    (hu : used sid = true) (ho : isOpen sid = true) (ops : List TableOp) (hops : ∀ op ∈ ops, op.onRows = true) :
    Steps.Throughout tableStep (RowsAgree sid) (.start tableName used isOpen sids) ops ↔
      Steps.EachStep tableStep Announced (.start tableName used isOpen sids) ops := by
  obtain ⟨hl, ha⟩ := TableServer.start_listening tableName hsid hu ho
  refine Steps.throughout_iff (I := Listening sid) (A := fun op => op.onRows = true) ?_ ?_ ops hops hl ha
  · intro s t op h hop hs
    cases hs
    exact h.exec hop
  · intro s t op h hop ha hs
    cases hs
    exact rowsAgree_exec_iff h ha hop

theorem subscriber_rows_sample :
    Steps.Throughout tableStep (RowsAgree 1) (.start (ascii "t") (fun _ => true) (fun _ => true) [1])
        [.updateRow (fun _ => ascii "now") (ascii "a") ((∅ : Fields).insert (ascii "x") (ascii "1")), .clearTable] := by
  refine (subscriber_rows (ascii "t") (List.mem_singleton_self 1) rfl rfl _ (by decide)).2 ?_
  rintro t -
  refine ⟨.inr ⟨ascii "x", by decide +kernel, by decide⟩, ?_⟩
  exact fun u _ => ⟨trivial, trivial⟩

/-- A row without cells is never announced, and a deleted row stays in the session's copy. -/
theorem subscriber_rows_drift :
    (∃ s, Steps.run tableStep (.start (ascii "t") (fun _ => true) (fun _ => true) [1])
        [.updateRow (fun _ => ascii "now") (ascii "a") ∅] = some s ∧
      (s.sent 1).foldl readRows [] = [] ∧ s.table.rows.map DataRow.rowkey = [ascii "a"]) ∧
    ∃ s, Steps.run tableStep (.start (ascii "t") (fun _ => true) (fun _ => true) [1])
        [.updateRow (fun _ => ascii "now") (ascii "a") ((∅ : Fields).insert (ascii "x") (ascii "1")),
          .deleteRow (ascii "a")] = some s ∧
      (s.sent 1).foldl readRows [] = [ascii "a"] ∧ s.table.rows.map DataRow.rowkey = [] := by
  refine ⟨⟨_, rfl, ?_⟩, ⟨_, rfl, ?_⟩⟩ <;> decide +kernel

end Exio
