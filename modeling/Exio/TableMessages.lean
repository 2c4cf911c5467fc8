import Exio.SamSize
import Exio.Sessions
import Exio.Table
/-!
# TableMessages — the messages a table sends, and what a copy reads from them

An event is serialised into one message (`TableEvents.cc`, `TableSerialiser.cc`), except a new row and a new column, which
send nothing.  A snapshot is the rows of the table in batches: a batch that does not fit a message is tried again with half
the rows, and a single row that does not fit ends the snapshot with an exception (`_nolock_send_snapshopt`).

A copy of the cells reads a message by `receive`: a `tableclear` empties it, and every `row_i` of a `tableupdate` writes its
fields into the row its `RowKey` names.  The two paths agree with the table: reading an event's message is applying the
event (`receive_serialise`), and reading a snapshot is putting the table's cells over the copy (`receive_snapshot`).
-/
namespace Exio

open Sam Replica
open Decimal (decimal)

namespace Id

def tablename   : Bytes := ascii "tablename"
def msgtype     : Bytes := ascii "msgtype"
def rows        : Bytes := ascii "rows"
def rowPrefix   : Bytes := ascii "row_"
def columns     : Bytes := ascii "columns"
def colname     : Bytes := ascii "colname"
def msgPrefix   : Bytes := ascii "msg_"
def msgcount    : Bytes := ascii "msgcount"
def snapi       : Bytes := ascii "snapi"
def snapn       : Bytes := ascii "snapn"
def tableclear  : Bytes := ascii "tableclear"
def tabledescr  : Bytes := ascii "tabledescr"
def tableupdate : Bytes := ascii "tableupdate"
def tablerowdel : Bytes := ascii "tablerowdel"

def qnTablename : List Bytes := [head, tablename]
def qnMsgtype   : List Bytes := [head, msgtype]
def qnBodyRows  : List Bytes := [body, rows]
def qnHeadSnapi : List Bytes := [head, snapi]
def qnHeadSnapn : List Bytes := [head, snapn]

end Id

/-! ## Events -/

/-- `put_field` for every entry of a map, in the map's order. -/
def putFields (is : List TxItem) (fields : Fields) : List TxItem :=
  fields.toList.foldl (fun is f => putField is f.1 f.2) is

/-- The head that `UpdateSerialiser` and `PCMDEvent` begin with. -/
def updateHead (tableName : Bytes) : List TxItem :=
  putFieldQ Id.tableupdate Id.qnMsgtype (putFieldQ tableName Id.qnTablename [])

def rowName (n : Nat) : Bytes := Id.rowPrefix ++ decimal n

/-- `UpdateSerialiser`: `init_msg`, and `add_update` for every field. -/
def updateMsg (tableName rowKey : Bytes) (fields : Fields) : TxMessage :=
  ⟨Id.tableupdate, modifyChild (updateHead tableName) Id.body fun body =>
    modifyChild (putField body Id.rows (ascii "1")) (Id.rowPrefix ++ ascii "0") fun row =>
      putFields (putField row Id.rowKey rowKey) fields⟩

def tableClearMsg (tableName : Bytes) : TxMessage :=
  ⟨Id.tableclear, putFieldQ tableName Id.qnTablename (putFieldQ Id.tableclear Id.qnMsgtype [])⟩

/-- The row's key is a field without a value. -/
def rowRemovedMsg (tableName : Bytes) : TxMessage :=
  ⟨Id.tablerowdel, putFieldQ [] [Id.head, Id.rowKey]
    (putFieldQ tableName Id.qnTablename (putFieldQ Id.tablerowdel Id.qnMsgtype []))⟩

/-- The copy of the metadata is renamed where it stands in the row. -/
def pcmdMsg (tableName rowKey column : Bytes) (info : TxContainer) : TxMessage :=
  ⟨Id.tableupdate, modifyChild (updateHead tableName) Id.body fun body =>
    putField (modifyChild body (Id.rowPrefix ++ ascii "0") fun row =>
      putChildCopy (putField row Id.rowKey rowKey) { info with name := ascii ".meta." ++ column }) Id.rows (ascii "1")⟩

/-- The events `_nolock_publish_update` serialises. -/
def TableEvent.serialise : TableEvent → List TxMessage
  | .newRow _ _                   => []
  | .newColumn _ _                => []
  | .rowMultiUpdate name k fields => [updateMsg name k fields]
  | .tableCleared name            => [tableClearMsg name]
  | .rowRemoved name _            => [rowRemovedMsg name]
  | .pcmd name k column info      => [pcmdMsg name k column info]

/-! ## The table description and the snapshot -/

/-- `utils::to_str`. -/
def toStr (i : Int) : Bytes := Decimal.signed i

/-- `TableDescrSerialiser::add_column`, on the container of the columns; `to_str` takes an `int`. -/
def addDescrColumn (attrs : Option (List TxContainer)) (columns : List TxItem) (name : Bytes) : List TxItem :=
  let ncols := countChild columns
  let columns := modifyChild columns (Id.msgPrefix ++ decimal ncols) fun col =>
    (attrs.getD []).foldl putChildCopy (putField col Id.colname name)
  putField columns Id.msgcount (toStr (Word.toInt 32 (ncols + 1)))

/-- The columns with data or attributes, in the order of a `std::set`. -/
def DataTable.describedColumns (t : DataTable) : List Bytes :=
  ((t.columns ++ t.columnAttrs.keys).foldl (fun cols c => cols.insert c ()) (∅ : Std.TreeMap Bytes Unit)).keys

def DataTable.descrMsg (t : DataTable) : TxMessage :=
  let root := putFieldQ t.tableName Id.qnTablename (putFieldQ Id.tabledescr Id.qnMsgtype [])
  ⟨Id.tabledescr, modifyChild root Id.body fun body => modifyChild body Id.columns fun columns =>
    t.describedColumns.foldl (fun columns c => addDescrColumn t.columnAttrs[c]? columns c)
      (putField columns Id.msgcount (ascii "0"))⟩

/-- `SnapshotSerialiser::add_row`, on the body. -/
def addSnapshotRow (pcmd : Std.TreeMap Bytes (Std.TreeMap Bytes TxContainer)) (body : List TxItem) (row : DataRow) :
    List TxItem :=
  let nrows := countChild body
  let body := modifyChild body (rowName nrows) fun is =>
    ((pcmd[row.rowkey]?.getD ∅).toList.map Prod.snd).foldl putChildCopy (putFields is row.fields)
  putField body Id.rows (decimal (nrows + 1))

/-- `SnapshotSerialiser` with these rows added: `empty_msg`, `set_table_name`, then `add_row` on each. -/
def DataTable.snapshotBatch (t : DataTable) (rows : List DataRow) : TxMessage :=
  let empty := putFieldQ Id.tableupdate Id.qnMsgtype (putFieldQ (ascii "0") Id.qnBodyRows (putFieldQ [] Id.qnTablename []))
  ⟨Id.tableupdate, rows.foldl (fun root row => modifyChild root Id.body fun body => addSnapshotRow t.pcmd body row)
    (putFieldQ t.tableName Id.qnTablename empty)⟩

def roomForSnapFields : Nat := 50

/-- Every row fits a message of its own. -/
def DataTable.RowsFit (t : DataTable) : Prop := ∀ row ∈ t.rows, checkEncSize (t.snapshotBatch [row]) roomForSnapFields = true

instance (t : DataTable) : Decidable t.RowsFit := inferInstanceAs (Decidable (∀ row ∈ t.rows, _))

theorem DataTable.not_rowsFit_iff {t : DataTable} :
    ¬ t.RowsFit ↔ ∃ row ∈ t.rows, checkEncSize (t.snapshotBatch [row]) roomForSnapFields = false := by
  simp [RowsFit]

theorem BatchSize.half_lt {b : BatchSize} (h : b.rows ≠ 1) : b.half.rows < b.rows := by
  have := b.pos
  show max 1 (b.rows / 2) < b.rows
  omega

/-- The loop of `_nolock_send_snapshopt`: `next` are the rows still to be sent. -/
def DataTable.snapshotLoop (t : DataTable) (batchsize : BatchSize) (next : List DataRow) (msgs : List TxMessage) :
    Except RuntimeError (List TxMessage × BatchSize) :=
  if next = [] then .ok (msgs, batchsize)
  else
    let msg := t.snapshotBatch (next.take batchsize.rows)
    if checkEncSize msg roomForSnapFields then t.snapshotLoop batchsize (next.drop batchsize.rows) (msgs ++ [msg])
    else if batchsize.rows = 1 then .error ⟨"failed to encode snapshot"⟩
    else t.snapshotLoop batchsize.half next msgs
termination_by next.length + batchsize.rows
decreasing_by
  · rename_i hnext _
    have := batchsize.pos
    have := List.length_pos_iff.2 hnext
    rw [List.length_drop]
    omega
  · rename_i hone
    have := BatchSize.half_lt hone
    omega

/-- `head.snapi` and `head.snapn` of every message: the counter is an `int`, and so is the argument of `to_str`. -/
def numberSnapshot (msgs : List TxMessage) : List TxMessage :=
  let snapn := toStr (Word.toInt 32 msgs.length)
  msgs.zipIdx.map fun (m, i) =>
    { m with root := putFieldQ snapn Id.qnHeadSnapn (putFieldQ (toStr (Word.toInt 32 i)) Id.qnHeadSnapi m.root) }

/-- The messages of a snapshot and the new `m_batchsize`. -/
def DataTable.snapshotMsgs (t : DataTable) : Except RuntimeError (List TxMessage × BatchSize) :=
  match t.snapshotLoop t.batchsize t.rows [] with
  | .error e              => .error e
  | .ok (msgs, batchsize) => .ok (numberSnapshot msgs, batchsize)

theorem DataTable.snapshotMsgs_nil {t : DataTable} (h : t.rows = []) : t.snapshotMsgs = .ok ([], t.batchsize) := by
  rw [snapshotMsgs, snapshotLoop, if_pos h]
  rfl

/-! ## Reading messages -/

/-- The children of a container, with their names. -/
def children (is : List TxItem) : List (Bytes × List TxItem) :=
  is.filterMap fun i => match i with | .field _ _ => none | .container n cs => some (n, cs)

/-- The rows of a `tableupdate`: the children `row_i` of its body. -/
def bodyRows (root : List TxItem) : List (List TxItem) :=
  ((children ((findChild Id.body root).getD [])).filter fun c => Id.rowPrefix.isPrefixOf c.1).map Prod.snd

/-- A row without a `RowKey` writes nothing. -/
def rowDelta (row : List TxItem) : Option (Delta Bytes Bytes Bytes) :=
  (findField Id.rowKey row).map fun k => .write k fun c => if c = Id.rowKey then none else findField c row

def messageDeltas (m : TxMessage) : List (Delta Bytes Bytes Bytes) :=
  if m.type = Id.tableclear then [.clear]
  else if m.type = Id.tableupdate then (bodyRows m.root).filterMap rowDelta
  else []

/-- **A copy reads a message.** -/
def receive (r : TableCells) (m : TxMessage) : TableCells := (messageDeltas m).foldl Cells.apply r

/-! ## Fields and children of what the serialisers build -/

/-- **The fields of a map, put into a container.** -/
theorem findField_putFields (is : List TxItem) (fields : Fields) (c : Bytes) :
    findField c (putFields is fields) = fields[c]?.or (findField c is) :=
  KeyIndex.lookup_foldl_toList (fun is f => findField_putField is f.1 f.2 c) fields is

theorem findField_foldl_putChildCopy (f : Bytes) : ∀ (cs : List TxContainer) (is : List TxItem),
    findField f (cs.foldl putChildCopy is) = findField f is
  | [], _ => rfl
  | c :: cs, is => by
    rw [List.foldl_cons, findField_foldl_putChildCopy f cs, findField_putChildCopy]

theorem children_append (is js : List TxItem) : children (is ++ js) = children is ++ children js := by
  simp [children]

theorem children_setField (f v : Bytes) : ∀ (is : List TxItem), children (setField f v is) = children is
  | [] => rfl
  | .field n v' :: is => by
    have ih := children_setField f v is
    rw [setField]
    split
    · rfl
    · simpa [children] using ih
  | .container n cs :: is => by
    have ih := children_setField f v is
    simpa [setField, children] using ih

theorem children_putField (is : List TxItem) (f v : Bytes) : children (putField is f v) = children is := by
  unfold putField
  split
  · exact children_setField f v is
  · rw [children_append]
    exact List.append_nil _

theorem childNames_eq (is : List TxItem) : childNames is = (children is).map Prod.fst := by
  rw [children, List.map_filterMap]
  refine List.filterMap_congr fun i _ => ?_
  cases i <;> rfl

/-- A new child is the last one. -/
theorem children_modifyChild {x : List TxItem} {c : Bytes} (h : c ∉ (children x).map Prod.fst)
    (f : List TxItem → List TxItem) : children (modifyChild x c f) = children x ++ [(c, f [])] := by
  rw [modifyChild_of_not_mem (childNames_eq x ▸ h), children_append]
  rfl

/-- A field of the head leaves the body. -/
theorem findChild_body_head (v n : Bytes) (root : List TxItem) :
    findChild Id.body (putFieldQ v [Id.head, n] root) = findChild Id.body root := by
  rw [putFieldQ, findChild_modifyChild, if_neg (by decide)]

/-! ## Reading an event's message is applying the event -/

theorem isPrefixOf_rowName (n : Bytes) : Id.rowPrefix.isPrefixOf (Id.rowPrefix ++ n) = true :=
  List.isPrefixOf_iff_prefix.2 (List.prefix_append _ _)

theorem bodyRows_eq {root body : List TxItem} (h : findChild Id.body root = some body)
    (hp : ∀ c ∈ children body, Id.rowPrefix.isPrefixOf c.1 = true) : bodyRows root = (children body).map Prod.snd := by
  rw [bodyRows, h, Option.getD_some, List.filter_eq_self.2 hp]

theorem rowDelta_eq {row : List TxItem} {k : Bytes} {fields : Fields} (hk : findField Id.rowKey row = some k)
    (hf : ∀ c, c ≠ Id.rowKey → findField c row = fields[c]?) : rowDelta row = some (.write k (cellsOfFields fields)) := by
  rw [rowDelta, hk, Option.map_some]
  congr 2
  funext c
  unfold cellsOfFields
  split
  · rfl
  · rename_i hc
    exact hf c hc

theorem messageDeltas_tableupdate (root : List TxItem) :
    messageDeltas ⟨Id.tableupdate, root⟩ = (bodyRows root).filterMap rowDelta := by
  rw [messageDeltas, if_neg (show Id.tableupdate ≠ Id.tableclear by decide), if_pos rfl]

/-- A `tableupdate` of one row. -/
theorem receive_one_row {root row : List TxItem} {d : Delta Bytes Bytes Bytes} (hrow : bodyRows root = [row])
    (hd : rowDelta row = some d) (r : TableCells) : receive r ⟨Id.tableupdate, root⟩ = r.apply d := by
  rw [receive, messageDeltas_tableupdate, hrow, List.filterMap_cons_some hd]
  rfl

theorem bodyRows_one {root body : List TxItem} {name : Bytes} {row : List TxItem}
    (hbody : findChild Id.body root = some body) (hrows : children body = [(Id.rowPrefix ++ name, row)]) :
    bodyRows root = [row] := by
  rw [bodyRows_eq hbody, hrows]
  · rfl
  · intro c hc
    rw [hrows, List.mem_singleton] at hc
    rw [hc]
    exact isPrefixOf_rowName name

/-- The body goes under the head of an update. -/
theorem findChild_body_modifyChild (tableName : Bytes) (f : List TxItem → List TxItem) :
    findChild Id.body (modifyChild (updateHead tableName) Id.body f) = some (f []) := by
  have hhead : findChild Id.body (updateHead tableName) = none := by
    unfold updateHead Id.qnMsgtype Id.qnTablename
    rw [findChild_body_head, findChild_body_head]
    rfl
  rw [findChild_modifyChild, if_pos rfl, hhead, Option.getD_none]

theorem bodyRows_updateMsg (tableName k : Bytes) (fields : Fields) :
    bodyRows (updateMsg tableName k fields).root = [putFields (putField [] Id.rowKey k) fields] := by
  have hbody := findChild_body_modifyChild tableName fun body =>
    modifyChild (putField body Id.rows (ascii "1")) (Id.rowPrefix ++ ascii "0") fun row =>
      putFields (putField row Id.rowKey k) fields
  have hrows := children_modifyChild (x := putField [] Id.rows (ascii "1")) (c := Id.rowPrefix ++ ascii "0") (by decide)
    fun row => putFields (putField row Id.rowKey k) fields
  exact bodyRows_one hbody hrows

theorem bodyRows_pcmdMsg (tableName k column : Bytes) (info : TxContainer) :
    bodyRows (pcmdMsg tableName k column info).root =
      [putChildCopy (putField [] Id.rowKey k) { info with name := ascii ".meta." ++ column }] := by
  have hbody := findChild_body_modifyChild tableName fun body =>
    putField (modifyChild body (Id.rowPrefix ++ ascii "0") fun row =>
      putChildCopy (putField row Id.rowKey k) { info with name := ascii ".meta." ++ column }) Id.rows (ascii "1")
  have hrows := children_modifyChild (x := []) (c := Id.rowPrefix ++ ascii "0") (by decide) fun row =>
    putChildCopy (putField row Id.rowKey k) { info with name := ascii ".meta." ++ column }
  exact bodyRows_one hbody ((children_putField _ _ _).trans hrows)

theorem receive_updateMsg (r : TableCells) (tableName k : Bytes) {fields : Fields} (h : fields[Id.rowKey]? = none) :
    receive r (updateMsg tableName k fields) = r.write k (cellsOfFields fields) := by
  refine receive_one_row (bodyRows_updateMsg tableName k fields) (rowDelta_eq ?_ fun c hc => ?_) r
  · rw [findField_putFields, h, Option.none_or, findField_putField, if_pos rfl]
  · rw [findField_putFields, findField_putField, if_neg (Ne.symm hc)]
    exact Option.or_none

/-- Metadata writes no cell. -/
theorem receive_pcmdMsg (r : TableCells) (tableName k column : Bytes) (info : TxContainer) :
    receive r (pcmdMsg tableName k column info) = r := by
  have hd : rowDelta (putChildCopy (putField [] Id.rowKey k) { info with name := ascii ".meta." ++ column }) =
      some (.write k (cellsOfFields ∅)) := by
    refine rowDelta_eq ?_ fun c hc => ?_
    · rw [findField_putChildCopy, findField_putField, if_pos rfl]
    · rw [findField_putChildCopy, findField_putField, if_neg (Ne.symm hc), Std.TreeMap.getElem?_emptyc]
      rfl
  refine (receive_one_row (bodyRows_pcmdMsg tableName k column info) hd r).trans ?_
  funext k' c
  simp [Cells.apply, Cells.write, cellsOfFields]

/-- **Reading an event's message is applying the event.** -/
theorem receive_serialise (r : TableCells) {e : TableEvent} (h : e.KeyFree) {m : TxMessage} (hm : m ∈ e.serialise) :
    receive r m = e.deltas.foldl Cells.apply r := by
  cases e with
  | newRow name k => cases hm
  | newColumn name c => cases hm
  | rowMultiUpdate name k fields =>
    rw [List.mem_singleton.1 hm]
    exact receive_updateMsg r name k h
  | tableCleared name =>
    rw [List.mem_singleton.1 hm]
    rfl
  | rowRemoved name k =>
    rw [List.mem_singleton.1 hm]
    rfl
  | pcmd name k column info =>
    rw [List.mem_singleton.1 hm]
    exact receive_pcmdMsg r name k column info

/-- A message read twice in a row is a message read once. -/
theorem receive_idem (r : TableCells) {e : TableEvent} (h : e.KeyFree) {m : TxMessage} (hm : m ∈ e.serialise) :
    receive (receive r m) m = receive r m := by
  rw [receive_serialise _ h hm, receive_serialise r h hm]
  cases e with
  | rowMultiUpdate name k fields => exact write_idem r k (cellsOfFields fields)
  | _ => rfl

/-- The messages of an operation's events. -/
theorem foldl_receive_events : ∀ (events : List TableEvent) (r : TableCells), (∀ e ∈ events, e.KeyFree) →
    (events.flatMap TableEvent.serialise).foldl receive r = applyEvents r events
  | [], _, _ => rfl
  | e :: events, r, h => by
    obtain ⟨he, hrest⟩ := List.forall_mem_cons.1 h
    have hhead : e.serialise.foldl receive r = e.deltas.foldl Cells.apply r := by
      cases hs : e.serialise with
      | nil => cases e <;> first | rfl | cases hs
      | cons m ms =>
        have hm := receive_serialise r he (m := m) (by rw [hs]; exact List.mem_cons_self)
        have : ms = [] := by cases e <;> cases hs <;> rfl
        rw [this]
        exact hm
    rw [List.flatMap_cons, List.foldl_append, hhead, foldl_receive_events events _ hrest, applyEvents, applyEvents,
      List.flatMap_cons, List.foldl_append]

/-! ## Reading a snapshot is putting the table over the copy -/

theorem rowName_injective {m n : Nat} (h : rowName m = rowName n) : m = n :=
  Decimal.decimal_injective (List.append_cancel_left h)

section Numbered

variable {α : Type} (name : Nat → Bytes) (items : α → List TxItem)

/-- Containers under numbered names. -/
def numberedItems (as : List α) : List TxItem := as.zipIdx.map fun a => .container (name a.2) (items a.1)

theorem children_numberedItems (f v : Bytes) (as : List α) :
    children (.field f v :: numberedItems name items as) = as.zipIdx.map fun a => (name a.2, items a.1) := by
  show children (numberedItems name items as) = _
  rw [children, numberedItems, List.filterMap_map, ← List.filterMap_eq_map]
  rfl

theorem childNames_numberedItems (f v : Bytes) (as : List α) :
    childNames (.field f v :: numberedItems name items as) = as.zipIdx.map fun a => name a.2 := by
  rw [childNames_eq, children_numberedItems, List.map_map]
  rfl

theorem countChild_numberedItems (f v : Bytes) (as : List α) :
    countChild (.field f v :: numberedItems name items as) = as.length := by
  rw [countChild, childNames_numberedItems, List.length_map, List.length_zipIdx]

theorem numberedItems_append (as : List α) (a : α) :
    numberedItems name items (as ++ [a]) = numberedItems name items as ++ [.container (name as.length) (items a)] := by
  rw [numberedItems, numberedItems, List.zipIdx_append, List.map_append, Nat.zero_add]
  rfl

/-- **The next number is free**, so that its container goes to the end. -/
theorem modifyChild_numberedItems (hname : ∀ {i j}, name i = name j → i = j) (f v : Bytes) (as : List α) (a : α)
    {g : List TxItem → List TxItem} (hg : g [] = items a) :
    modifyChild (.field f v :: numberedItems name items as) (name as.length) g =
      .field f v :: numberedItems name items (as ++ [a]) := by
  have hnew : name as.length ∉ childNames (.field f v :: numberedItems name items as) := by
    rw [childNames_numberedItems]
    intro hm
    obtain ⟨r, hr, he⟩ := List.mem_map.1 hm
    have hlt := List.snd_lt_of_mem_zipIdx hr
    exact absurd (hname he) (by omega)
  rw [modifyChild_of_not_mem hnew, hg, numberedItems_append]
  rfl

/-- **A container is found under its number.** -/
theorem findChild_numberedItems (hname : ∀ {i j}, name i = name j → i = j) (f v : Bytes) (as : List α) (i : Nat) :
    findChild (name i) (.field f v :: numberedItems name items as) = as[i]?.map items := by
  show findChild (name i) (numberedItems name items as) = _
  induction as using List.reverseRecOn with
  | nil => rfl
  | append_singleton as a ih =>
    rw [numberedItems_append, findChild_append, ih, findChild, findChild, List.getElem?_append]
    by_cases hi : i < as.length
    · rw [if_pos hi, List.getElem?_eq_getElem hi, Option.map_some, Option.some_or]
    · rw [if_neg hi, List.getElem?_eq_none (by omega), Option.map_none, Option.none_or]
      by_cases hlast : i = as.length
      · subst hlast
        rw [if_pos rfl, Nat.sub_self]
        rfl
      · rw [if_neg fun he => hlast (hname he).symm, List.getElem?_eq_none (by simp only [List.length_singleton]; omega)]
        rfl

end Numbered

/-- What a row becomes in a snapshot message. -/
def snapshotItems (pcmd : Std.TreeMap Bytes (Std.TreeMap Bytes TxContainer)) (row : DataRow) : List TxItem :=
  ((pcmd[row.rowkey]?.getD ∅).toList.map Prod.snd).foldl putChildCopy (putFields [] row.fields)

/-- The head of a snapshot message, before the numbers. -/
def snapshotHead (tableName : Bytes) : TxItem :=
  .container Id.head [.field Id.tablename tableName, .field Id.msgtype Id.tableupdate]

/-- The rows of a snapshot message, numbered from zero. -/
def rowContainers (pcmd : Std.TreeMap Bytes (Std.TreeMap Bytes TxContainer)) (rows : List DataRow) : List TxItem :=
  rows.zipIdx.map fun r => .container (rowName r.2) (snapshotItems pcmd r.1)

def snapshotBody (pcmd : Std.TreeMap Bytes (Std.TreeMap Bytes TxContainer)) (rows : List DataRow) : List TxItem :=
  .field Id.rows (decimal rows.length) :: rowContainers pcmd rows

theorem children_snapshotBody (pcmd : Std.TreeMap Bytes (Std.TreeMap Bytes TxContainer)) (rows : List DataRow) :
    children (snapshotBody pcmd rows) = rows.zipIdx.map fun r => (rowName r.2, snapshotItems pcmd r.1) :=
  children_numberedItems rowName (snapshotItems pcmd) _ _ rows

theorem addSnapshotRow_snapshotBody (pcmd : Std.TreeMap Bytes (Std.TreeMap Bytes TxContainer)) (rows : List DataRow)
    (row : DataRow) : addSnapshotRow pcmd (snapshotBody pcmd rows) row = snapshotBody pcmd (rows ++ [row]) := by
  have hcount : countChild (snapshotBody pcmd rows) = rows.length :=
    countChild_numberedItems rowName (snapshotItems pcmd) _ _ rows
  have hadd := modifyChild_numberedItems rowName (snapshotItems pcmd) rowName_injective Id.rows (decimal rows.length) rows
    row (g := fun is => ((pcmd[row.rowkey]?.getD ∅).toList.map Prod.snd).foldl putChildCopy (putFields is row.fields)) rfl
  unfold addSnapshotRow
  simp only [hcount]
  rw [snapshotBody, snapshotBody, List.length_append]
  exact congrArg (fun is => putField is Id.rows (decimal (rows.length + 1))) hadd

theorem snapshotBatch_root (t : DataTable) (rows : List DataRow) :
    (t.snapshotBatch rows).root = [snapshotHead t.tableName, .container Id.body (snapshotBody t.pcmd rows)] := by
  have hloop : ∀ (rows done : List DataRow),
      rows.foldl (fun root row => modifyChild root Id.body fun body => addSnapshotRow t.pcmd body row)
        [snapshotHead t.tableName, .container Id.body (snapshotBody t.pcmd done)] =
      [snapshotHead t.tableName, .container Id.body (snapshotBody t.pcmd (done ++ rows))] := by
    intro rows
    induction rows with
    | nil => exact fun done => by rw [List.foldl_nil, List.append_nil]
    | cons row rows ih =>
      intro done
      have hstep : modifyChild [snapshotHead t.tableName, .container Id.body (snapshotBody t.pcmd done)] Id.body
          (fun body => addSnapshotRow t.pcmd body row) =
          [snapshotHead t.tableName, .container Id.body (addSnapshotRow t.pcmd (snapshotBody t.pcmd done) row)] := rfl
      rw [List.foldl_cons, hstep, addSnapshotRow_snapshotBody, ih, List.append_assoc, List.singleton_append]
  exact hloop rows []

theorem bodyRows_snapshotBatch (t : DataTable) (rows : List DataRow) :
    bodyRows (t.snapshotBatch rows).root = rows.map (snapshotItems t.pcmd) := by
  have hfind : findChild Id.body (t.snapshotBatch rows).root = some (snapshotBody t.pcmd rows) := by
    rw [snapshotBatch_root]
    rfl
  rw [bodyRows_eq hfind, children_snapshotBody, List.map_map]
  · conv => rhs; rw [← List.zipIdx_map_fst 0 rows, List.map_map]
    rfl
  · intro c hc
    rw [children_snapshotBody] at hc
    obtain ⟨r, -, rfl⟩ := List.mem_map.1 hc
    exact isPrefixOf_rowName (decimal r.2)

theorem findField_snapshotItems (pcmd : Std.TreeMap Bytes (Std.TreeMap Bytes TxContainer)) (row : DataRow) (c : Bytes) :
    findField c (snapshotItems pcmd row) = row.fields[c]? := by
  rw [snapshotItems, findField_foldl_putChildCopy, findField_putFields]
  exact Option.or_none

theorem rowDelta_snapshotItems (pcmd : Std.TreeMap Bytes (Std.TreeMap Bytes TxContainer)) {row : DataRow}
    (h : row.fields[Id.rowKey]? = some row.rowkey) :
    rowDelta (snapshotItems pcmd row) = some (.write row.rowkey (cellsOfFields row.fields)) :=
  rowDelta_eq ((findField_snapshotItems pcmd row _).trans h) fun c _ => findField_snapshotItems pcmd row c

theorem receive_snapshotBatch (t : DataTable) (r : TableCells) {rows : List DataRow}
    (h : ∀ row ∈ rows, row.fields[Id.rowKey]? = some row.rowkey) :
    receive r (t.snapshotBatch rows) = (rows.map DataRow.keyed).foldl (fun r row => r.write row.1 row.2) r := by
  have hd : messageDeltas (t.snapshotBatch rows) = rows.map fun row => .write row.rowkey (cellsOfFields row.fields) := by
    refine (messageDeltas_tableupdate (t.snapshotBatch rows).root).trans ?_
    rw [bodyRows_snapshotBatch, List.filterMap_map, ← List.filterMap_eq_map]
    exact List.filterMap_congr fun row hrow => rowDelta_snapshotItems t.pcmd (h row hrow)
  rw [receive, hd, List.foldl_map, List.foldl_map]
  rfl

/-- The numbers go to the head, where a copy does not look. -/
theorem foldl_receive_numberSnapshot (msgs : List TxMessage) (r : TableCells) :
    (numberSnapshot msgs).foldl receive r = msgs.foldl receive r := by
  have hbody : ∀ (v v' : Bytes) (root : List TxItem),
      bodyRows (putFieldQ v Id.qnHeadSnapn (putFieldQ v' Id.qnHeadSnapi root)) = bodyRows root := fun v v' root => by
    unfold bodyRows Id.qnHeadSnapn Id.qnHeadSnapi
    rw [findChild_body_head, findChild_body_head]
  rw [numberSnapshot, List.foldl_map]
  conv => rhs; rw [← List.zipIdx_map_fst 0 msgs, List.foldl_map]
  congr 1
  funext r mi
  simp only [receive, messageDeltas, hbody]

/-- **The batches are the rows, cut in order**, and each fits a message; the batch size only goes down. -/
theorem snapshotLoop_ok (t : DataTable) (batchsize : BatchSize) (next : List DataRow) (msgs : List TxMessage)
    {out : List TxMessage × BatchSize} (h : t.snapshotLoop batchsize next msgs = .ok out) :
    ∃ batches : List (List DataRow), out.1 = msgs ++ batches.map t.snapshotBatch ∧ batches.flatten = next ∧
      (∀ batch ∈ batches, batch ≠ [] ∧ batch.length ≤ batchsize.rows ∧
        checkEncSize (t.snapshotBatch batch) roomForSnapFields = true) ∧ out.2.rows ≤ batchsize.rows := by
  fun_induction DataTable.snapshotLoop t batchsize next msgs with
  | case1 batchsize msgs =>
    cases h
    exact ⟨[], (List.append_nil _).symm, rfl, (fun _ hb => by cases hb), Nat.le_refl _⟩
  | case2 batchsize next msgs hnext msg hfits ih =>
    obtain ⟨batches, hout, hrows, hbatches, hsize⟩ := ih h
    refine ⟨next.take batchsize.rows :: batches, ?_, ?_, ?_, hsize⟩
    · rw [hout, List.append_assoc]
      rfl
    · rw [List.flatten_cons, hrows, List.take_append_drop]
    · refine List.forall_mem_cons.2 ⟨⟨?_, List.length_take_le _ _, hfits⟩, hbatches⟩
      rw [Ne, List.take_eq_nil_iff, not_or]
      exact ⟨Nat.ne_of_gt batchsize.pos, hnext⟩
  | case3 => cases h
  | case4 batchsize next msgs hnext msg hfits hone ih =>
    obtain ⟨batches, hout, hrows, hbatches, hsize⟩ := ih h
    have hlt := BatchSize.half_lt hone
    refine ⟨batches, hout, hrows, fun batch hb => ?_, by omega⟩
    obtain ⟨hne, hlen, hfit⟩ := hbatches batch hb
    exact ⟨hne, by omega, hfit⟩

/-- **A table whose rows fit one by one has a snapshot.** -/
theorem snapshotLoop_isOk (t : DataTable) (batchsize : BatchSize) (next : List DataRow) (msgs : List TxMessage)
    (h : ∀ row ∈ next, checkEncSize (t.snapshotBatch [row]) roomForSnapFields = true) :
    ∃ out, t.snapshotLoop batchsize next msgs = .ok out := by
  fun_induction DataTable.snapshotLoop t batchsize next msgs with
  | case1 batchsize msgs => exact ⟨_, rfl⟩
  | case2 batchsize next msgs hnext msg hfits ih => exact ih fun row hrow => h row (List.mem_of_mem_drop hrow)
  | case3 batchsize next msgs hnext msg hfits hone =>
    obtain ⟨row, rest, rfl⟩ := List.exists_cons_of_ne_nil hnext
    refine absurd (h row List.mem_cons_self) ?_
    have hmsg : msg = t.snapshotBatch [row] := by
      show t.snapshotBatch ((row :: rest).take batchsize.rows) = _
      rw [hone]
      rfl
    rw [← hmsg]
    exact hfits
  | case4 batchsize next msgs hnext msg hfits hone ih => exact ih h

theorem foldl_receive_batches (t : DataTable) : ∀ (batches : List (List DataRow)) (r : TableCells),
    (∀ row ∈ batches.flatten, row.fields[Id.rowKey]? = some row.rowkey) →
    (batches.map t.snapshotBatch).foldl receive r =
      (batches.flatten.map DataRow.keyed).foldl (fun r row => r.write row.1 row.2) r
  | [], _, _ => rfl
  | batch :: batches, r, h => by
    rw [List.flatten_cons] at h
    rw [List.map_cons, List.foldl_cons, receive_snapshotBatch t r fun row hrow => h row (List.mem_append_left _ hrow),
      foldl_receive_batches t batches _ fun row hrow => h row (List.mem_append_right _ hrow), List.flatten_cons,
      List.map_append, List.foldl_append]

/-- **Reading a snapshot puts the table's cells over the copy.** -/
theorem receive_snapshot {t : DataTable} (h : t.Inv) {out : List TxMessage × BatchSize} (hs : t.snapshotMsgs = .ok out)
    (r : TableCells) : out.1.foldl receive r = t.cells.over r := by
  unfold DataTable.snapshotMsgs at hs
  split at hs
  · cases hs
  · rename_i msgs batchsize hloop
    cases hs
    obtain ⟨batches, hmsgs, hrows, -, -⟩ := snapshotLoop_ok t _ _ _ hloop
    rw [List.nil_append] at hmsgs
    subst hmsgs
    have hnodup : ((t.rows.map DataRow.keyed).map Prod.fst).Nodup := by
      rw [map_keyed_fst]
      exact h.rows.nodup
    rw [foldl_receive_numberSnapshot, foldl_receive_batches t batches r (hrows ▸ h.keyed), hrows,
      foldl_write_rows _ _ hnodup]
    rfl

theorem snapshotMsgs_isOk {t : DataTable} (h : t.RowsFit) : ∃ out, t.snapshotMsgs = .ok out := by
  obtain ⟨out, hout⟩ := snapshotLoop_isOk t t.batchsize t.rows [] h
  rw [DataTable.snapshotMsgs, hout]
  exact ⟨_, rfl⟩

end Exio
