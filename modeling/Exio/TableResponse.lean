import Exio.AdminClient
import Exio.SamPath
import Exio.TableReplica
/-!
# TableResponse — a table in a response, as built and as read

`TableBuilder` (`AdminCommand.cc`) lays a table out in the body of a response: the columns as numbered children of
`respdata.tabledescr.columns`, the rows as numbered children of `respdata.tableupdate`, the cells as fields of their row
under the columns' names.  `formatreply_simplelist` does the same for a list of strings, as a table of one column.  The
command line client (`admin.cc`) reads a grid out of it.  Builder and reader share nothing but the names.

Both sides go by number (`Numbered`), and **the client reads the columns and rows that were put in**
(`table_response_read`).  A cell of a column called `RowKey` goes over the row's key, which the client does not look at;
`table show` gives every row the key `RowKey`, so that such a column is what the keys of its rows depend on
(`table_show_keyed`).
-/
namespace Exio

open Sam
open Decimal (decimal)
open Numbered (putAll Lays)

namespace Id

def respdata    : Bytes := ascii "respdata"
def resptype    : Bytes := ascii "resptype"
def synthetic   : Bytes := ascii "synthetic"
def scalarlist  : Bytes := ascii "scalarlist"
def table       : Bytes := ascii "table"
def text        : Bytes := ascii "text"
def value       : Bytes := ascii "value"
def rescode     : Bytes := ascii "rescode"
def pending     : Bytes := ascii "pending"
def msgResponse : Bytes := ascii "response"

def qnHeadReqseqno : List Bytes := [head, reqseqno]
def qnRescode      : List Bytes := [head, rescode]
def qnPending      : List Bytes := [head, pending]

end Id

/-! ## The builder -/

def msgName (n : Nat) : Bytes := Id.msgPrefix ++ decimal n

/-- A container of `respdata`, changed through the reference to it. -/
def inRespdata (c : Bytes) (f : List TxItem → List TxItem) (body : List TxItem) : List TxItem :=
  modifyChild body Id.respdata fun respdata => modifyChild respdata c f

/-- One turn of the loop of `set_columns`, on the container of the columns. -/
def putColumn (index : Nat) (name : Bytes) (columns : List TxItem) : List TxItem :=
  modifyChild columns (msgName index) fun msg => putField msg Id.colname name

/-- The columns with their count, in a container that was cleared. -/
def columnItems (cols : List Bytes) : List TxItem :=
  putAll putColumn 0 cols (putField [] Id.msgcount (decimal cols.length))

/-- The loop of `add_row`: it ends with the shorter of the two vectors. -/
def fillRow (columns values : List Bytes) (row : List TxItem) : List TxItem :=
  (columns.zip values).foldl (fun row cell => putField row cell.1 cell.2) row

/-- `add_row` on `m_tableupdate`, for row number `n`: its key and its values. -/
def putRow (columns : List Bytes) (n : Nat) (row : Bytes × List Bytes) (tableupdate : List TxItem) : List TxItem :=
  modifyChild (putField tableupdate Id.rows (decimal (n + 1))) (rowName n) fun is =>
    fillRow columns row.2 (putField is Id.rowKey row.1)

/-- `TableBuilder`, which holds references into the body it was made for. -/
structure TableBuilder where
  body     : List TxItem
  rowCount : Nat
  columns  : List Bytes

namespace TableBuilder

def new (body : List TxItem) : TableBuilder :=
  let body := putChildQ [Id.respdata, Id.tabledescr] body
  let body := putChildQ [Id.respdata, Id.tableupdate] body
  ⟨putField body Id.resptype Id.table, 0, []⟩

def setColumns (b : TableBuilder) (cols : List Bytes) : TableBuilder :=
  { b with
    body    := inRespdata Id.tabledescr (fun tabledescr => modifyChild tabledescr Id.columns fun _ => columnItems cols) b.body
    columns := cols }

def addRow (b : TableBuilder) (row : Bytes × List Bytes) : TableBuilder :=
  { b with
    body     := inRespdata Id.tableupdate (putRow b.columns b.rowCount row) b.body
    rowCount := b.rowCount + 1 }

end TableBuilder

/-- A body with a table in it: `set_columns`, then `add_row` for each row. -/
def buildTable (cols : List Bytes) (rows : List (Bytes × List Bytes)) (body : List TxItem) : List TxItem :=
  (rows.foldl TableBuilder.addRow ((TableBuilder.new body).setColumns cols)).body

/-- One turn of the loop of `formatreply_simplelist`: the row is named by its key. -/
def putValue (name : Bytes) (n : Nat) (value : Bytes) (tableupdate : List TxItem) : List TxItem :=
  modifyChild tableupdate (rowName n) fun row => putField (putField row Id.rowKey (rowName n)) name value

/-- `formatreply_simplelist`; without a name the column is called `value`. -/
def formatreplySimplelist (values : List Bytes) (valueColumnName : Option Bytes) (body : List TxItem) : List TxItem :=
  let name := valueColumnName.getD Id.value
  let body := putField body Id.resptype Id.table
  let body := putField body Id.synthetic Id.scalarlist
  let body := putChildQ [Id.respdata, Id.tabledescr] body
  let body := putChildQ [Id.respdata, Id.tableupdate] body
  let body := inRespdata Id.tabledescr (fun tabledescr => modifyChild tabledescr Id.columns fun columns =>
    putColumn 0 name (putField columns Id.msgcount (ascii "1"))) body
  inRespdata Id.tableupdate (fun tableupdate =>
    putAll (putValue name) 0 values (putField tableupdate Id.rows (decimal values.length))) body

/-! ## The reader -/

/-- `size_t n = 0; if (f) n = atoi(..)`. -/
def countOf (atoi : Bytes → CInt) (f : Option Bytes) : Nat := (f.map fun v => Word.ofInt 64 (atoi v).val).getD 0

/-- What `handle_table_response` prints: a line of columns, unless the table is synthetic, and a line for each row. -/
structure Grid where
  synthetic : Bool
  columns   : List Bytes
  rows      : List (List Bytes)
deriving DecidableEq

def gridColumns (atoi : Bytes → CInt) (synthetic : Bool) (tabledescr : List TxItem) : List Bytes :=
  match findChild Id.columns tabledescr with
  | none         => []
  | some columns =>
    (List.range (countOf atoi (findField Id.msgcount columns))).filterMap fun msgn =>
      (findChild (msgName msgn) columns).bind fun msg =>
        (findField Id.colname msg).bind fun name => if synthetic && name == Id.rowKey then none else some name

/-- A missing row is left out, a missing cell is empty. -/
def gridRows (atoi : Bytes → CInt) (columns : List Bytes) (tableupdate : List TxItem) : List (List Bytes) :=
  (List.range (countOf atoi (findField Id.rows tableupdate))).filterMap fun r =>
    (findChild (rowName r) tableupdate).bind fun child => some (columns.map fun c => (findField c child).getD [])

/-- `handle_table_response`, up to the printing. -/
def handleTableResponse (atoi : Bytes → CInt) (body : List TxItem) : Option Grid :=
  let synthetic := (findField Id.synthetic body).isSome
  match findChild Id.respdata body with
  | none          => none
  | some respdata =>
    let columns := ((findChild Id.tabledescr respdata).map (gridColumns atoi synthetic)).getD []
    some ⟨synthetic, columns, ((findChild Id.tableupdate respdata).map (gridRows atoi columns)).getD []⟩

/-! ## The command `table` -/

/-- `AdminResponse`: a message with a head and a body. -/
def adminResponse (reqseqno : Bytes) : TxMessage :=
  ⟨Id.msgResponse, putFieldQ reqseqno Id.qnHeadReqseqno (putChild (putChild [] Id.head) Id.body)⟩

def addRescode (e : Int) (m : TxMessage) : TxMessage := { m with root := putFieldQ (Decimal.signed e) Id.qnRescode m.root }

def setPending (p : Bool) (m : TxMessage) : TxMessage :=
  { m with root := putFieldQ (if p then Id.true_ else Id.false_) Id.qnPending m.root }

/-- What is done to `resp.body()`. -/
def onBody (f : List TxItem → List TxItem) (m : TxMessage) : TxMessage := { m with root := modifyChild m.root Id.body f }

def formatreplyString (value : Bytes) (body : List TxItem) : List TxItem :=
  modifyChild (putField body Id.resptype Id.text) Id.respdata fun data => putField data Id.text value

/-- `AdminResponse::error`. -/
def errorResponse (reqseqno : Bytes) (errorcode : Int) (errorstr : Bytes) : TxMessage :=
  onBody (formatreplyString errorstr) (setPending false (addRescode errorcode (adminResponse reqseqno)))

/-- `copy_table`: the columns, and for each row its values; a cell the row does not have is the empty string. -/
def DataTable.copyTable (t : DataTable) : List Bytes × List (List Bytes) :=
  (t.columns, t.rows.map fun row => t.columns.map fun c => row.fields[c]?.getD [])

/-- The tables of a `Monitor` by name. -/
abbrev Tables := Std.TreeMap Bytes DataTable

/-- `admincmd_list_tables`: `tables` are those at its first look, `later` those when a table is copied. -/
def admincmdListTables (reqseqno : Bytes) (args : List Bytes) (tables later : Tables) : TxMessage :=
  let resp := setPending false (addRescode 0 (adminResponse reqseqno))
  match args with
  | []          => errorResponse reqseqno Id.errBadCommand (ascii "missing table command")
  | arg :: args =>
    if arg = ascii "list" then onBody (formatreplySimplelist tables.keys (some (ascii "table"))) resp
    else if arg = ascii "show" then
      match args with
      | []        => errorResponse reqseqno Id.errBadCommand (ascii "missing tablename")
      | name :: _ =>
        if tables[name]?.isSome then
          let copy := (later[name]?.map DataTable.copyTable).getD ([], [])
          addRescode 0 (onBody (buildTable copy.1 (copy.2.map fun r => (Id.rowKey, r))) resp)
        else errorResponse reqseqno Id.errNoTable (ascii "table not found")
    else errorResponse reqseqno Id.errBadCommand (ascii "unknown table command")

/-! ## The containers behind the references -/

theorem findChildQ_inRespdata (c c' : Bytes) (f : List TxItem → List TxItem) (body : List TxItem) :
    findChildQ [Id.respdata, c'] (inRespdata c f body) =
      if c = c' then some (f ((findChildQ [Id.respdata, c] body).getD [])) else findChildQ [Id.respdata, c'] body := by
  simp only [inRespdata, findChildQ, findChild_modifyChild, if_pos, Option.bind_some]
  cases h : findChild Id.respdata body with
  | none => by_cases hc : c = c' <;> simp [hc, findChild]
  | some respdata => by_cases hc : c = c' <;> simp [hc]

theorem putChildQ_respdata (c : Bytes) (body : List TxItem) : putChildQ [Id.respdata, c] body = inRespdata c id body := by
  rw [inRespdata, putChildQ, show putChildQ [c] = fun is => modifyChild is c id from funext fun is => (modifyChild_id is c).symm]

theorem findField_inRespdata (c f : Bytes) (g : List TxItem → List TxItem) (body : List TxItem) :
    findField f (inRespdata c g body) = findField f body := findField_modifyChild body Id.respdata f _

theorem findChildQ_putField (q : List Bytes) (f v : Bytes) (body : List TxItem) :
    findChildQ q (putField body f v) = findChildQ q body := by
  match q with
  | []          => exact findChild_putField body f v []
  | [n]         => exact findChild_putField body f v n
  | n :: m :: q => rw [findChildQ, findChild_putField, findChildQ]

/-- The reader, from the two containers. -/
theorem handleTableResponse_eq (atoi : Bytes → CInt) {body tabledescr tableupdate : List TxItem}
    (hd : findChildQ [Id.respdata, Id.tabledescr] body = some tabledescr)
    (hu : findChildQ [Id.respdata, Id.tableupdate] body = some tableupdate) (synthetic : Bool)
    (hs : (findField Id.synthetic body).isSome = synthetic) :
    handleTableResponse atoi body = some ⟨synthetic, gridColumns atoi synthetic tabledescr,
      gridRows atoi (gridColumns atoi synthetic tabledescr) tableupdate⟩ := by
  obtain ⟨respdata, hr, hd⟩ := Option.bind_eq_some_iff.1 hd
  rw [findChildQ, hr, Option.bind_some] at hu
  simp only [findChildQ] at hd hu
  simp only [handleTableResponse, hr, hs, hd, hu, Option.map_some, Option.getD_some]

/-! ## Columns -/

theorem msgName_injective {i j : Nat} (h : msgName i = msgName j) : i = j :=
  Decimal.decimal_injective (List.append_cancel_left h)

/-- Numbered children, each filled by `f`; what else a put does (`p`) leaves the children alone. -/
theorem lays_modifyChild {α : Type} {name : Nat → Bytes} (hname : ∀ {i j}, name i = name j → i = j)
    {p f : Nat → α → List TxItem → List TxItem} (hp : ∀ i a s c, findChild c (p i a s) = findChild c s) :
    Lays (fun n s => findChild (name n) s) (fun n a s => modifyChild (p n a s) (name n) (f n a)) (fun n a => f n a []) where
  fresh i a s h := by rw [findChild_modifyChild, if_pos rfl, hp, h, Option.getD_none]
  other i j a s hij := by rw [findChild_modifyChild, if_neg fun h => hij (hname h), hp]

theorem lays_putColumn :
    Lays (fun n columns => findChild (msgName n) columns) putColumn (fun _ name => [.field Id.colname name]) :=
  lays_modifyChild (p := fun _ _ columns => columns) msgName_injective fun _ _ _ _ => rfl

theorem gridColumns_columnItems {atoi : Bytes → CInt} (hat : ReadsNumerals atoi) {cols : List Bytes}
    (hlen : cols.length < 2 ^ 31) (synthetic : Bool) (hkey : synthetic = true → Id.rowKey ∉ cols)
    {tabledescr : List TxItem} (h : findChild Id.columns tabledescr = some (columnItems cols)) :
    gridColumns atoi synthetic tabledescr = cols := by
  have hcount : findField Id.msgcount (columnItems cols) = some (decimal cols.length) := by
    have hput : ∀ i name columns, findField Id.msgcount (putColumn i name columns) = findField Id.msgcount columns :=
      fun i name columns => findField_modifyChild columns _ _ _
    rw [columnItems, Numbered.putAll_keeps (g := findField Id.msgcount) hput, findField_putField, if_pos rfl]
  simp only [gridColumns, h, hcount, countOf, Option.map_some, Option.getD_some, hat.size hlen]
  have hblank : ∀ n, findChild (msgName n) (putField [] Id.msgcount (decimal cols.length)) = none := fun n => by
    rw [findChild_putField]
    rfl
  refine Eq.trans ?_ (List.map_id cols)
  refine lays_putColumn.filterMap_range cols hblank fun _ name hname => ?_
  have hcol : findField Id.colname [.field Id.colname name] = some name := by simp [findField]
  rw [hcol, Option.bind_some, if_neg]
  · rfl
  · rw [Bool.and_eq_true, beq_iff_eq]
    rintro ⟨hs, rfl⟩
    exact hkey hs hname

/-! ## Rows -/

theorem findField_fillRow_of_not_mem {c : Bytes} : ∀ (columns values : List Bytes) (row : List TxItem), c ∉ columns →
    findField c (fillRow columns values row) = findField c row
  | [], _, _, _ => rfl
  | _ :: _, [], _, _ => rfl
  | n :: columns, v :: values, row, hc => by
    rw [List.mem_cons, not_or] at hc
    have ih := findField_fillRow_of_not_mem columns values (putField row n v) hc.2
    rw [findField_putField, if_neg (Ne.symm hc.1)] at ih
    exact ih

/-- **The cells of a row are read in the order of the columns.** -/
theorem cells_fillRow : ∀ {columns values : List Bytes} (row : List TxItem), columns.Nodup →
    values.length = columns.length → columns.map (fun c => (findField c (fillRow columns values row)).getD []) = values
  | [], [], _, _, _ => rfl
  | n :: columns, v :: values, row, hnodup, hlen => by
    obtain ⟨hn, hnodup⟩ := List.nodup_cons.1 hnodup
    have ih := cells_fillRow (putField row n v) hnodup (by simpa using hlen)
    -- a second column of this name would overwrite the cell: here the names have to differ
    have hhead : findField n (fillRow columns values (putField row n v)) = some v := by
      rw [findField_fillRow_of_not_mem columns values _ hn, findField_putField, if_pos rfl]
    rw [List.map_cons]
    exact congrArg₂ List.cons (by rw [show fillRow (n :: columns) (v :: values) row =
      fillRow columns values (putField row n v) from rfl, hhead, Option.getD_some]) ih

/-- What a row holds under a name, if its values are those of a function on the columns. -/
theorem findField_fillRow_map (f : Bytes → Bytes) (c : Bytes) : ∀ (columns : List Bytes) (row : List TxItem),
    findField c (fillRow columns (columns.map f) row) = if c ∈ columns then some (f c) else findField c row
  | [], _ => by simp [fillRow]
  | n :: columns, row => by
    have ih := findField_fillRow_map f c columns (putField row n (f n))
    rw [findField_putField] at ih
    refine Eq.trans ih ?_
    by_cases hn : n = c
    · subst hn
      simp
    · simp [hn, Ne.symm hn]

theorem lays_putRow (columns : List Bytes) : Lays (fun n tableupdate => findChild (rowName n) tableupdate) (putRow columns)
    (fun _ row => fillRow columns row.2 [.field Id.rowKey row.1]) :=
  lays_modifyChild rowName_injective fun n _ tableupdate c => findChild_putField tableupdate Id.rows (decimal (n + 1)) c

theorem lays_putValue (name : Bytes) : Lays (fun n tableupdate => findChild (rowName n) tableupdate) (putValue name)
    (fun n value => putField [.field Id.rowKey (rowName n)] name value) :=
  lays_modifyChild (p := fun _ _ tableupdate => tableupdate) rowName_injective fun _ _ _ _ => rfl

/-- The count goes with the rows, and is missing without them. -/
theorem findField_rows_putRow (columns : List Bytes) : ∀ (rows : List (Bytes × List Bytes)) (n : Nat) (s : List TxItem),
    findField Id.rows (putAll (putRow columns) n rows s) =
      if rows = [] then findField Id.rows s else some (decimal (n + rows.length))
  | [], _, _ => rfl
  | row :: rows, n, s => by
    rw [putAll, findField_rows_putRow columns rows, if_neg (List.cons_ne_nil row rows), putRow, findField_modifyChild,
      findField_putField, if_pos rfl]
    cases rows with
    | nil => rfl
    | cons r rows =>
      rw [if_neg (List.cons_ne_nil r rows), List.length_cons (a := row)]
      congr 2
      omega

/-- **Rows that were put under their numbers are read in order.** -/
theorem gridRows_putAll {α : Type} {put : Nat → α → List TxItem → List TxItem} {val : Nat → α → List TxItem}
    (h : Lays (fun n tableupdate => findChild (rowName n) tableupdate) put val) {atoi : Bytes → CInt} {columns : List Bytes}
    {as : List α} {s : List TxItem} {out : α → List Bytes} (hs : ∀ n, findChild (rowName n) s = none)
    (hcount : countOf atoi (findField Id.rows (putAll put 0 as s)) = as.length)
    (hcells : ∀ n, ∀ a ∈ as, columns.map (fun c => (findField c (val n a)).getD []) = out a) :
    gridRows atoi columns (putAll put 0 as s) = as.map out := by
  rw [gridRows, hcount]
  exact h.filterMap_range as hs fun n a ha => congrArg some (hcells n a ha)

/-! ## A table, built and read -/

/-- **What `add_row` for each row does to the body**: the rows go under their numbers, the rest stays. -/
theorem foldl_addRow_body : ∀ (rows : List (Bytes × List Bytes)) (b : TableBuilder) {tableupdate : List TxItem},
    findChildQ [Id.respdata, Id.tableupdate] b.body = some tableupdate →
    findChildQ [Id.respdata, Id.tableupdate] (rows.foldl TableBuilder.addRow b).body =
        some (putAll (putRow b.columns) b.rowCount rows tableupdate) ∧
      findChildQ [Id.respdata, Id.tabledescr] (rows.foldl TableBuilder.addRow b).body =
        findChildQ [Id.respdata, Id.tabledescr] b.body ∧
      findField Id.synthetic (rows.foldl TableBuilder.addRow b).body = findField Id.synthetic b.body
  | [], _, _, h => ⟨h, rfl, rfl⟩
  | row :: rows, b, tableupdate, h => by
    have hstep : findChildQ [Id.respdata, Id.tableupdate] (b.addRow row).body =
        some (putRow b.columns b.rowCount row tableupdate) := by
      rw [TableBuilder.addRow, findChildQ_inRespdata, if_pos rfl, h]
      rfl
    obtain ⟨hu, hd, hs⟩ := foldl_addRow_body rows (b.addRow row) hstep
    refine ⟨hu, hd.trans ?_, hs.trans (findField_inRespdata _ _ _ _)⟩
    rw [TableBuilder.addRow, findChildQ_inRespdata, if_neg (by decide)]

/-- The two containers of a response that had none. -/
theorem findChildQ_fresh {body : List TxItem} (h : findChild Id.respdata body = none) {c : Bytes}
    (hc : c = Id.tabledescr ∨ c = Id.tableupdate) :
    findChildQ [Id.respdata, c] (putChildQ [Id.respdata, Id.tableupdate] (putChildQ [Id.respdata, Id.tabledescr] body)) =
      some [] := by
  have hnone : ∀ c, findChildQ [Id.respdata, c] body = none := by
    intro c
    rw [findChildQ, h]
    rfl
  simp only [putChildQ_respdata, findChildQ_inRespdata, hnone]
  rcases hc with rfl | rfl
  · rw [if_neg (by decide), if_pos rfl]
    rfl
  · rw [if_pos rfl, if_neg (by decide)]
    rfl

/-- A body that has no table yet. -/
structure BlankBody (body : List TxItem) : Prop where
  respdata  : findChild Id.respdata body = none
  synthetic : findField Id.synthetic body = none

/-- The containers of a table that was built. -/
theorem buildTable_parts (cols : List Bytes) (rows : List (Bytes × List Bytes)) {body : List TxItem} (h : BlankBody body) :
    findChildQ [Id.respdata, Id.tableupdate] (buildTable cols rows body) = some (putAll (putRow cols) 0 rows []) ∧
    (∃ tabledescr, findChildQ [Id.respdata, Id.tabledescr] (buildTable cols rows body) = some tabledescr ∧
      findChild Id.columns tabledescr = some (columnItems cols)) ∧
    findField Id.synthetic (buildTable cols rows body) = none := by
  have hupd : findChildQ [Id.respdata, Id.tableupdate] ((TableBuilder.new body).setColumns cols).body = some [] := by
    rw [TableBuilder.setColumns, findChildQ_inRespdata, if_neg (by decide), TableBuilder.new]
    exact (findChildQ_putField _ _ _ _).trans (findChildQ_fresh h.respdata (.inr rfl))
  obtain ⟨hu, hd, hs⟩ := foldl_addRow_body rows ((TableBuilder.new body).setColumns cols) hupd
  have hdescr : ∃ tabledescr,
      findChildQ [Id.respdata, Id.tabledescr] ((TableBuilder.new body).setColumns cols).body = some tabledescr ∧
        findChild Id.columns tabledescr = some (columnItems cols) := by
    rw [TableBuilder.setColumns, findChildQ_inRespdata, if_pos rfl]
    exact ⟨_, rfl, by rw [findChild_modifyChild, if_pos rfl]⟩
  obtain ⟨tabledescr, hd', hc⟩ := hdescr
  refine ⟨hu, ⟨tabledescr, hd.trans hd', hc⟩, hs.trans ?_⟩
  rw [TableBuilder.setColumns, findField_inRespdata]
  simp only [TableBuilder.new, findField_putField, putChildQ_respdata, findField_inRespdata, h.synthetic]
  rw [if_neg (by decide)]

/-- **A table in a response is read back.** -/
theorem handleTableResponse_buildTable {atoi : Bytes → CInt} (hat : ReadsNumerals atoi) {cols : List Bytes}
    (hcols : cols.Nodup) (hlen : cols.length < 2 ^ 31) {rows : List (Bytes × List Bytes)} (hrows : rows.length < 2 ^ 31)
    (hwidth : ∀ r ∈ rows, r.2.length = cols.length) {body : List TxItem} (h : BlankBody body) :
    handleTableResponse atoi (buildTable cols rows body) = some ⟨false, cols, rows.map Prod.snd⟩ := by
  obtain ⟨hu, ⟨tabledescr, hd, hc⟩, hs⟩ := buildTable_parts cols rows h
  have hcolumns := gridColumns_columnItems hat hlen false (fun hf => by cases hf) hc
  have hcount : countOf atoi (findField Id.rows (putAll (putRow cols) 0 rows [])) = rows.length := by
    rw [findField_rows_putRow]
    cases rows with
    -- no row, no `rows` field: the reader takes the missing count for zero
    | nil => rfl
    | cons r rows =>
      rw [if_neg (List.cons_ne_nil r rows), Nat.zero_add, countOf, Option.map_some, Option.getD_some]
      exact hat.size hrows
  have hgrid := gridRows_putAll (lays_putRow cols) (fun n => rfl) hcount
    fun n r hr => cells_fillRow _ hcols (hwidth r hr)
  rw [handleTableResponse_eq atoi hd hu false (by rw [hs]; rfl), hcolumns, hgrid]

/-- The containers of a list that was formatted. -/
theorem simplelist_parts (values : List Bytes) (name : Option Bytes) {body : List TxItem}
    (h : findChild Id.respdata body = none) :
    findChildQ [Id.respdata, Id.tableupdate] (formatreplySimplelist values name body) =
      some (putAll (putValue (name.getD Id.value)) 0 values (putField [] Id.rows (decimal values.length))) ∧
    (∃ tabledescr, findChildQ [Id.respdata, Id.tabledescr] (formatreplySimplelist values name body) = some tabledescr ∧
      findChild Id.columns tabledescr = some (columnItems [name.getD Id.value])) ∧
    findField Id.synthetic (formatreplySimplelist values name body) = some Id.scalarlist := by
  have hresp : findChild Id.respdata (putField (putField body Id.resptype Id.table) Id.synthetic Id.scalarlist) = none := by
    rw [findChild_putField, findChild_putField, h]
  have hone : ascii "1" = decimal 1 := by decide
  refine ⟨?_, ?_, ?_⟩
  · rw [formatreplySimplelist, findChildQ_inRespdata, if_pos rfl, findChildQ_inRespdata, if_neg (by decide),
      findChildQ_fresh hresp (.inr rfl)]
    rfl
  · rw [formatreplySimplelist, findChildQ_inRespdata, if_neg (by decide), findChildQ_inRespdata, if_pos rfl,
      findChildQ_fresh hresp (.inl rfl)]
    refine ⟨_, rfl, ?_⟩
    rw [Option.getD_some, findChild_modifyChild, if_pos rfl, hone]
    rfl
  · simp only [formatreplySimplelist, findField_inRespdata, putChildQ_respdata, findField_putField, if_pos]

/-- **A list in a response is read back.** -/
theorem handleTableResponse_simplelist {atoi : Bytes → CInt} (hat : ReadsNumerals atoi) {values : List Bytes}
    (hlen : values.length < 2 ^ 31) {name : Option Bytes} (hname : name ≠ some Id.rowKey) {body : List TxItem}
    (h : findChild Id.respdata body = none) :
    handleTableResponse atoi (formatreplySimplelist values name body) =
      some ⟨true, [name.getD Id.value], values.map fun v => [v]⟩ := by
  obtain ⟨hu, ⟨tabledescr, hd, hc⟩, hs⟩ := simplelist_parts values name h
  have hkey : Id.rowKey ≠ name.getD Id.value := by
    cases name with
    | none => decide
    | some n => exact fun hn => hname (congrArg some hn.symm)
  have hone : [name.getD Id.value].length < 2 ^ 31 := by rw [List.length_singleton]; decide
  have hcolumns := gridColumns_columnItems hat hone true (fun _ => by simpa using hkey) hc
  have hblank : ∀ n, findChild (rowName n) (putField [] Id.rows (decimal values.length)) = none := fun n => by
    rw [findChild_putField]
    rfl
  have hput : ∀ i v s, findField Id.rows (putValue (name.getD Id.value) i v s) = findField Id.rows s :=
    fun i v s => findField_modifyChild s _ _ _
  have hcount : countOf atoi (findField Id.rows (putAll (putValue (name.getD Id.value)) 0 values
      (putField [] Id.rows (decimal values.length)))) = values.length := by
    rw [Numbered.putAll_keeps (g := findField Id.rows) hput, findField_putField, if_pos rfl, countOf, Option.map_some,
      Option.getD_some]
    exact hat.size hlen
  have hcells : ∀ n, ∀ v ∈ values, [name.getD Id.value].map (fun c =>
      (findField c (putField [.field Id.rowKey (rowName n)] (name.getD Id.value) v)).getD []) = [v] := by
    intro n v _
    rw [List.map_singleton, findField_putField, if_pos rfl, Option.getD_some]
  rw [handleTableResponse_eq atoi hd hu true (by rw [hs]; rfl), hcolumns,
    gridRows_putAll (lays_putValue _) hblank hcount hcells]

/-! ## `table show` -/

theorem findChild_body_addRescode (e : Int) (m : TxMessage) :
    findChild Id.body (addRescode e m).root = findChild Id.body m.root := findChild_body_head (Decimal.signed e) Id.rescode m.root

theorem findChild_body_onBody (f : List TxItem → List TxItem) (m : TxMessage) :
    findChild Id.body (onBody f m).root = some (f ((findChild Id.body m.root).getD [])) := by
  rw [onBody, findChild_modifyChild, if_pos rfl]

/-- The body a command begins with. -/
theorem findChild_body_resp (reqseqno : Bytes) :
    findChild Id.body (setPending false (addRescode 0 (adminResponse reqseqno))).root = some [] := by
  rw [setPending, Id.qnPending, findChild_body_head, findChild_body_addRescode, adminResponse, Id.qnHeadReqseqno,
    findChild_body_head]
  decide

/-- The `RowKey` of row `i` of a response. -/
def shownKey (m : TxMessage) (i : Nat) : Option Bytes :=
  findFieldQ [Id.body, Id.respdata, Id.tableupdate, rowName i, Id.rowKey] m.root

section

variable {tables later : Tables} {name : Bytes} {t : DataTable} (hname : tables[name]?.isSome = true)
  (hlater : later[name]? = some t) (reqseqno : Bytes) (args : List Bytes)
include hname hlater

theorem findChild_body_show :
    findChild Id.body (admincmdListTables reqseqno (ascii "show" :: name :: args) tables later).root =
      some (buildTable t.columns (t.copyTable.2.map fun r => (Id.rowKey, r)) []) := by
  simp only [admincmdListTables, if_neg (show ascii "show" ≠ ascii "list" by decide), if_pos, hname, hlater]
  rw [findChild_body_addRescode, findChild_body_onBody, findChild_body_resp]
  rfl

/-- **`table show` as the client reads it**: the table's columns and rows. -/
theorem handleTableResponse_show {atoi : Bytes → CInt} (hat : ReadsNumerals atoi) (h : t.Inv)
    (hcols : t.columns.length < 2 ^ 31) (hrows : t.rows.length < 2 ^ 31) :
    (findChild Id.body (admincmdListTables reqseqno (ascii "show" :: name :: args) tables later).root).bind
        (handleTableResponse atoi) = some ⟨false, t.copyTable.1, t.copyTable.2⟩ := by
  have hwidth : ∀ r ∈ t.copyTable.2.map fun r => (Id.rowKey, r), r.2.length = t.columns.length := by
    intro r hr
    obtain ⟨values, hv, rfl⟩ := List.mem_map.1 hr
    obtain ⟨row, -, rfl⟩ := List.mem_map.1 hv
    exact List.length_map _
  have hcount : (t.copyTable.2.map fun r => (Id.rowKey, r)).length < 2 ^ 31 := by
    simpa [DataTable.copyTable] using hrows
  rw [findChild_body_show hname hlater, Option.bind_some,
    handleTableResponse_buildTable hat h.columns.nodup hcols hcount hwidth ⟨rfl, rfl⟩, List.map_map]
  exact congrArg (fun rows => some (Grid.mk false t.columns rows)) (List.map_id _)

/-- **The key `table show` gives a row**: the row's own only if the table has a column of that name. -/
theorem shownKey_show (h : t.Inv) (i : Nat) (row : DataRow) (hrow : t.rows[i]? = some row) :
    shownKey (admincmdListTables reqseqno (ascii "show" :: name :: args) tables later) i =
      some (if Id.rowKey ∈ t.columns then row.rowkey else Id.rowKey) := by
  have hblank : BlankBody [] := ⟨rfl, rfl⟩
  obtain ⟨hu, -, -⟩ := buildTable_parts t.columns (t.copyTable.2.map fun r => (Id.rowKey, r)) hblank
  have hget := (lays_putRow t.columns).get_putAll (t.copyTable.2.map fun r => (Id.rowKey, r)) 0 [] (fun _ _ => rfl) i
    (Id.rowKey, t.columns.map fun c => row.fields[c]?.getD []) (by simp [DataTable.copyTable, hrow])
  rw [Nat.zero_add] at hget
  obtain ⟨respdata, hr, hu⟩ := Option.bind_eq_some_iff.1 hu
  rw [findChildQ] at hu
  rw [shownKey, findFieldQ, findChild_body_show hname hlater, Option.bind_some, findFieldQ, hr, Option.bind_some, findFieldQ,
    hu, Option.bind_some, findFieldQ, hget, Option.bind_some, findFieldQ, findField_fillRow_map,
    h.keyed row (List.mem_of_getElem? hrow)]
  by_cases hc : Id.rowKey ∈ t.columns
  · rw [if_pos hc, if_pos hc, Option.getD_some]
  · rw [if_neg hc, if_neg hc]
    simp [findField]

end

/-- **Table responses are read as they were built**: by `TableBuilder` from any columns and rows, by `table show` from
any table, and from any list of strings. -/
theorem table_response_read {atoi : Bytes → CInt} (hat : ReadsNumerals atoi) :
    (∀ (cols : List Bytes) (rows : List (Bytes × List Bytes)) (body : List TxItem), cols.Nodup →
      (∀ r ∈ rows, r.2.length = cols.length) → cols.length < 2 ^ 31 → rows.length < 2 ^ 31 → BlankBody body →
      handleTableResponse atoi (buildTable cols rows body) = some ⟨false, cols, rows.map Prod.snd⟩) ∧
    (∀ (tableName : Bytes) (s : TableServer), Steps.Reaches tableStep Steps.Always (.new tableName) s →
      s.table.columns.length < 2 ^ 31 → s.table.rows.length < 2 ^ 31 →
      ∀ (tables later : Tables) (name reqseqno : Bytes) (args : List Bytes), tables[name]?.isSome = true →
        later[name]? = some s.table →
        (findChild Id.body (admincmdListTables reqseqno (ascii "show" :: name :: args) tables later).root).bind
          (handleTableResponse atoi) = some ⟨false, s.table.copyTable.1, s.table.copyTable.2⟩) ∧
    ∀ (values : List Bytes) (name : Option Bytes) (body : List TxItem), values.length < 2 ^ 31 → name ≠ some Id.rowKey →
      findChild Id.respdata body = none →
      handleTableResponse atoi (formatreplySimplelist values name body) =
        some ⟨true, [name.getD Id.value], values.map fun v => [v]⟩ := by
  refine ⟨?_, ?_, ?_⟩
  · intro cols rows body hcols hwidth hlen hrows hbody
    exact handleTableResponse_buildTable hat hcols hlen hrows hwidth hbody
  · intro tableName s hrun hcols hrows tables later name reqseqno args hname hlater
    exact handleTableResponse_show hname hlater reqseqno args hat (TableServer.inv_of_reaches hrun) hcols hrows
  · intro values name body hlen hname hbody
    exact handleTableResponse_simplelist hat hlen hname hbody

/-- A table with rows `a` and `b` and the column `x`. -/
def shownServer : TableServer :=
  let s := (TableServer.new (ascii "t")).exec
    (.updateRow (fun _ => ascii "now") (ascii "a") ((∅ : Fields).insert (ascii "x") (ascii "1")))
  (s.1.exec (.updateRow (fun _ => ascii "later") (ascii "b") ((∅ : Fields).insert (ascii "x") (ascii "2")))).1

theorem reaches_shownServer : Steps.Reaches tableStep Steps.Always (.new (ascii "t")) shownServer :=
  Steps.Reaches.step (.step .refl trivial rfl) trivial rfl

def shownTables : Tables := (∅ : Tables).insert (ascii "t") shownServer.table

theorem getElem?_shownTables : shownTables[ascii "t"]? = some shownServer.table := by simp [shownTables]

theorem table_response_read_sample :
    handleTableResponse sampleAtoi (buildTable [Id.rowKey, ascii "x"] [(ascii "k", [ascii "1", ascii "2"])] []) =
      some ⟨false, [Id.rowKey, ascii "x"], [[ascii "1", ascii "2"]]⟩ ∧
    (findChild Id.body (admincmdListTables (ascii "0") [ascii "show", ascii "t"] shownTables shownTables).root).bind
        (handleTableResponse sampleAtoi) = some ⟨false, shownServer.table.copyTable.1, shownServer.table.copyTable.2⟩ ∧
    handleTableResponse sampleAtoi (formatreplySimplelist [ascii "a", ascii "a"] none []) =
      some ⟨true, [Id.value], [[ascii "a"], [ascii "a"]]⟩ := by
  obtain ⟨hbuild, hshow, hlist⟩ := table_response_read sampleAtoi_readsNumerals
  refine ⟨hbuild _ [(ascii "k", [ascii "1", ascii "2"])] _ (by decide) (by decide) (by decide) (by decide) ⟨rfl, rfl⟩, ?_,
    hlist _ none _ (by decide) (by decide) rfl⟩
  exact hshow (ascii "t") shownServer reaches_shownServer (by decide +kernel) (by decide +kernel) _ _ (ascii "t") _ _
    (by rw [getElem?_shownTables]; rfl) getElem?_shownTables

/-! ## The keys of the rows -/

/-- Every row of the response has the key of the table's row. -/
def ShowsKeys (m : TxMessage) (t : DataTable) : Prop :=
  ∀ (i : Nat) (row : DataRow), t.rows[i]? = some row → shownKey m i = some row.rowkey

/-- The rows of the response have different keys. -/
def KeysDiffer (m : TxMessage) (t : DataTable) : Prop := ((List.range t.rows.length).map (shownKey m)).Nodup

instance (m : TxMessage) (t : DataTable) : Decidable (KeysDiffer m t) := inferInstanceAs (Decidable (List.Nodup _))

section

variable {m : TxMessage} {t : DataTable} (h : t.Inv)
  (hm : ∀ (i : Nat) (row : DataRow), t.rows[i]? = some row →
    shownKey m i = some (if Id.rowKey ∈ t.columns then row.rowkey else Id.rowKey))
include hm

theorem showsKeys_iff : ShowsKeys m t ↔ Id.rowKey ∈ t.columns ∨ ∀ row ∈ t.rows, row.rowkey = Id.rowKey := by
  by_cases hc : Id.rowKey ∈ t.columns
  · simp only [hc, if_true] at hm
    exact ⟨fun _ => .inl hc, fun _ => hm⟩
  · simp only [hc, if_false] at hm
    constructor
    · intro hs
      refine .inr fun row hrow => ?_
      obtain ⟨i, hi⟩ := List.mem_iff_getElem?.1 hrow
      have := (hs i row hi).symm.trans (hm i row hi)
      exact Option.some.inj this
    · rintro (hc' | hs) i row hi
      · exact absurd hc' hc
      · rw [hm i row hi, hs row (List.mem_of_getElem? hi)]

include h

theorem keysDiffer_iff : KeysDiffer m t ↔ Id.rowKey ∈ t.columns ∨ t.rows.length ≤ 1 := by
  have hkeys : (List.range t.rows.length).map (shownKey m) =
      t.rows.map fun row => some (if Id.rowKey ∈ t.columns then row.rowkey else Id.rowKey) := by
    refine List.ext_getElem (by simp) fun i h1 h2 => ?_
    rw [List.length_map] at h2
    rw [List.getElem_map, List.getElem_map, List.getElem_range]
    exact hm i _ (List.getElem?_eq_getElem h2)
  rw [KeysDiffer, hkeys]
  by_cases hc : Id.rowKey ∈ t.columns
  · simp only [hc, if_true, true_or, iff_true]
    have hnodup := h.rows.nodup.map (Option.some_injective Bytes)
    rwa [List.map_map] at hnodup
  · simp only [hc, if_false, false_or]
    rw [List.map_const', List.nodup_replicate]

end

/-- **When the rows of `table show` are keyed.**  They have the keys of the table's rows exactly if the table has a column
`RowKey`, or no row but one whose key is that very word; they have different keys exactly if the table has such a column,
or not even two rows. -/
theorem table_show_keyed {tableName : Bytes} {s : TableServer}
    (hrun : Steps.Reaches tableStep Steps.Always (.new tableName) s) {tables later : Tables} {name : Bytes}
    (hname : tables[name]?.isSome = true) (hlater : later[name]? = some s.table) (reqseqno : Bytes) (args : List Bytes) :
    (ShowsKeys (admincmdListTables reqseqno (ascii "show" :: name :: args) tables later) s.table ↔
      Id.rowKey ∈ s.table.columns ∨ ∀ row ∈ s.table.rows, row.rowkey = Id.rowKey) ∧
    (KeysDiffer (admincmdListTables reqseqno (ascii "show" :: name :: args) tables later) s.table ↔
      Id.rowKey ∈ s.table.columns ∨ s.table.rows.length ≤ 1) := by
  have hinv := TableServer.inv_of_reaches hrun
  have hm := shownKey_show hname hlater reqseqno args hinv
  exact ⟨showsKeys_iff hm, keysDiffer_iff hinv hm⟩

/-- The same table with a column for the keys. -/
def keyedServer : TableServer := (shownServer.exec (.addColumns (fun _ => ascii "then") [Id.rowKey])).1

theorem table_show_keyed_sample :
    ShowsKeys (admincmdListTables (ascii "0") [ascii "show", ascii "t"] shownTables
      ((∅ : Tables).insert (ascii "t") keyedServer.table)) keyedServer.table := by
  have hrun : Steps.Reaches tableStep Steps.Always (.new (ascii "t")) keyedServer := .step reaches_shownServer trivial rfl
  have hname : shownTables[ascii "t"]?.isSome = true := by rw [getElem?_shownTables]; rfl
  have hlater : ((∅ : Tables).insert (ascii "t") keyedServer.table)[ascii "t"]? = some keyedServer.table := by simp
  exact (table_show_keyed hrun hname hlater (ascii "0") []).1.2 (.inl (by decide +kernel))

/-- The rows `a` and `b` are both shown under the key `RowKey`. -/
theorem table_show_unkeyed :
    Steps.Reaches tableStep Steps.Always (.new (ascii "t")) shownServer ∧
    shownTables[ascii "t"]? = some shownServer.table ∧
    shownServer.table.rows.map DataRow.rowkey = [ascii "a", ascii "b"] ∧
    (List.range 2).map (shownKey (admincmdListTables (ascii "0") [ascii "show", ascii "t"] shownTables shownTables)) =
      [some (ascii "RowKey"), some (ascii "RowKey")] ∧
    ¬ ShowsKeys (admincmdListTables (ascii "0") [ascii "show", ascii "t"] shownTables shownTables) shownServer.table ∧
    ¬ KeysDiffer (admincmdListTables (ascii "0") [ascii "show", ascii "t"] shownTables shownTables) shownServer.table := by
  have hinv := TableServer.inv_of_reaches reaches_shownServer
  have hm := shownKey_show (by rw [getElem?_shownTables]; rfl) getElem?_shownTables (ascii "0") [] hinv
  refine ⟨reaches_shownServer, getElem?_shownTables, by decide +kernel, by decide +kernel, ?_, ?_⟩
  · rw [showsKeys_iff hm]
    decide +kernel
  · rw [keysDiffer_iff hinv hm]
    decide +kernel

end Exio
