import Exio.TableSnapshot
import Exio.TableResponse
/-!
# TableDescr — the description a subscriber gets

`add_subscriber` first sends a `tabledescr`: one container for each column that is in the table or has an attribute,
numbered in the order of a `std::set`, and in it the column's name and a copy of every attribute that `add_column_attr` put
into the column's list (`Table.cc`).

The columns and their numbers are right in every run (`descrMsg_columns`), and so is the count as far as an `int` goes.  The
attributes are put by `put_child`, which overwrites a child of the same name: of two commands a column has, the description
holds the later one.  **The description is complete exactly if no column has two different attributes of one name**
(`table_description_iff`).
-/
namespace Exio

open Sam
open Decimal (decimal)

/-! ## The attributes of a run -/

/-- The attribute an operation adds to a column. -/
def TableOp.attr (c : Bytes) : TableOp → List TxContainer
  | .addColumnAttr column a => if column = c then [a] else []
  | _                       => []

/-- The attributes a run adds to a column, in order. -/
def attrsAdded (ops : List TableOp) (c : Bytes) : List TxContainer := ops.flatMap (TableOp.attr c)

/-- The table has these attributes; the list of a column is never empty. -/
def HasAttrs (t : DataTable) (attrs : Bytes → List TxContainer) : Prop :=
  ∀ c : Bytes, t.columnAttrs[c]? = if attrs c = [] then none else some (attrs c)

theorem HasAttrs.getD {t : DataTable} {attrs : Bytes → List TxContainer} (h : HasAttrs t attrs) (c : Bytes) :
    t.columnAttrs[c]?.getD [] = attrs c := by
  rw [h c]
  split
  · rename_i hnil
    exact hnil.symm
  · rfl

section Frame

theorem addColumn_columnAttrs (clock : Nat → Bytes) (s : DataTable × List TableEvent) (column : Bytes) :
    (DataTable.addColumn clock s column).1.columnAttrs = s.1.columnAttrs := by
  unfold DataTable.addColumn
  simp only
  split <;> rfl

theorem foldl_addColumn_columnAttrs (clock : Nat → Bytes) : ∀ (cols : List Bytes) (s : DataTable × List TableEvent),
    (cols.foldl (DataTable.addColumn clock) s).1.columnAttrs = s.1.columnAttrs
  | [], _ => rfl
  | c :: cols, s => by rw [List.foldl_cons, foldl_addColumn_columnAttrs clock cols, addColumn_columnAttrs]

theorem updateRowAt_columnAttrs (t : DataTable) (clock : Nat → Bytes) (rowkey : Bytes) (fields : Fields)
    (events : List TableEvent) : (t.updateRowAt clock rowkey fields events).1.columnAttrs = t.columnAttrs := by
  unfold DataTable.updateRowAt
  simp only
  split <;> rfl

theorem updateRow_columnAttrs (t : DataTable) (clock : Nat → Bytes) (rowkey : Bytes) (fields : Fields) :
    (t.updateRow clock rowkey fields).1.columnAttrs = t.columnAttrs := by
  rw [t.updateRow_eq, updateRowAt_columnAttrs, DataTable.prepareRow, foldl_addColumn_columnAttrs]
  split <;> rfl

theorem deleteRow_columnAttrs (t : DataTable) (rowkey : Bytes) : (t.deleteRow rowkey).1.columnAttrs = t.columnAttrs := by
  unfold DataTable.deleteRow
  split <;> rfl

theorem sendSnapshot_columnAttrs (s : TableServer) (sid : Nat) :
    (s.sendSnapshot sid).1.table.columnAttrs = s.table.columnAttrs := by
  unfold TableServer.sendSnapshot
  split
  · rfl
  · rename_i msgs batchsize _
    show (s.sendOne sid msgs).table.columnAttrs = s.table.columnAttrs
    rw [(s.sendOne_frame sid msgs).1]

theorem snapshotEach_columnAttrs (sids : List Nat) (s : TableServer) :
    (s.snapshotEach sids).1.table.columnAttrs = s.table.columnAttrs :=
  TableServer.snapshotEach_keeps (P := fun u => u.table.columnAttrs = s.table.columnAttrs) sids
    (fun _ h => (sendSnapshot_columnAttrs _ _).trans h) rfl

theorem addSubscriber_columnAttrs (s : TableServer) (sid : Nat) :
    (s.addSubscriber sid).1.table.columnAttrs = s.table.columnAttrs := by
  refine (sendSnapshot_columnAttrs _ sid).trans ?_
  rw [(TableServer.sendOne_frame _ sid _).1]
  rfl

theorem commit_columnAttrs (s : TableServer) (r : DataTable × List TableEvent) :
    (s.commit r).table.columnAttrs = r.1.columnAttrs := by
  rw [s.commit_table]

end Frame

/-- The attributes of the other operations are those from before. -/
theorem exec_columnAttrs (s : TableServer) {op : TableOp} (h : ∀ column a, op ≠ .addColumnAttr column a) :
    (s.exec op).1.table.columnAttrs = s.table.columnAttrs := by
  cases op with
  | updateRow clock rowkey fields =>
    exact (commit_columnAttrs s _).trans (updateRow_columnAttrs _ clock rowkey fields)
  | addColumns clock cols =>
    exact (commit_columnAttrs s _).trans (foldl_addColumn_columnAttrs clock cols (s.table, []))
  | updateMeta rowkey column info => exact commit_columnAttrs s _
  | addColumnAttr column a => exact absurd rfl (h column a)
  | clearTable => exact commit_columnAttrs s _
  | deleteRow rowkey => exact (commit_columnAttrs s _).trans (deleteRow_columnAttrs _ rowkey)
  | snapshot => exact snapshotEach_columnAttrs _ s
  | addSubscriber sid => exact addSubscriber_columnAttrs s sid
  | delSubscriber sid => rfl
  | sessions used isOpen => rfl

/-- **One operation.** -/
theorem HasAttrs.exec {s : TableServer} {attrs : Bytes → List TxContainer} (h : HasAttrs s.table attrs) (op : TableOp) :
    HasAttrs (s.exec op).1.table fun c => attrs c ++ op.attr c := by
  intro c
  by_cases hop : ∃ column a, op = .addColumnAttr column a
  · obtain ⟨column, a, rfl⟩ := hop
    show (s.table.columnAttrs.insert column ((s.table.columnAttrs[column]?.getD []) ++ [a]))[c]? = _
    rw [h.getD column, Std.TreeMap.getElem?_insert]
    by_cases hc : column = c
    · subst hc
      rw [if_pos Std.ReflOrd.compare_self]
      simp [TableOp.attr]
    · rw [if_neg (compare_ne hc), h c]
      simp [TableOp.attr, hc]
  · have hnone : op.attr c = [] := by
      cases op with
      | addColumnAttr column a => exact absurd ⟨column, a, rfl⟩ hop
      | _ => rfl
    rw [exec_columnAttrs s fun column a he => hop ⟨column, a, he⟩, h c]
    simp only [hnone, List.append_nil]

/-- **A run**: the attributes of a column are those that were added to it, in order. -/
theorem HasAttrs.run : ∀ (ops : List TableOp) {s t : TableServer} {attrs : Bytes → List TxContainer},
    HasAttrs s.table attrs → Steps.run tableStep s ops = some t → HasAttrs t.table fun c => attrs c ++ attrsAdded ops c
  | [], s, t, attrs, h, hrun => by
    cases hrun
    intro c
    simp only [attrsAdded, List.flatMap_nil, List.append_nil]
    exact h c
  | op :: ops, s, t, attrs, h, hrun => by
    have ih := HasAttrs.run ops (h.exec op) hrun
    intro c
    rw [ih c]
    simp only [attrsAdded, List.flatMap_cons, List.append_assoc]

/-! ## The columns -/

theorem mem_columnSet (c : Bytes) : ∀ (cs : List Bytes) (m : Std.TreeMap Bytes Unit),
    c ∈ cs.foldl (fun cols c => cols.insert c ()) m ↔ c ∈ cs ∨ c ∈ m
  | [], m => by simp
  | x :: cs, m => by
    rw [List.foldl_cons, mem_columnSet c cs, Std.TreeMap.mem_insert, Std.LawfulEqOrd.compare_eq_iff_eq, List.mem_cons]
    constructor
    · rintro (h | h | h)
      · exact .inl (.inr h)
      · exact .inl (.inl h.symm)
      · exact .inr h
    · rintro ((h | h) | h)
      · exact .inr (.inl h.symm)
      · exact .inl h
      · exact .inr (.inr h)

/-- **The columns of the set**: those of the table, and those with an attribute. -/
theorem mem_describedColumns {t : DataTable} {attrs : Bytes → List TxContainer} (h : HasAttrs t attrs) (c : Bytes) :
    c ∈ t.describedColumns ↔ c ∈ t.columns ∨ attrs c ≠ [] := by
  have hkeys : c ∈ t.columnAttrs.keys ↔ attrs c ≠ [] := by
    rw [Std.TreeMap.mem_keys, ← Std.TreeMap.isSome_getElem?_iff_mem, h c]
    split
    · rename_i hnil
      simp [hnil]
    · rename_i hne
      simp [hne]
  rw [DataTable.describedColumns, Std.TreeMap.mem_keys, mem_columnSet, List.mem_append, hkeys]
  simp

/-! ## The message -/

/-- What a column becomes in the description. -/
def describedColumn (t : DataTable) (c : Bytes) : List TxItem :=
  (t.columnAttrs[c]?.getD []).foldl putChildCopy [.field Id.colname c]

/-- The container of the columns, with these described. -/
def descrItems (t : DataTable) (cols : List Bytes) : List TxItem :=
  .field Id.msgcount (toStr (Word.toInt 32 cols.length)) :: numberedItems msgName (describedColumn t) cols

theorem addDescrColumn_descrItems (t : DataTable) (cols : List Bytes) (c : Bytes) :
    addDescrColumn t.columnAttrs[c]? (descrItems t cols) c = descrItems t (cols ++ [c]) := by
  have hcount : countChild (descrItems t cols) = cols.length := countChild_numberedItems msgName (describedColumn t) _ _ cols
  have hadd := modifyChild_numberedItems msgName (describedColumn t) msgName_injective Id.msgcount
    (toStr (Word.toInt 32 cols.length)) cols c
    (g := fun col => (t.columnAttrs[c]?.getD []).foldl putChildCopy (putField col Id.colname c)) rfl
  unfold addDescrColumn
  simp only [hcount]
  rw [descrItems, descrItems, List.length_append]
  exact congrArg (fun is => putField is Id.msgcount (toStr (Word.toInt 32 (cols.length + 1)))) hadd

theorem foldl_addDescrColumn (t : DataTable) : ∀ (cols done : List Bytes),
    cols.foldl (fun columns c => addDescrColumn t.columnAttrs[c]? columns c) (descrItems t done) =
      descrItems t (done ++ cols)
  | [], done => by rw [List.foldl_nil, List.append_nil]
  | c :: cols, done => by
    rw [List.foldl_cons, addDescrColumn_descrItems, foldl_addDescrColumn t cols, List.append_assoc, List.singleton_append]

/-- **The description, in closed form.** -/
theorem findChildQ_descrMsg (t : DataTable) :
    findChildQ [Id.body, Id.columns] t.descrMsg.root = some (descrItems t t.describedColumns) := by
  have hhead : findChild Id.body (putFieldQ t.tableName Id.qnTablename (putFieldQ Id.tabledescr Id.qnMsgtype [])) = none := by
    rw [Id.qnTablename, Id.qnMsgtype, findChild_body_head, findChild_body_head]
    rfl
  have hzero : putField [] Id.msgcount (ascii "0") = descrItems t [] := by
    have htext : toStr (Word.toInt 32 0) = ascii "0" := by decide
    rw [descrItems, List.length_nil, htext]
    rfl
  rw [findChildQ, DataTable.descrMsg, findChild_modifyChild, if_pos rfl, hhead, Option.getD_none, Option.bind_some,
    findChildQ, findChild_modifyChild, if_pos rfl]
  simp only [findChild, Option.getD_none]
  rw [hzero, foldl_addDescrColumn, List.nil_append]

/-! ## The attributes in a column's container -/

/-- Of the attributes of one name the last one is found. -/
theorem findChild_foldl_putChildCopy {n : Bytes} (attrs : List TxContainer) (is : List TxItem)
    (h : ∃ a ∈ attrs, a.name = n) :
    ∃ b ∈ attrs, b.name = n ∧ findChild n (attrs.foldl putChildCopy is) = some b.items := by
  induction attrs using List.reverseRecOn with
  | nil =>
    obtain ⟨a, ha, -⟩ := h
    cases ha
  | append_singleton attrs x ih =>
    rw [List.foldl_append, List.foldl_cons, List.foldl_nil, findChild_putChildCopy]
    by_cases hx : x.name = n
    · exact ⟨x, by simp, hx, if_pos hx⟩
    · rw [if_neg hx]
      obtain ⟨a, ha, hn⟩ := h
      have ha' : a ∈ attrs := by
        rcases List.mem_append.1 ha with ha | ha
        · exact ha
        · exact absurd (List.mem_singleton.1 ha ▸ hn) hx
      obtain ⟨b, hb, hbn, hfind⟩ := ih ⟨a, ha', hn⟩
      exact ⟨b, List.mem_append_left _ hb, hbn, hfind⟩

/-- **When every attribute is there**: those of one name are the same. -/
theorem attrs_held_iff (attrs : List TxContainer) (is : List TxItem) :
    (∀ a ∈ attrs, findChild a.name (attrs.foldl putChildCopy is) = some a.items) ↔
      ∀ a ∈ attrs, ∀ b ∈ attrs, a.name = b.name → a.items = b.items := by
  constructor
  · intro h a ha b hb hname
    have hfind := h a ha
    rw [hname, h b hb] at hfind
    exact (Option.some.inj hfind).symm
  · intro h a ha
    obtain ⟨b, hb, hname, hfind⟩ := findChild_foldl_putChildCopy attrs is ⟨a, ha, rfl⟩
    rw [hfind, h b hb a ha hname]

/-! ## What the description says -/

/-- **Each of these columns is described once**, under the numbers from zero on. -/
structure ListsColumns (cols : List Bytes) (m : TxMessage) : Prop where
  names   : (findChildQ [Id.body, Id.columns] m.root).map childNames = some ((List.range cols.length).map msgName)
  colname : ∀ i c, cols[i]? = some c → findFieldQ [Id.body, Id.columns, msgName i, Id.colname] m.root = some c

/-- **The description is complete**: the columns, their number, and all attributes of each. -/
structure DescribesTable (cols : List Bytes) (attrs : Bytes → List TxContainer) (m : TxMessage) : Prop
    extends ListsColumns cols m where
  msgcount   : findFieldQ [Id.body, Id.columns, Id.msgcount] m.root = some (decimal cols.length)
  attributes : ∀ i c, cols[i]? = some c → ∀ a ∈ attrs c,
    findChildQ [Id.body, Id.columns, msgName i, a.name] m.root = some a.items

section

variable (t : DataTable)

/-- Lookups behind `body.columns`. -/
theorem findFieldQ_columns (n : Bytes) (q : List Bytes) :
    findFieldQ (Id.body :: Id.columns :: n :: q) t.descrMsg.root = findFieldQ (n :: q) (descrItems t t.describedColumns) := by
  obtain ⟨body, hbody, hcolumns⟩ := Option.bind_eq_some_iff.1 (findChildQ_descrMsg t)
  rw [findChildQ] at hcolumns
  rw [findFieldQ, hbody, Option.bind_some, findFieldQ, hcolumns, Option.bind_some]

theorem findChildQ_columns (n : Bytes) (q : List Bytes) :
    findChildQ (Id.body :: Id.columns :: n :: q) t.descrMsg.root = findChildQ (n :: q) (descrItems t t.describedColumns) := by
  obtain ⟨body, hbody, hcolumns⟩ := Option.bind_eq_some_iff.1 (findChildQ_descrMsg t)
  rw [findChildQ] at hcolumns
  rw [findChildQ, hbody, Option.bind_some, findChildQ, hcolumns, Option.bind_some]

theorem findChild_column {i : Nat} {c : Bytes} (h : t.describedColumns[i]? = some c) :
    findChild (msgName i) (descrItems t t.describedColumns) = some (describedColumn t c) := by
  rw [descrItems, findChild_numberedItems msgName (describedColumn t) msgName_injective, h, Option.map_some]

/-- **The columns of the description**, in every table. -/
theorem descrMsg_columns : ListsColumns t.describedColumns t.descrMsg where
  names := by
    rw [findChildQ_descrMsg, Option.map_some, descrItems, childNames_numberedItems, List.range_eq_range',
      ← List.zipIdx_map_snd 0 t.describedColumns, List.map_map]
    rfl
  colname i c h := by
    rw [findFieldQ_columns, findFieldQ, findChild_column t h, Option.bind_some, findFieldQ, describedColumn,
      findField_foldl_putChildCopy, findField, if_pos rfl]

theorem findFieldQ_msgcount :
    findFieldQ [Id.body, Id.columns, Id.msgcount] t.descrMsg.root =
      some (toStr (Word.toInt 32 t.describedColumns.length)) := by
  rw [findFieldQ_columns, findFieldQ, descrItems, findField, if_pos rfl]

/-- **When the description is complete**, for the attributes the table has. -/
theorem describesTable_iff {attrs : Bytes → List TxContainer} (h : HasAttrs t attrs) :
    DescribesTable t.describedColumns attrs t.descrMsg ↔
      t.describedColumns.length < 2 ^ 31 ∧ ∀ c, ∀ a ∈ attrs c, ∀ b ∈ attrs c, a.name = b.name → a.items = b.items := by
  have hcount : findFieldQ [Id.body, Id.columns, Id.msgcount] t.descrMsg.root = some (decimal t.describedColumns.length) ↔
      t.describedColumns.length < 2 ^ 31 := by
    rw [findFieldQ_msgcount, Option.some.injEq, toStr_toInt_eq_decimal_iff]
  have hattr : ∀ {i c}, t.describedColumns[i]? = some c → ∀ n,
      findChildQ [Id.body, Id.columns, msgName i, n] t.descrMsg.root =
        findChild n ((attrs c).foldl putChildCopy [.field Id.colname c]) := by
    intro i c hc n
    rw [findChildQ_columns, findChildQ, findChild_column t hc, Option.bind_some, findChildQ, describedColumn, h.getD c]
  constructor
  · intro hd
    refine ⟨hcount.1 hd.msgcount, fun c a ha => ?_⟩
    have hmem : c ∈ t.describedColumns := (mem_describedColumns h c).2 (.inr (List.ne_nil_of_mem ha))
    obtain ⟨i, hi⟩ := List.mem_iff_getElem?.1 hmem
    refine (attrs_held_iff (attrs c) [.field Id.colname c]).1 (fun b hb => ?_) a ha
    rw [← hattr hi]
    exact hd.attributes i c hi b hb
  · rintro ⟨hlen, hsame⟩
    refine ⟨descrMsg_columns t, hcount.2 hlen, fun i c hc a ha => ?_⟩
    rw [hattr hc]
    exact (attrs_held_iff (attrs c) _).2 (hsame c) a ha

end

/-- **The description that `add_subscriber` sends.**  After any run it lists the columns of the table and those with an
attribute, each once; it is complete exactly if an `int` holds their number and the run added no two different attributes
of one name to a column. -/
theorem table_description_iff (tableName : Bytes) (ops : List TableOp) {s : TableServer}
    (hrun : Steps.run tableStep (.new tableName) ops = some s) (sid : Nat) :
    ∃ cols : List Bytes, cols.Nodup ∧ (∀ c, c ∈ cols ↔ c ∈ s.table.columns ∨ attrsAdded ops c ≠ []) ∧
      ListsColumns cols (s.table.subscribe sid).descrMsg ∧
      (DescribesTable cols (attrsAdded ops) (s.table.subscribe sid).descrMsg ↔
        cols.length < 2 ^ 31 ∧
          ∀ c, ∀ a ∈ attrsAdded ops c, ∀ b ∈ attrsAdded ops c, a.name = b.name → a.items = b.items) := by
  have hnew : HasAttrs (TableServer.new tableName).table fun _ => [] := fun c => by
    rw [if_pos rfl]
    exact Std.TreeMap.getElem?_emptyc
  have hattrs : HasAttrs (s.table.subscribe sid) (attrsAdded ops) := hnew.run ops hrun
  exact ⟨(s.table.subscribe sid).describedColumns, Std.TreeMap.nodup_keys, mem_describedColumns hattrs,
    descrMsg_columns _, describesTable_iff _ hattrs⟩

/-- `meta::column_attr_style`. -/
def columnAttrStyle (styleName : Bytes) : TxContainer := ⟨ascii "style", putField [] (ascii "style_name") styleName⟩

/-- `meta::column_attr_command`. -/
def columnAttrCommand (name : Bytes) (args : Fields) : TxContainer :=
  ⟨ascii "command", modifyChild (putField [] (ascii "name") name) (ascii "args") fun is => putFields is args⟩

/-- A style and a command for a column that has data, and a style for one that has none. -/
def attrOps : List TableOp :=
  [.addColumnAttr (ascii "x") (columnAttrStyle (ascii "bold")),
    .updateRow (fun _ => ascii "now") (ascii "a") ((∅ : Fields).insert (ascii "x") (ascii "1")),
    .addColumnAttr (ascii "x") (columnAttrCommand (ascii "stop") ∅),
    .addColumnAttr (ascii "y") (columnAttrStyle (ascii "faint"))]

/-- The run adds attributes to these two columns only. -/
theorem attrsAdded_attrOps {c : Bytes} (h : attrsAdded attrOps c ≠ []) : c = ascii "x" ∨ c = ascii "y" := by
  by_contra hc
  rw [not_or] at hc
  refine h ?_
  simp [attrsAdded, attrOps, TableOp.attr, Ne.symm hc.1, Ne.symm hc.2]

theorem table_description_iff_sample : ∃ s cols, Steps.run tableStep (.new (ascii "t")) attrOps = some s ∧
    DescribesTable cols (attrsAdded attrOps) (s.table.subscribe 1).descrMsg := by
  obtain ⟨cols, hnodup, hmem, -, hiff⟩ := table_description_iff (ascii "t") attrOps rfl 1
  refine ⟨_, cols, rfl, hiff.2 ⟨?_, fun c a ha => ?_⟩⟩
  · have hsub : cols ⊆ [ascii "x", ascii "y"] := by
      intro c hc
      rcases (hmem c).1 hc with hcol | hattr
      · exact List.mem_cons.2 (.inl (List.mem_singleton.1 hcol))
      · simpa using attrsAdded_attrOps hattr
    have hle := hnodup.length_le_of_subset hsub
    exact Nat.lt_of_le_of_lt hle (by decide)
  · rcases attrsAdded_attrOps (List.ne_nil_of_mem ha) with rfl | rfl
    · revert a
      decide +kernel
    · revert a
      decide +kernel

/-- Two commands for one column. -/
def commandOps : List TableOp :=
  [.addColumnAttr (ascii "x") (columnAttrCommand (ascii "start") ∅),
    .addColumnAttr (ascii "x") (columnAttrCommand (ascii "stop") ∅)]

/-- **Of two commands the description holds the later one**, and the column's container has no other child. -/
theorem table_description_loses : ∃ s, Steps.run tableStep (.new (ascii "t")) commandOps = some s ∧
    attrsAdded commandOps (ascii "x") = [columnAttrCommand (ascii "start") ∅, columnAttrCommand (ascii "stop") ∅] ∧
    findChildQ [Id.body, Id.columns, msgName 0] (s.table.subscribe 1).descrMsg.root =
      some [.field Id.colname (ascii "x"), .container (ascii "command") (columnAttrCommand (ascii "stop") ∅).items] := by
  refine ⟨_, rfl, ?_⟩
  decide +kernel

end Exio
