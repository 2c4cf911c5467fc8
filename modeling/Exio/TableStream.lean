import Exio.SamPath
import Exio.TablePublish
/-!
# TableStream — the messages of a table among those of other tables

A session is sent the messages of all its tables on one stream.  Every message carries the name of its table in its head, so
that the stream can be taken apart again: what a step sends depends on the table, the sessions and what is to be sent, not on
what was sent before, and all of it carries the table's name (`publisherStep_sends`, `Emitted.table`).

The names that come into a message are those of the cells, of the metadata and of the column attributes.  A `Naming` is any
condition on them; what the operations are given within it stays within it.
-/
namespace Exio

open Sam

/-- The table a message is about. -/
def messageTable (m : TxMessage) : Option Bytes := findFieldQ Id.qnTablename m.root

/-- The messages of one table. -/
def ofTable (name : Bytes) (msgs : List TxMessage) : List TxMessage := msgs.filter fun m => messageTable m == some name

/-! ## Names -/

/-- A condition on the names of cells, on the metadata of a column, and on column attributes; the cells every row has meet
it. -/
structure Naming where
  cell : Bytes → Prop
  info : Bytes → TxContainer → Prop
  attr : TxContainer → Prop
  key  : cell Id.rowKey
  last : cell Id.rowLast

/-- No condition. -/
def Naming.any : Naming := ⟨fun _ => True, fun _ _ => True, fun _ => True, trivial, trivial⟩

def DataRow.Of (name : Bytes) (π : Naming) (row : DataRow) : Prop := row.tableName = name ∧ ∀ c ∈ row.fields, π.cell c

def TableEvent.Of (name : Bytes) (π : Naming) : TableEvent → Prop
  | .rowMultiUpdate n _ fields => n = name ∧ ∀ c ∈ fields, π.cell c
  | .pcmd n _ column info      => n = name ∧ π.info column info
  | .newRow n _ | .newColumn n _ | .tableCleared n | .rowRemoved n _ => n = name

/-- **A table of that name, with names that meet the condition.** -/
structure DataTable.Of (name : Bytes) (π : Naming) (t : DataTable) : Prop where
  tableName : t.tableName = name
  rows      : ∀ row ∈ t.rows, row.Of name π
  pcmd      : ∀ (k : Bytes) (metas : Std.TreeMap Bytes TxContainer), t.pcmd[k]? = some metas →
    ∀ (c : Bytes) (info : TxContainer), metas[c]? = some info →
      ∃ info₀ : TxContainer, info = { info₀ with name := ascii ".meta." ++ c } ∧ π.info c info₀
  attrs     : ∀ (c : Bytes) (l : List TxContainer), t.columnAttrs[c]? = some l → ∀ a ∈ l, π.attr a

/-- What an operation is given. -/
def TableOp.Of (π : Naming) : TableOp → Prop
  | .updateRow _ _ fields     => ∀ c ∈ fields, reserved c = false → π.cell c
  | .addColumns _ cols        => ∀ c ∈ cols, reserved c = false → π.cell c
  | .updateMeta _ column info => π.info column info
  | .addColumnAttr _ attr     => π.attr attr
  | _                         => True

theorem TableOp.of_any (op : TableOp) : op.Of .any := by
  cases op with
  | updateRow clock rowkey fields => exact fun _ _ _ => trivial
  | addColumns clock cols => exact fun _ _ _ => trivial
  | _ => exact trivial

/-! ## The operations stay within the names they are given -/

theorem forall_mem_insert {P : Bytes → Prop} {fields : Fields} {c v : Bytes} (h : ∀ c ∈ fields, P c) (hc : P c) :
    ∀ c' ∈ fields.insert c v, P c' := by
  intro c' hmem
  rcases Std.TreeMap.mem_insert.1 hmem with heq | hmem
  · rw [← Std.LawfulEqOrd.compare_eq_iff_eq.1 heq]
    exact hc
  · exact h c' hmem

section

variable {name : Bytes} {π : Naming}

/-- The loop of `update_fields` writes names that it was given. -/
theorem foldl_updateField_of : ∀ (ups : List (Bytes × Bytes)) (acc : Fields × Option Fields),
    (∀ up ∈ ups, reserved up.1 = false → π.cell up.1) → (∀ c ∈ acc.1, π.cell c) →
    (∀ ev, acc.2 = some ev → ∀ c ∈ ev, π.cell c) →
    (∀ c ∈ (ups.foldl updateField acc).1, π.cell c) ∧
      ∀ ev, (ups.foldl updateField acc).2 = some ev → ∀ c ∈ ev, π.cell c
  | [], _, _, hours, hev => ⟨hours, hev⟩
  | up :: ups, acc, hups, hours, hev => by
    obtain ⟨hup, hrest⟩ := List.forall_mem_cons.1 hups
    rw [List.foldl_cons, updateField]
    split
    · exact foldl_updateField_of ups _ hrest hours hev
    · rename_i hres
      have hname := hup (by simpa using hres)
      split
      · exact foldl_updateField_of ups _ hrest hours hev
      · refine foldl_updateField_of ups _ hrest (forall_mem_insert hours hname) fun ev hsome => ?_
        cases hsome
        refine forall_mem_insert (fun c hc => ?_) hname
        cases hacc : acc.2 with
        | none => rw [hacc] at hc; exact absurd hc Std.TreeMap.not_mem_emptyc
        | some ev₀ => rw [hacc] at hc; exact hev ev₀ hacc c hc

theorem DataRow.Of.updateFields {row : DataRow} (h : row.Of name π) {fields : Fields}
    (hfields : ∀ c ∈ fields, reserved c = false → π.cell c) (clock : Nat → Bytes) {events : List TableEvent}
    (hevents : ∀ e ∈ events, e.Of name π) :
    (row.updateFields fields clock events).1.Of name π ∧ ∀ e ∈ (row.updateFields fields clock events).2, e.Of name π := by
  have hups : ∀ up ∈ fields.toList, reserved up.1 = false → π.cell up.1 := fun up hup =>
    hfields up.1 (Std.TreeMap.mem_iff_isSome_getElem?.2 (by rw [Std.TreeMap.mem_toList_iff_getElem?_eq_some.1 hup]; rfl))
  obtain ⟨hours, hev⟩ := foldl_updateField_of fields.toList (row.fields, none) hups h.2 (fun ev hev => by cases hev)
  unfold DataRow.updateFields
  split
  · rename_i ours heq
    rw [heq] at hours
    exact ⟨⟨h.1, hours⟩, hevents⟩
  · rename_i ours ev heq
    rw [heq] at hours hev
    refine ⟨⟨h.1, forall_mem_insert hours π.last⟩, fun e he => ?_⟩
    rcases List.mem_append.1 he with he | he
    · exact hevents e he
    · rw [List.mem_singleton.1 he]
      exact ⟨h.1, forall_mem_insert (hev ev rfl) π.last⟩

theorem updateRows_of {fields : Fields} (hfields : ∀ c ∈ fields, reserved c = false → π.cell c) (clock : Nat → Bytes) :
    ∀ (rows : List DataRow) {events : List TableEvent}, (∀ row ∈ rows, row.Of name π) → (∀ e ∈ events, e.Of name π) →
    (∀ row ∈ (DataTable.updateRows fields clock rows events).1, row.Of name π) ∧
      ∀ e ∈ (DataTable.updateRows fields clock rows events).2, e.Of name π
  | [], _, hrows, hevents => ⟨hrows, hevents⟩
  | row :: rows, events, hrows, hevents => by
    obtain ⟨hrow, hrest⟩ := List.forall_mem_cons.1 hrows
    obtain ⟨hrow', hevents'⟩ := hrow.updateFields hfields clock hevents
    obtain ⟨hrows', hall⟩ := updateRows_of hfields clock rows hrest hevents'
    exact ⟨List.forall_mem_cons.2 ⟨hrow', hrows'⟩, hall⟩

/-- A table and the events raised so far. -/
def Within (name : Bytes) (π : Naming) (s : DataTable × List TableEvent) : Prop :=
  s.1.Of name π ∧ ∀ e ∈ s.2, e.Of name π

theorem Within.addColumn {s : DataTable × List TableEvent} (h : Within name π s) (clock : Nat → Bytes) {column : Bytes}
    (hcol : reserved column = false → π.cell column) : Within name π (DataTable.addColumn clock s column) := by
  obtain ⟨t, events⟩ := s
  obtain ⟨ht, hevents⟩ := h
  unfold DataTable.addColumn
  simp only
  split
  · exact ⟨ht, hevents⟩
  · have hfields : ∀ c ∈ (∅ : Fields).insert column [], reserved c = false → π.cell c := by
      intro c hc
      rcases Std.TreeMap.mem_insert.1 hc with heq | hmem
      · rw [← Std.LawfulEqOrd.compare_eq_iff_eq.1 heq]
        exact hcol
      · exact absurd hmem Std.TreeMap.not_mem_emptyc
    obtain ⟨hrows, hall⟩ := updateRows_of hfields clock t.rows ht.rows
      (List.forall_mem_append.2 ⟨hevents, List.forall_mem_singleton.2 (show TableEvent.Of name π (.newColumn t.tableName column) from ht.tableName)⟩)
    exact ⟨{ ht with rows := hrows }, hall⟩

theorem Within.foldl_addColumn (clock : Nat → Bytes) : ∀ (cols : List Bytes) {s : DataTable × List TableEvent},
    Within name π s → (∀ c ∈ cols, reserved c = false → π.cell c) → Within name π (cols.foldl (DataTable.addColumn clock) s)
  | [], _, h, _ => h
  | col :: cols, _, h, hcols => by
    obtain ⟨hcol, hrest⟩ := List.forall_mem_cons.1 hcols
    exact Within.foldl_addColumn clock cols (h.addColumn clock hcol) hrest

theorem Within.addRow {t : DataTable} {events : List TableEvent} (h : Within name π (t, events)) (rowkey : Bytes) :
    Within name π (t.addRow rowkey events) := by
  obtain ⟨ht, hevents⟩ := h
  refine ⟨{ ht with rows := fun row hrow => ?_ }, List.forall_mem_append.2 ⟨hevents, List.forall_mem_singleton.2 ht.tableName⟩⟩
  rcases List.mem_append.1 hrow with hrow | hrow
  · exact ht.rows row hrow
  · rw [List.mem_singleton.1 hrow]
    exact ⟨ht.tableName, forall_mem_insert (fun c hc => absurd hc Std.TreeMap.not_mem_emptyc) π.key⟩

theorem Within.updateRowAt {t : DataTable} {events : List TableEvent} (h : Within name π (t, events)) (clock : Nat → Bytes)
    (rowkey : Bytes) {fields : Fields} (hfields : ∀ c ∈ fields, reserved c = false → π.cell c) :
    Within name π (t.updateRowAt clock rowkey fields events) := by
  obtain ⟨ht, hevents⟩ := h
  unfold DataTable.updateRowAt
  simp only
  split
  · exact ⟨ht, hevents⟩
  · rename_i row hrow
    obtain ⟨hrow', hall⟩ := (ht.rows row (List.mem_of_getElem? hrow)).updateFields hfields clock hevents
    refine ⟨{ ht with rows := fun r hr => ?_ }, hall⟩
    rcases List.mem_or_eq_of_mem_set hr with hr | rfl
    · exact ht.rows r hr
    · exact hrow'

theorem Within.updateRow {t : DataTable} (h : t.Of name π) (clock : Nat → Bytes) (rowkey : Bytes) {fields : Fields}
    (hfields : ∀ c ∈ fields, reserved c = false → π.cell c) : Within name π (t.updateRow clock rowkey fields) := by
  have hstart : Within name π (t, []) := ⟨h, fun e he => by cases he⟩
  rw [t.updateRow_eq]
  refine Within.updateRowAt (Within.foldl_addColumn clock _ ?_ fun c hc => ?_) clock rowkey hfields
  · split
    · exact hstart
    · exact hstart.addRow rowkey
  · exact hfields c (Std.TreeMap.mem_keys.1 (List.mem_filter.1 hc).1)

theorem Within.addColumns {t : DataTable} (h : t.Of name π) (clock : Nat → Bytes) {cols : List Bytes}
    (hcols : ∀ c ∈ cols, reserved c = false → π.cell c) : Within name π (t.addColumns clock cols) :=
  Within.foldl_addColumn clock cols ⟨h, fun e he => by cases he⟩ hcols

theorem Within.clearTable {t : DataTable} (h : t.Of name π) : Within name π t.clearTable :=
  ⟨{ h with rows := fun row hrow => by cases hrow }, fun e he => by rw [List.mem_singleton.1 he]; exact h.tableName⟩

theorem Within.deleteRow {t : DataTable} (h : t.Of name π) (rowkey : Bytes) : Within name π (t.deleteRow rowkey) := by
  unfold DataTable.deleteRow
  split
  · exact ⟨h, fun e he => by cases he⟩
  · exact ⟨{ h with rows := fun row hrow => h.rows row (List.mem_of_mem_eraseIdx hrow) },
      fun e he => by rw [List.mem_singleton.1 he]; exact h.tableName⟩

theorem Within.updateMeta {t : DataTable} (h : t.Of name π) (rowkey : Bytes) {fieldname : Bytes} {info : TxContainer}
    (hinfo : π.info fieldname info) : Within name π (t.updateMeta rowkey fieldname info) := by
  refine ⟨{ h with pcmd := fun k metas hk c i hi => ?_ }, fun e he => by
    rw [List.mem_singleton.1 he]; exact ⟨h.tableName, hinfo⟩⟩
  rw [DataTable.updateMeta, Std.TreeMap.getElem?_insert] at hk
  split at hk
  · cases hk
    rw [Std.TreeMap.getElem?_insert] at hi
    split at hi
    · rename_i hc
      cases hi
      rw [← Std.LawfulEqOrd.compare_eq_iff_eq.1 hc]
      exact ⟨info, rfl, hinfo⟩
    · cases hold : t.pcmd[rowkey]? with
      | none => rw [hold, Option.getD_none, Std.TreeMap.getElem?_emptyc] at hi; cases hi
      | some metas => rw [hold, Option.getD_some] at hi; exact h.pcmd rowkey metas hold c i hi
  · exact h.pcmd k metas hk c i hi

theorem DataTable.Of.addColumnAttr {t : DataTable} (h : t.Of name π) (column : Bytes) {attr : TxContainer}
    (hattr : π.attr attr) : (t.addColumnAttr column attr).Of name π := by
  refine { h with attrs := fun c l hl a ha => ?_ }
  rw [DataTable.addColumnAttr, Std.TreeMap.getElem?_insert] at hl
  split at hl
  · cases hl
    rcases List.mem_append.1 ha with ha | ha
    · cases hold : t.columnAttrs[column]? with
      | none => rw [hold] at ha; cases ha
      | some l => rw [hold] at ha; exact h.attrs column l hold a ha
    · rw [List.mem_singleton.1 ha]
      exact hattr
  · exact h.attrs c l hl a ha

theorem DataTable.new_of : (DataTable.new name).Of name π where
  tableName := rfl
  rows row hrow := by cases hrow
  pcmd k metas hk := by simp [DataTable.new] at hk
  attrs c l hl := by simp [DataTable.new] at hl

/-! ## The messages an operation sends -/

/-- **A message of such a table**: of one of its events, its description, or one of a snapshot. -/
inductive Emitted (name : Bytes) (π : Naming) : TxMessage → Prop
  | event {e : TableEvent} {m : TxMessage} (he : e.Of name π) (hm : m ∈ e.serialise) : Emitted name π m
  | descr {t : DataTable} (ht : t.Of name π) : Emitted name π t.descrMsg
  | snapshot {t : DataTable} {msgs : List TxMessage} {batchsize : BatchSize} {m : TxMessage} (ht : t.Of name π)
    (hs : t.snapshotMsgs = .ok (msgs, batchsize)) (hm : m ∈ msgs) : Emitted name π m

theorem Within.change {t : DataTable} (h : t.Of name π) {op : TableOp} (hop : op.Of π) {r : DataTable × List TableEvent}
    (hr : t.change op = some r) : Within name π r := by
  cases op with
  | updateRow clock rowkey fields => cases hr; exact .updateRow h clock rowkey hop
  | addColumns clock cols => cases hr; exact .addColumns h clock hop
  | updateMeta rowkey column info => cases hr; exact .updateMeta h rowkey hop
  | addColumnAttr column attr => cases hr; exact ⟨h.addColumnAttr column hop, fun e he => by cases he⟩
  | clearTable => cases hr; exact .clearTable h
  | deleteRow rowkey => cases hr; exact .deleteRow h rowkey
  | snapshot | addSubscriber _ | delSubscriber _ | sessions _ _ => cases hr

theorem DataTable.Of.withBatchsize {t : DataTable} (h : t.Of name π) (batchsize : BatchSize) :
    ({ t with batchsize := batchsize } : DataTable).Of name π := { h with }

theorem DataTable.Of.snapshotSends : ∀ (sids : List Nat) {t : DataTable}, t.Of name π →
    (t.snapshotSends sids).1.Of name π ∧ ∀ m ∈ (t.snapshotSends sids).2.1.flatMap Prod.snd, Emitted name π m
  | [], _, h => ⟨h, fun m hm => by cases hm⟩
  | sid :: sids, t, h => by
    rw [DataTable.snapshotSends]
    split
    · exact ⟨h, fun m hm => by cases hm⟩
    · rename_i msgs batchsize hs
      obtain ⟨htable, hrest⟩ := DataTable.Of.snapshotSends sids (h.withBatchsize batchsize)
      refine ⟨htable, fun m hm => ?_⟩
      rcases List.mem_append.1 (List.flatMap_cons ▸ hm) with hm | hm
      · exact .snapshot h hs hm
      · exact hrest m hm

/-- What a step is given. -/
def PublisherAct.Of (π : Naming) : PublisherAct → Prop
  | .op o      => o.Of π
  | .publish _ => True

/-- The table is within the names, and so is what is still to be sent. -/
structure TablePublisher.Of (name : Bytes) (π : Naming) (s : TablePublisher) : Prop where
  table      : s.table.Of name π
  publishing : ∀ m ∈ s.publishing.messages, Emitted name π m

theorem Publishing.messages_copyNext {used : Nat → Bool} {p q : Publishing} (h : p.copyNext used = some q) :
    ∀ m ∈ q.messages, m ∈ p.messages := by
  cases p with
  | idle | sending out => cases h
  | copying copied todo msgs =>
    cases todo with
    | cons sid todo =>
      cases h
      exact fun _ hm => hm
    | nil =>
      cases h
      intro m hm
      obtain ⟨x, hx, hm⟩ := List.mem_flatMap.1 hm
      obtain ⟨m', hm', hx⟩ := List.mem_flatMap.1 hx
      obtain ⟨sid, -, rfl⟩ := List.mem_map.1 hx
      rwa [List.mem_singleton.1 hm]

variable {s t : TablePublisher} {a : PublisherAct}

/-- **A step given such names keeps the table within them**, and what is to be sent are messages of such a table. -/
theorem publisherStep_of (h : s.Of name π) (ha : a.Of π) (hs : publisherStep s a = some t) : t.Of name π := by
  cases publisherStep_cases hs with
  | sessions => exact ⟨h.table, h.publishing⟩
  | delSubscriber => exact ⟨{ h.table with }, h.publishing⟩
  | snapshot => exact ⟨h.table, h.publishing⟩
  | @addSubscriber sid hidle =>
    have hsub : (s.table.subscribe sid).Of name π := { h.table with }
    obtain ⟨htable, hsends⟩ := DataTable.Of.snapshotSends [sid] hsub
    refine ⟨htable, fun m hm => ?_⟩
    rcases List.mem_cons.1 (show m ∈ (s.table.subscribe sid).descrMsg :: _ from hm) with rfl | hm
    · exact .descr hsub
    · exact hsends m hm
  | @change op r hidle hr =>
    obtain ⟨htable, hevents⟩ := Within.change h.table ha hr
    refine ⟨htable, fun m hm => ?_⟩
    simp only [Publishing.ofEvents] at hm
    split at hm
    · cases hm
    · obtain ⟨e, he, hm⟩ := List.mem_flatMap.1 hm
      exact .event (hevents e he) hm
  | copyNext hp => exact ⟨h.table, fun m hm => h.publishing m (Publishing.messages_copyNext hp m hm)⟩
  | @sendOne sid msgs out hout =>
    refine ⟨(s.toTableServer.sendOne_frame sid msgs).1.symm ▸ h.table, fun m hm => h.publishing m ?_⟩
    rw [hout]
    exact List.mem_flatMap.2 ((List.mem_flatMap.1 hm).imp fun x hx => ⟨List.mem_cons_of_mem _ hx.1, hx.2⟩)
  | release => exact ⟨h.table, fun m hm => by cases hm⟩
  | ask => exact ⟨h.table, h.publishing⟩
  | @snapshots copied hcopy hidle =>
    obtain ⟨htable, hsends⟩ := DataTable.Of.snapshotSends copied h.table
    exact ⟨htable, hsends⟩

/-! ## What was sent before does not matter -/

def TablePublisher.withSent (s : TablePublisher) (sent : Nat → List TxMessage) : TablePublisher := { s with sent := sent }

/-- Only `send_one` sends. -/
theorem publisherStep_withSent (ha : a ≠ .publish .sendOne) (past : Nat → List TxMessage) :
    publisherStep (s.withSent past) a = (publisherStep s a).map (·.withSent past) := by
  obtain ⟨server, publishing, snapshotting⟩ := s
  cases a with
  | op o =>
    cases o with
    | sessions used isOpen => rfl
    | delSubscriber sid => cases publishing <;> cases snapshotting <;> rfl
    | snapshot => cases snapshotting <;> rfl
    | _ => cases publishing <;> rfl
  | publish p =>
    cases p with
    | copyNext =>
      simp only [publisherStep, TablePublisher.publish, TablePublisher.withSent, Option.map_map]
      rfl
    | sendOne => exact absurd rfl ha
    | release =>
      cases publishing with
      | sending out => cases out <;> rfl
      | _ => rfl
    | snapshotNext =>
      cases snapshotting with
      | none => rfl
      | some copy =>
        obtain ⟨copied, _ | ⟨sid, todo⟩⟩ := copy
        · cases publishing <;> rfl
        · rfl

/-- **What a step sends goes behind what was sent, whatever that was**, and they are messages of the table. -/
theorem publisherStep_sends (h : s.Of name π) (hs : publisherStep s a = some t) :
    ∃ new : Nat → List TxMessage, (∀ sid, ∀ m ∈ new sid, Emitted name π m) ∧
      ∀ past, publisherStep (s.withSent past) a = some (t.withSent fun sid => past sid ++ new sid) := by
  by_cases ha : a = .publish .sendOne
  · subst ha
    cases publisherStep_cases hs with
    | @sendOne sid msgs out hout =>
      have hmsgs : ∀ m ∈ msgs, Emitted name π m := fun m hm => h.publishing m (by
        rw [hout]
        exact List.mem_flatMap.2 ⟨_, List.mem_cons_self, hm⟩)
      cases hopen : s.used sid && s.isOpen sid with
      | true =>
        refine ⟨Function.update (fun _ => []) sid msgs, fun x m hm => ?_, fun past => ?_⟩
        · by_cases heq : x = sid
          · rw [heq, Function.update_self] at hm
            exact hmsgs m hm
          · rw [Function.update_of_ne heq] at hm
            cases hm
        · have hsent : (fun x => past x ++ Function.update (fun _ => []) sid msgs x) = Function.update past sid (past sid ++ msgs) := by
            funext x
            by_cases heq : x = sid
            · rw [heq, Function.update_self, Function.update_self]
            · rw [Function.update_of_ne heq, Function.update_of_ne heq, List.append_nil]
          simp only [publisherStep, TablePublisher.publish, TablePublisher.withSent, hout, TableServer.sendOne, hopen, if_true, hsent]
      | false =>
        refine ⟨fun _ => [], fun _ _ hm => absurd hm List.not_mem_nil, fun past => ?_⟩
        simp [publisherStep, TablePublisher.publish, TablePublisher.withSent, hout, TableServer.sendOne, hopen]
  · refine ⟨fun _ => [], fun _ _ hm => absurd hm List.not_mem_nil, fun past => ?_⟩
    simp only [publisherStep_withSent ha, hs, Option.map_some, List.append_nil]

end

/-! ## Every message carries the name of its table -/

/-- What is put below the body leaves the head. -/
theorem findFieldQ_tablename_body (root : List TxItem) (f : List TxItem → List TxItem) :
    findFieldQ Id.qnTablename (modifyChild root Id.body f) = findFieldQ Id.qnTablename root :=
  findFieldQ_modifyChild Id.body root fun m r h => by
    simp only [Id.qnTablename, List.cons.injEq] at h
    exact absurd h.1 (by decide)

theorem TableEvent.Of.table {name : Bytes} {π : Naming} {e : TableEvent} (h : e.Of name π) {m : TxMessage}
    (hm : m ∈ e.serialise) : messageTable m = some name := by
  cases e with
  | newRow n k => cases hm
  | newColumn n c => cases hm
  | rowMultiUpdate n k fields =>
    rw [List.mem_singleton.1 hm, ← h.1, messageTable, updateMsg, findFieldQ_tablename_body]
    rfl
  | tableCleared n =>
    obtain rfl : n = name := h
    rw [List.mem_singleton.1 hm]
    exact findFieldQ_putFieldQ_self n Id.qnTablename _
  | rowRemoved n k =>
    obtain rfl : n = name := h
    rw [List.mem_singleton.1 hm]
    rfl
  | pcmd n k column info =>
    rw [List.mem_singleton.1 hm, ← h.1, messageTable, pcmdMsg, findFieldQ_tablename_body]
    rfl

theorem messageTable_descrMsg (t : DataTable) : messageTable t.descrMsg = some t.tableName := by
  rw [messageTable, DataTable.descrMsg, findFieldQ_tablename_body]
  exact findFieldQ_putFieldQ_self t.tableName Id.qnTablename _

/-- A message of a snapshot is a numbered batch of rows. -/
theorem exists_numbered {t : DataTable} {msgs : List TxMessage} {batchsize : BatchSize}
    (h : t.snapshotMsgs = .ok (msgs, batchsize)) {m : TxMessage} (hm : m ∈ msgs) :
    ∃ snapi snapn rows, m = t.numbered snapi snapn rows ∧ ∀ row ∈ rows, row ∈ t.rows := by
  obtain ⟨batches, rfl, hrows, -⟩ := snapshotMsgs_ok h
  obtain ⟨⟨batch, i⟩, hbatch, rfl⟩ := List.mem_map.1 hm
  refine ⟨_, _, batch, rfl, fun row hrow => ?_⟩
  rw [← hrows]
  exact List.mem_flatten_of_mem (List.fst_mem_of_mem_zipIdx hbatch) hrow

/-- **Every message of a table carries the table's name.** -/
theorem Emitted.table {name : Bytes} {π : Naming} {m : TxMessage} (h : Emitted name π m) : messageTable m = some name := by
  cases h with
  | event he hm => exact he.table hm
  | descr ht => rw [messageTable_descrMsg, ht.tableName]
  | snapshot ht hs hm =>
    obtain ⟨snapi, snapn, rows, rfl, -⟩ := exists_numbered hs hm
    rw [← ht.tableName]
    rfl

end Exio
