import Exio.Steps
import Exio.TableMessages
/-!
# TableReplica — a subscriber's copy of a table

The server side of one table: the table, the registry's view of the sessions, and what has been sent to each session.  A
step is one operation on the table, made under its lock, or a change of the registry.  A session is sent the table's
description and a snapshot when it subscribes, and from then on the messages of every operation's events.

A session that starts with an empty copy and reads what it is sent has, after every operation, the table's cells
(`subscriber_convergence`): the snapshot puts the table over the empty copy, every event's message does to the copy what
the operation did to the table, and a message sent twice or a later snapshot changes nothing.
-/
namespace Exio

open Sam Replica

/-! ## The server -/

structure TableServer where
  table  : DataTable
  /-- The slots of the registry that hold a session. -/
  used   : Nat → Bool
  isOpen : Nat → Bool
  /-- The messages enqueued to each session so far. -/
  sent   : Nat → List TxMessage

namespace TableServer

def new (tableName : Bytes) : TableServer := ⟨.new tableName, fun _ => false, fun _ => false, fun _ => []⟩

def sendOne (s : TableServer) (sid : Nat) (msgs : List TxMessage) : TableServer :=
  if s.used sid && s.isOpen sid then { s with sent := Function.update s.sent sid (s.sent sid ++ msgs) } else s

/-- `copy_subscribers` keeps those for which `session_exists`. -/
def copySubscribers (s : TableServer) : List Nat := s.table.subscribers.filter s.used

/-- `_nolock_publish_update`: every message goes to every subscriber before the next one does. -/
def publishUpdate (s : TableServer) (events : List TableEvent) : TableServer :=
  let subs := s.copySubscribers
  if subs.isEmpty then s
  else (events.flatMap TableEvent.serialise).foldl (fun s m => subs.foldl (fun s sid => s.sendOne sid [m]) s) s

/-- The table after an operation, and the publication of its events if there are any. -/
def commit (s : TableServer) (r : DataTable × List TableEvent) : TableServer :=
  let s := { s with table := r.1 }
  if r.2.isEmpty then s else s.publishUpdate r.2

/-- `_nolock_send_snapshopt`: an exception leaves everything as it was. -/
def sendSnapshot (s : TableServer) (sid : Nat) : TableServer × Option RuntimeError :=
  match s.table.snapshotMsgs with
  | .error e              => (s, some e)
  | .ok (msgs, batchsize) =>
    let s := s.sendOne sid msgs
    ({ s with table := { s.table with batchsize := batchsize } }, none)

def addSubscriber (s : TableServer) (sid : Nat) : TableServer × Option RuntimeError :=
  let s := { s with table := s.table.subscribe sid }
  let s := s.sendOne sid [s.table.descrMsg]
  s.sendSnapshot sid

/-- The loop of `snapshot`. -/
def snapshotEach (s : TableServer) : List Nat → TableServer × Option RuntimeError
  | []          => (s, none)
  | sid :: sids =>
    match s.sendSnapshot sid with
    | (s, some e) => (s, some e)
    | (s, none)   => s.snapshotEach sids

end TableServer

inductive TableOp where
  | updateRow (clock : Nat → Bytes) (rowkey : Bytes) (fields : Fields)
  | addColumns (clock : Nat → Bytes) (cols : List Bytes)
  | updateMeta (rowkey column : Bytes) (info : TxContainer)
  | addColumnAttr (column : Bytes) (attr : TxContainer)
  | clearTable
  | deleteRow (rowkey : Bytes)
  | snapshot
  | addSubscriber (sid : Nat)
  | delSubscriber (sid : Nat)
  /-- Sessions come, close and go. -/
  | sessions (used isOpen : Nat → Bool)

/-- An operation, and the exception it ended with. -/
def TableServer.exec (s : TableServer) : TableOp → TableServer × Option RuntimeError
  | .updateRow clock rowkey fields => (s.commit (s.table.updateRow clock rowkey fields), none)
  | .addColumns clock cols         => (s.commit (s.table.addColumns clock cols), none)
  | .updateMeta rowkey column info => (s.commit (s.table.updateMeta rowkey column info), none)
  | .addColumnAttr column attr     => ({ s with table := s.table.addColumnAttr column attr }, none)
  | .clearTable                    => (s.commit s.table.clearTable, none)
  | .deleteRow rowkey              => (s.commit (s.table.deleteRow rowkey), none)
  | .snapshot                      => s.snapshotEach s.copySubscribers
  | .addSubscriber sid             => s.addSubscriber sid
  | .delSubscriber sid             => ({ s with table := s.table.delSubscriber sid }, none)
  | .sessions used isOpen          => ({ s with used := used, isOpen := isOpen }, none)

def tableStep (s : TableServer) (op : TableOp) : Option TableServer := some (s.exec op).1

/-! ## What sending leaves alone -/

/-- The same rows and columns, and the same indexes. -/
structure DataTable.SameData (t t' : DataTable) : Prop where
  rows        : t'.rows = t.rows
  rowIndex    : t'.rowIndex = t.rowIndex
  columns     : t'.columns = t.columns
  columnIndex : t'.columnIndex = t.columnIndex

theorem DataTable.SameData.refl (t : DataTable) : t.SameData t := ⟨rfl, rfl, rfl, rfl⟩

theorem DataTable.SameData.trans {t u v : DataTable} (h : t.SameData u) (h' : u.SameData v) : t.SameData v :=
  ⟨h'.rows.trans h.rows, h'.rowIndex.trans h.rowIndex, h'.columns.trans h.columns, h'.columnIndex.trans h.columnIndex⟩

theorem DataTable.Inv.sameData {t t' : DataTable} (h : t.Inv) (hs : t.SameData t') : t'.Inv := by
  refine ⟨?_, ?_, fun row hrow => h.keyed row (hs.rows ▸ hrow)⟩
  · rw [hs.rows, hs.rowIndex]
    exact h.rows
  · rw [hs.columns, hs.columnIndex]
    exact h.columns

namespace TableServer

theorem sendOne_frame (s : TableServer) (sid : Nat) (msgs : List TxMessage) :
    (s.sendOne sid msgs).table = s.table ∧ (s.sendOne sid msgs).used = s.used ∧
      (s.sendOne sid msgs).isOpen = s.isOpen := by
  unfold sendOne
  split <;> exact ⟨rfl, rfl, rfl⟩

theorem foldl_sendOne_frame (msgs : List TxMessage) : ∀ (sids : List Nat) (s : TableServer),
    (sids.foldl (fun s sid => s.sendOne sid msgs) s).table = s.table ∧
      (sids.foldl (fun s sid => s.sendOne sid msgs) s).used = s.used ∧
      (sids.foldl (fun s sid => s.sendOne sid msgs) s).isOpen = s.isOpen
  | [], _ => ⟨rfl, rfl, rfl⟩
  | sid :: sids, s => by
    obtain ⟨ht, hu, ho⟩ := foldl_sendOne_frame msgs sids (s.sendOne sid msgs)
    obtain ⟨ht', hu', ho'⟩ := s.sendOne_frame sid msgs
    exact ⟨ht.trans ht', hu.trans hu', ho.trans ho'⟩

/-- The loops of `_nolock_publish_update`. -/
theorem foldl_messages_frame (subs : List Nat) : ∀ (msgs : List TxMessage) (s : TableServer),
    (msgs.foldl (fun s m => subs.foldl (fun s sid => s.sendOne sid [m]) s) s).table = s.table ∧
      (msgs.foldl (fun s m => subs.foldl (fun s sid => s.sendOne sid [m]) s) s).used = s.used ∧
      (msgs.foldl (fun s m => subs.foldl (fun s sid => s.sendOne sid [m]) s) s).isOpen = s.isOpen
  | [], _ => ⟨rfl, rfl, rfl⟩
  | m :: msgs, s => by
    obtain ⟨ht, hu, ho⟩ := foldl_messages_frame subs msgs (subs.foldl (fun s sid => s.sendOne sid [m]) s)
    obtain ⟨ht', hu', ho'⟩ := foldl_sendOne_frame [m] subs s
    exact ⟨ht.trans ht', hu.trans hu', ho.trans ho'⟩

theorem publishUpdate_frame (s : TableServer) (events : List TableEvent) :
    (s.publishUpdate events).table = s.table ∧ (s.publishUpdate events).used = s.used ∧
      (s.publishUpdate events).isOpen = s.isOpen := by
  unfold publishUpdate
  simp only
  split
  · exact ⟨rfl, rfl, rfl⟩
  · exact foldl_messages_frame _ _ s

theorem sendOne_sent {s : TableServer} {sid : Nat} (hu : s.used sid = true) (ho : s.isOpen sid = true) (sid' : Nat)
    (msgs : List TxMessage) :
    (s.sendOne sid' msgs).sent sid = if sid' = sid then s.sent sid ++ msgs else s.sent sid := by
  unfold sendOne
  by_cases he : sid' = sid
  · subst he
    rw [if_pos rfl, hu, ho]
    exact Function.update_self sid' (s.sent sid' ++ msgs) s.sent
  · rw [if_neg he]
    split
    · exact Function.update_of_ne (Ne.symm he) (s.sent sid' ++ msgs) s.sent
    · rfl

theorem foldl_sendOne_sent {sid : Nat} (m : TxMessage) : ∀ (subs : List Nat) {s : TableServer}, s.used sid = true →
    s.isOpen sid = true →
    (subs.foldl (fun s sid => s.sendOne sid [m]) s).sent sid = s.sent sid ++ List.replicate (subs.count sid) m
  | [], s, _, _ => (List.append_nil _).symm
  | sid' :: subs, s, hu, ho => by
    obtain ⟨-, hu', ho'⟩ := s.sendOne_frame sid' [m]
    rw [List.foldl_cons, foldl_sendOne_sent m subs (hu' ▸ hu) (ho' ▸ ho), sendOne_sent hu ho, List.count_cons]
    by_cases he : sid' = sid
    · rw [if_pos he, if_pos (beq_iff_eq.2 he), List.append_assoc, List.replicate_succ]
      rfl
    · rw [if_neg he, if_neg (fun hb => he (beq_iff_eq.1 hb))]
      rfl

theorem foldl_messages_sent {sid : Nat} (subs : List Nat) : ∀ (msgs : List TxMessage) {s : TableServer},
    s.used sid = true → s.isOpen sid = true →
    (msgs.foldl (fun s m => subs.foldl (fun s sid => s.sendOne sid [m]) s) s).sent sid =
      s.sent sid ++ msgs.flatMap (List.replicate (subs.count sid))
  | [], s, _, _ => (List.append_nil _).symm
  | m :: msgs, s, hu, ho => by
    obtain ⟨-, hu', ho'⟩ := foldl_sendOne_frame [m] subs s
    rw [List.foldl_cons, foldl_messages_sent subs msgs (hu' ▸ hu) (ho' ▸ ho), foldl_sendOne_sent m subs hu ho,
      List.flatMap_cons, List.append_assoc]

/-- **What an open session is sent**: every message of the events, as often as the session is subscribed. -/
theorem publishUpdate_sent {s : TableServer} {sid : Nat} (hu : s.used sid = true) (ho : s.isOpen sid = true)
    (events : List TableEvent) : (s.publishUpdate events).sent sid =
      s.sent sid ++ (events.flatMap TableEvent.serialise).flatMap (List.replicate (s.table.subscribers.count sid)) := by
  rw [← List.count_filter hu]
  unfold publishUpdate
  simp only
  split
  · rename_i hnone
    rw [copySubscribers, List.isEmpty_iff] at hnone
    rw [hnone, List.count_nil]
    simp
  · exact foldl_messages_sent s.copySubscribers _ hu ho

theorem commit_frame (s : TableServer) (r : DataTable × List TableEvent) :
    (s.commit r).table = r.1 ∧ (s.commit r).used = s.used ∧ (s.commit r).isOpen = s.isOpen := by
  unfold commit
  simp only
  split
  · exact ⟨rfl, rfl, rfl⟩
  · exact publishUpdate_frame { s with table := r.1 } r.2

theorem commit_table (s : TableServer) (r : DataTable × List TableEvent) : (s.commit r).table = r.1 := (s.commit_frame r).1

theorem commit_sent {s : TableServer} {sid : Nat} (hu : s.used sid = true) (ho : s.isOpen sid = true)
    (r : DataTable × List TableEvent) : (s.commit r).sent sid =
      s.sent sid ++ (r.2.flatMap TableEvent.serialise).flatMap (List.replicate (r.1.subscribers.count sid)) := by
  unfold commit
  simp only
  split
  · rename_i hnone
    rw [List.isEmpty_iff.1 hnone]
    exact (List.append_nil _).symm
  · exact publishUpdate_sent (s := { s with table := r.1 }) hu ho r.2

theorem sendSnapshot_sameData (s : TableServer) (sid : Nat) : s.table.SameData (s.sendSnapshot sid).1.table := by
  unfold sendSnapshot
  split
  · exact .refl _
  · rename_i msgs batchsize _
    have h : s.table.SameData (s.sendOne sid msgs).table := by
      rw [(s.sendOne_frame sid msgs).1]
      exact .refl _
    exact ⟨h.rows, h.rowIndex, h.columns, h.columnIndex⟩

/-- Whether or not it throws, a snapshot changes neither the subscribers nor the sessions. -/
theorem sendSnapshot_frame (s : TableServer) (sid : Nat) :
    (s.sendSnapshot sid).1.table.subscribers = s.table.subscribers ∧ (s.sendSnapshot sid).1.used = s.used ∧
      (s.sendSnapshot sid).1.isOpen = s.isOpen := by
  unfold sendSnapshot
  split
  · exact ⟨rfl, rfl, rfl⟩
  · rename_i msgs batchsize _
    obtain ⟨ht, hu, ho⟩ := s.sendOne_frame sid msgs
    refine ⟨?_, hu, ho⟩
    show (s.sendOne sid msgs).table.subscribers = s.table.subscribers
    rw [ht]

theorem addSubscriber_frame (s : TableServer) (sid : Nat) :
    (s.addSubscriber sid).1.table.subscribers = s.table.subscribers ++ [sid] ∧ (s.addSubscriber sid).1.used = s.used ∧
      (s.addSubscriber sid).1.isOpen = s.isOpen := by
  obtain ⟨ht, hu, ho⟩ := sendOne_frame { s with table := s.table.subscribe sid } sid [(s.table.subscribe sid).descrMsg]
  obtain ⟨hs, hu', ho'⟩ := sendSnapshot_frame
    (sendOne { s with table := s.table.subscribe sid } sid [(s.table.subscribe sid).descrMsg]) sid
  exact ⟨hs.trans (congrArg DataTable.subscribers ht), hu'.trans hu, ho'.trans ho⟩

/-- **What a snapshot for one of the sessions keeps, the loop keeps**, wherever an exception ends it. -/
theorem snapshotEach_keeps {P : TableServer → Prop} : ∀ (sids : List Nat) {s : TableServer},
    (∀ {s : TableServer} {sid : Nat}, sid ∈ sids → P s → P (s.sendSnapshot sid).1) → P s → P (s.snapshotEach sids).1
  | [], _, _, h => h
  | sid :: sids, s, hP, h => by
    have hsend := hP List.mem_cons_self h
    unfold snapshotEach
    split
    · rename_i heq
      rw [heq] at hsend
      exact hsend
    · rename_i heq
      rw [heq] at hsend
      exact snapshotEach_keeps sids (fun hmem => hP (List.mem_cons_of_mem sid hmem)) hsend

theorem snapshotEach_sameData (sids : List Nat) (s : TableServer) : s.table.SameData (s.snapshotEach sids).1.table :=
  snapshotEach_keeps (P := fun u => s.table.SameData u.table) sids (fun _ h => h.trans (sendSnapshot_sameData _ _)) (.refl _)

theorem addSubscriber_sameData (s : TableServer) (sid : Nat) : s.table.SameData (s.addSubscriber sid).1.table := by
  have h1 : s.table.SameData (TableServer.sendOne { s with table := s.table.subscribe sid } sid
      [(s.table.subscribe sid).descrMsg]).table := by
    rw [(sendOne_frame _ sid _).1]
    exact ⟨rfl, rfl, rfl, rfl⟩
  exact h1.trans (sendSnapshot_sameData _ sid)

/-- **Every operation keeps the table's representation.** -/
theorem exec_inv {s : TableServer} (h : s.table.Inv) (op : TableOp) : (s.exec op).1.table.Inv := by
  cases op with
  | updateRow clock rowkey fields => exact (s.commit_table _).symm ▸ (updateRow_tracked h clock rowkey fields).inv
  | addColumns clock cols => exact (s.commit_table _).symm ▸ (addColumns_tracked h clock cols).inv
  | updateMeta rowkey column info => exact (s.commit_table _).symm ▸ (updateMeta_tracked h rowkey column info).inv
  | addColumnAttr column attr => exact h.sameData ⟨rfl, rfl, rfl, rfl⟩
  | clearTable => exact (s.commit_table _).symm ▸ (clearTable_tracked h).inv
  | deleteRow rowkey => exact (s.commit_table _).symm ▸ deleteRow_inv h rowkey
  | snapshot => exact h.sameData (snapshotEach_sameData _ s)
  | addSubscriber sid => exact h.sameData (s.addSubscriber_sameData sid)
  | delSubscriber sid => exact h.sameData ⟨rfl, rfl, rfl, rfl⟩
  | sessions used isOpen => exact h

theorem inv_of_reaches {tableName : Bytes} {s : TableServer}
    (h : Steps.Reaches tableStep Steps.Always (.new tableName) s) : s.table.Inv := by
  refine h.invariant (P := fun s => s.table.Inv) (DataTable.new_inv tableName) ?_
  intro t u op ht _ hs
  cases hs
  exact exec_inv ht op

end TableServer

/-! ## What a session hears -/

/-- The session `sid` is open, and what it has been sent since `base` makes an empty copy into `r`. -/
structure Hears (sid : Nat) (base : List TxMessage) (r : TableCells) (s : TableServer) : Prop where
  used   : s.used sid = true
  isOpen : s.isOpen sid = true
  stream : ∃ stream, s.sent sid = base ++ stream ∧ stream.foldl receive .empty = r

namespace Hears

theorem start {sid : Nat} {s : TableServer} (hu : s.used sid = true) (ho : s.isOpen sid = true) :
    Hears sid (s.sent sid) .empty s :=
  ⟨hu, ho, [], (List.append_nil _).symm, rfl⟩

/-- The table is not heard, only the messages. -/
theorem withTable {sid : Nat} {base : List TxMessage} {r : TableCells} {s : TableServer} (h : Hears sid base r s)
    (t : DataTable) : Hears sid base r { s with table := t } := ⟨h.used, h.isOpen, h.stream⟩

theorem sendOne_self {sid : Nat} {base : List TxMessage} {r : TableCells} {s : TableServer} (h : Hears sid base r s)
    (msgs : List TxMessage) : Hears sid base (msgs.foldl receive r) (s.sendOne sid msgs) := by
  obtain ⟨stream, hsent, hr⟩ := h.stream
  have hs : s.sendOne sid msgs = { s with sent := Function.update s.sent sid (s.sent sid ++ msgs) } := by
    rw [TableServer.sendOne, h.used, h.isOpen]
    rfl
  rw [hs]
  refine ⟨h.used, h.isOpen, stream ++ msgs, ?_, ?_⟩
  · show Function.update s.sent sid (s.sent sid ++ msgs) sid = base ++ (stream ++ msgs)
    rw [Function.update_self, hsent, List.append_assoc]
  · rw [List.foldl_append, hr]

theorem sendOne_other {sid sid' : Nat} {base : List TxMessage} {r : TableCells} {s : TableServer}
    (h : Hears sid base r s) (hne : sid' ≠ sid) (msgs : List TxMessage) : Hears sid base r (s.sendOne sid' msgs) := by
  obtain ⟨stream, hsent, hr⟩ := h.stream
  obtain ⟨-, hu, ho⟩ := s.sendOne_frame sid' msgs
  refine ⟨hu ▸ h.used, ho ▸ h.isOpen, stream, ?_, hr⟩
  unfold TableServer.sendOne
  split
  · show Function.update s.sent sid' (s.sent sid' ++ msgs) sid = base ++ stream
    rw [Function.update_of_ne hne.symm, hsent]
  · exact hsent

/-- Messages that tell the copy nothing new may go to anyone. -/
theorem sendOne_known {sid : Nat} {base : List TxMessage} {r : TableCells} {s : TableServer} (h : Hears sid base r s)
    {msgs : List TxMessage} (hr : msgs.foldl receive r = r) (sid' : Nat) : Hears sid base r (s.sendOne sid' msgs) := by
  by_cases hs : sid' = sid
  · subst hs
    have := h.sendOne_self msgs
    rw [hr] at this
    exact this
  · exact h.sendOne_other hs msgs

end Hears

/-! ## The copy follows the table -/

/-- The session's copy is the table. -/
structure Converged (sid : Nat) (base : List TxMessage) (s : TableServer) : Prop where
  inv    : s.table.Inv
  stream : ∃ stream, s.sent sid = base ++ stream ∧ stream.foldl receive .empty = s.table.cells

def TableOp.keepsRows : TableOp → Bool
  | .deleteRow _ => false
  | _            => true

/-- The session stays open and subscribed, and the operation is not `delete_row`. -/
def Follows (sid : Nat) (s : TableServer) (op : TableOp) : Prop :=
  sid ∈ s.table.subscribers ∧ s.used sid = true ∧ s.isOpen sid = true ∧ op.keepsRows = true

instance (sid : Nat) (s : TableServer) (op : TableOp) : Decidable (Follows sid s op) :=
  inferInstanceAs (Decidable (_ ∧ _ ∧ _ ∧ _))

theorem Converged.hears {sid : Nat} {base : List TxMessage} {s : TableServer} (h : Converged sid base s)
    (hu : s.used sid = true) (ho : s.isOpen sid = true) : Hears sid base s.table.cells s := ⟨hu, ho, h.stream⟩

theorem Converged.commit {sid : Nat} {base : List TxMessage} {s : TableServer} (h : Converged sid base s)
    (hu : s.used sid = true) (ho : s.isOpen sid = true) (hsub : sid ∈ s.table.subscribers)
    {r : DataTable × List TableEvent} (hr : Tracked s.table r) : Converged sid base (s.commit r) := by
  have htable := s.commit_table r
  refine ⟨htable ▸ hr.inv, ?_⟩
  obtain ⟨stream, hsent, hcells⟩ := h.stream
  refine ⟨_, (TableServer.commit_sent hu ho r).trans (by rw [hsent, List.append_assoc]), ?_⟩
  have hidem : ∀ m ∈ r.2.flatMap TableEvent.serialise, ∀ c, receive (receive c m) m = receive c m := by
    intro m hm c
    obtain ⟨e, he, hme⟩ := List.mem_flatMap.1 hm
    exact receive_idem c (hr.free e he) hme
  have hcount : 0 < r.1.subscribers.count sid := List.count_pos_iff.2 (hr.subs ▸ hsub)
  rw [htable, hr.cells, List.foldl_append, hcells, foldl_replicate_idem hcount _ hidem, foldl_receive_events _ _ hr.free]

/-- A snapshot for anyone leaves an up-to-date copy as it is. -/
theorem Converged.sendSnapshot {sid : Nat} {base : List TxMessage} {s : TableServer} (h : Converged sid base s)
    (hu : s.used sid = true) (ho : s.isOpen sid = true) (sid' : Nat) :
    Converged sid base (s.sendSnapshot sid').1 ∧ (s.sendSnapshot sid').1.used sid = true ∧
      (s.sendSnapshot sid').1.isOpen sid = true := by
  have hinv := h.inv.sameData (s.sendSnapshot_sameData sid')
  unfold TableServer.sendSnapshot at hinv ⊢
  split
  · exact ⟨h, hu, ho⟩
  · rename_i msgs batchsize hs
    have hknown : msgs.foldl receive s.table.cells = s.table.cells := by
      rw [receive_snapshot h.inv hs, over_self]
    have hh := (h.hears hu ho).sendOne_known hknown sid'
    rw [hs] at hinv
    refine ⟨⟨hinv, ?_⟩, hh.used, hh.isOpen⟩
    have hcells : (s.sendOne sid' msgs).table.cells = s.table.cells := by rw [(s.sendOne_frame sid' msgs).1]
    exact hcells.symm ▸ hh.stream

theorem Converged.snapshotEach {sid : Nat} {base : List TxMessage} (sids : List Nat) {s : TableServer}
    (h : Converged sid base s) (hu : s.used sid = true) (ho : s.isOpen sid = true) : Converged sid base (s.snapshotEach sids).1 :=
  (TableServer.snapshotEach_keeps (P := fun u => Converged sid base u ∧ u.used sid = true ∧ u.isOpen sid = true) sids
    (fun {_ sid'} _ h => h.1.sendSnapshot h.2.1 h.2.2 sid') ⟨h, hu, ho⟩).1

/-- The description of the columns is no cell. -/
theorem receive_descrMsg (r : TableCells) (t : DataTable) : receive r t.descrMsg = r := rfl

theorem Converged.addSubscriber {sid : Nat} {base : List TxMessage} {s : TableServer} (h : Converged sid base s)
    (hu : s.used sid = true) (ho : s.isOpen sid = true) (sid' : Nat) : Converged sid base (s.addSubscriber sid').1 := by
  have hknown : [(s.table.subscribe sid').descrMsg].foldl receive s.table.cells = s.table.cells :=
    receive_descrMsg _ (s.table.subscribe sid')
  have hh := ((h.hears hu ho).withTable (s.table.subscribe sid')).sendOne_known hknown sid'
  refine (Converged.sendSnapshot ⟨?_, ?_⟩ hh.used hh.isOpen sid').1
  · rw [(TableServer.sendOne_frame _ sid' _).1]
    exact ⟨h.inv.rows, h.inv.columns, h.inv.keyed⟩
  · rw [(TableServer.sendOne_frame _ sid' _).1]
    exact hh.stream

/-- **The first snapshot**: an empty copy becomes the table. -/
theorem converged_of_addSubscriber {sid : Nat} {s : TableServer} (hinv : s.table.Inv) (hu : s.used sid = true)
    (ho : s.isOpen sid = true) (hfit : s.table.RowsFit) :
    Converged sid (s.sent sid) (s.addSubscriber sid).1 := by
  have hh := ((Hears.start hu ho).withTable (s.table.subscribe sid)).sendOne_self [(s.table.subscribe sid).descrMsg]
  have hinv' := hinv.sameData (s.addSubscriber_sameData sid)
  obtain ⟨htable, -, -⟩ := TableServer.sendOne_frame { s with table := s.table.subscribe sid } sid
    [(s.table.subscribe sid).descrMsg]
  unfold TableServer.addSubscriber at hinv' ⊢
  simp only at hinv' ⊢
  -- only the table and the stream of the server that has sent the description matter from here on
  generalize TableServer.sendOne _ _ _ = s' at hh hinv' htable ⊢
  rw [List.foldl_cons, List.foldl_nil, receive_descrMsg] at hh
  obtain ⟨out, hout⟩ : ∃ out, s'.table.snapshotMsgs = .ok out := by
    rw [htable]
    exact snapshotMsgs_isOk hfit
  have hinv0 : s'.table.Inv := by
    rw [htable]
    exact ⟨hinv.rows, hinv.columns, hinv.keyed⟩
  have hsnap := hh.sendOne_self out.1
  rw [receive_snapshot hinv0 hout, over_empty] at hsnap
  refine ⟨hinv', ?_⟩
  unfold TableServer.sendSnapshot
  rw [hout]
  have hcells : (s'.sendOne sid out.1).table.cells = s'.table.cells := by rw [(s'.sendOne_frame sid out.1).1]
  exact hcells.symm ▸ hsnap.stream

/-- **One operation**: the copy of a session that is open and subscribed stays the table. -/
theorem Converged.exec {sid : Nat} {base : List TxMessage} {s : TableServer} {op : TableOp} (h : Converged sid base s)
    (hf : Follows sid s op) : Converged sid base (s.exec op).1 := by
  obtain ⟨hsub, hu, ho, hdel⟩ := hf
  cases op with
  | updateRow clock rowkey fields => exact h.commit hu ho hsub (updateRow_tracked h.inv clock rowkey fields)
  | addColumns clock cols => exact h.commit hu ho hsub (addColumns_tracked h.inv clock cols)
  | updateMeta rowkey column info => exact h.commit hu ho hsub (updateMeta_tracked h.inv rowkey column info)
  | addColumnAttr column attr => exact ⟨⟨h.inv.rows, h.inv.columns, h.inv.keyed⟩, h.stream⟩
  | clearTable => exact h.commit hu ho hsub (clearTable_tracked h.inv)
  | deleteRow rowkey => cases hdel
  | snapshot => exact h.snapshotEach _ hu ho
  | addSubscriber sid' => exact h.addSubscriber hu ho sid'
  | delSubscriber sid' => exact ⟨⟨h.inv.rows, h.inv.columns, h.inv.keyed⟩, h.stream⟩
  | sessions used isOpen => exact ⟨h.inv, h.stream⟩

/-- **A subscriber's copy is the table.**  A session subscribes at any point of any run, open and with every row of the
table small enough for a message of its own; while it stays open and subscribed, after every operation an empty copy that
reads what the session has been sent since holds, in every column but `RowKey`, the value the table holds, or none. -/
theorem subscriber_convergence (tableName : Bytes) (sid : Nat) {s₀ s₁ s₂ : TableServer}
    (hrun : Steps.Reaches tableStep Steps.Always (.new tableName) s₀) (hused : s₀.used sid = true)
    (hopen : s₀.isOpen sid = true) (hfit : s₀.table.RowsFit)
    (hsub : tableStep s₀ (.addSubscriber sid) = some s₁) (hrest : Steps.Reaches tableStep (Follows sid) s₁ s₂) :
    ∃ stream, s₂.sent sid = s₀.sent sid ++ stream ∧
      ∀ rowkey column, column ≠ Id.rowKey →
        stream.foldl receive .empty rowkey column = s₂.table.copyField rowkey column := by
  have hinv := TableServer.inv_of_reaches hrun
  cases hsub
  have h1 : Converged sid (s₀.sent sid) (s₀.addSubscriber sid).1 := converged_of_addSubscriber hinv hused hopen hfit
  have h2 : Converged sid (s₀.sent sid) s₂ := by
    refine hrest.invariant h1 ?_
    intro t u op ht hG hs
    cases hs
    exact ht.exec hG
  obtain ⟨stream, hsent, hcells⟩ := h2.stream
  refine ⟨stream, hsent, fun rowkey column hc => ?_⟩
  rw [hcells, h2.inv.copyField_eq rowkey column hc]

/-- A table with a row, and two open sessions. -/
def sampleServer : TableServer :=
  let s := ((TableServer.new (ascii "t")).exec
    (.updateRow (fun _ => ascii "now") (ascii "a") ((∅ : Fields).insert (ascii "x") (ascii "1")))).1
  (s.exec (.sessions (fun sid => sid < 2) (fun sid => sid < 2))).1

/-- A new row with a new column, metadata, and a snapshot. -/
def sampleOps : List TableOp :=
  [.updateRow (fun _ => ascii "later") (ascii "b") ((∅ : Fields).insert (ascii "y") (ascii "2")),
    .updateMeta (ascii "b") (ascii "y") ⟨ascii "m", []⟩, .snapshot]

theorem subscriber_convergence_sample :
    ∃ s₂ stream, Steps.runIf tableStep (Follows 1) (sampleServer.addSubscriber 1).1 sampleOps = some s₂ ∧
      s₂.sent 1 = sampleServer.sent 1 ++ stream ∧ ∀ rowkey column, column ≠ Id.rowKey →
        stream.foldl receive .empty rowkey column = s₂.table.copyField rowkey column := by
  have hrun : Steps.Reaches tableStep Steps.Always (.new (ascii "t")) sampleServer :=
    Steps.Reaches.step (.step .refl trivial rfl) trivial rfl
  have hsome : (Steps.runIf tableStep (Follows 1) (sampleServer.addSubscriber 1).1 sampleOps).isSome = true := by
    decide +kernel
  obtain ⟨s₂, hs₂⟩ := Option.isSome_iff_exists.1 hsome
  obtain ⟨stream, h⟩ := subscriber_convergence (ascii "t") 1 hrun rfl rfl (by decide +kernel) rfl
    (Steps.reaches_of_runIf sampleOps hs₂)
  exact ⟨s₂, stream, hs₂, h⟩

end Exio
