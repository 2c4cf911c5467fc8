import Exio.TableStream
import Exio.TableResponse
/-!
# Monitor — the tables of an application, each as if it were alone

A `Monitor` (`Monitor.cc`) keeps its tables by name and makes a table when it is first written to.  `m_mutex` protects the
map: a new table is given the sessions of the moment and then registered, and the loops over all tables hold the mutex from
start to end, through every `send_one` of what they do.  An update of a table that exists works on the table without it, so
that it comes between the turns of a loop, into the creation of another table, or between two messages of another table.

A step is an operation on a table up to its first message, one step inside an operation (`TablePublish`), or the part of a call
before or behind an operation.  What a session is sent is one stream for all tables; taken apart by the names in the messages,
every run of the monitor is for each table a run of that one table (`monitor_refines`), and what holds of one table holds of
every table of a monitor.
-/
namespace Exio

open Sam

/-! ## The calls -/

/-- The calls that write to one table. -/
inductive MonitorCall where
  | updateTable (clock : Nat → Bytes) (rowkey : Bytes) (fields : Fields)
  | updateMeta (rowkey column : Bytes) (info : TxContainer)
  | addColumns (clock : Nat → Bytes) (cols : List Bytes)
  | tableColumnAttr (column : Bytes) (attr : TxContainer)
  | clearTable
  | deleteRow (rowkey : Bytes)

namespace MonitorCall

def op : MonitorCall → TableOp
  | .updateTable clock rowkey fields => .updateRow clock rowkey fields
  | .updateMeta rowkey column info   => .updateMeta rowkey column info
  | .addColumns clock cols           => .addColumns clock cols
  | .tableColumnAttr column attr     => .addColumnAttr column attr
  | .clearTable                      => .clearTable
  | .deleteRow rowkey                => .deleteRow rowkey

/-- Whether the call makes a table that is not there. -/
def creates : MonitorCall → Bool
  | .updateTable .. | .updateMeta .. | .addColumns .. | .tableColumnAttr .. => true
  | .clearTable | .deleteRow _ => false

/-- Whether the call still holds `m_mutex` when it works on a table it found. -/
def locked : MonitorCall → Bool
  | .updateTable .. | .updateMeta .. => false
  | _ => true

end MonitorCall

/-- The calls that go through all tables. -/
inductive MonitorLoop where
  | subscribeAll (sid : Nat)
  | unsubscribeAll (sid : Nat)
  | clearAllTables
  | broadcastSnapshot

namespace MonitorLoop

def op : MonitorLoop → TableOp
  | .subscribeAll sid   => .addSubscriber sid
  | .unsubscribeAll sid => .delSubscriber sid
  | .clearAllTables     => .clearTable
  | .broadcastSnapshot  => .snapshot

/-- Whether the operation has messages to send; `del_subscriber` is done at once. -/
def sends : MonitorLoop → Bool
  | .unsubscribeAll _ => false
  | _                 => true

end MonitorLoop

/-! ## The state -/

/-- What the thread that holds `m_mutex` has still to do: add the sessions to a new table, do what the table was made for,
or go through the rest of the tables. -/
inductive MonitorPc where
  | free
  | create (table : DataTable) (todo : List Nat) (call : MonitorCall)
  | created (name : Bytes) (call : MonitorCall)
  | each (loop : MonitorLoop) (todo : List Bytes)

namespace MonitorPc

def isFree : MonitorPc → Bool
  | .free => true
  | _     => false

/-- The table that is being made. -/
def making : MonitorPc → Option DataTable
  | .create t _ _ => some t
  | _             => none

/-- The table that was just registered, which no other thread can have found. -/
def made : MonitorPc → Option Bytes
  | .created name _ => some name
  | _               => none

end MonitorPc

/-- The tables with the threads that work on them, the holder of `m_mutex` and the table it is inside of (`busy`), the
registry's view of the sessions, and what was sent to each session. -/
structure Monitor where
  tables       : Tables
  publishing   : Bytes → Publishing
  snapshotting : Bytes → Option (List Nat × List Nat)
  pc           : MonitorPc
  busy         : Option Bytes
  used         : Nat → Bool
  isOpen       : Nat → Bool
  sent         : Nat → List TxMessage

namespace Monitor

def new : Monitor :=
  ⟨∅, fun _ => .idle, fun _ => none, .free, none, fun _ => false, fun _ => false, fun _ => []⟩

/-- `session_list`. -/
def sessionList (s : Monitor) : List Nat := (List.range sessionRegSize).filter s.used

/-- The table of that name: the one that is being made, the registered one, or a new one where there is none. -/
def table (s : Monitor) (name : Bytes) : DataTable :=
  (s.pc.making.filter fun t => t.tableName == name).getD (s.tables[name]?.getD (.new name))

/-- One table with the sessions. -/
def publisher (s : Monitor) (name : Bytes) : TablePublisher :=
  ⟨⟨s.table name, s.used, s.isOpen, s.sent⟩, s.publishing name, s.snapshotting name⟩

/-- What a step on one table leaves behind. -/
def put (s : Monitor) (name : Bytes) (p : TablePublisher) : Monitor :=
  { s with
    tables       := s.tables.modify name fun _ => p.table
    publishing   := Function.update s.publishing name p.publishing
    snapshotting := Function.update s.snapshotting name p.snapshotting
    sent         := p.sent }

/-- A step on a registered table. -/
def onTable (s : Monitor) (name : Bytes) (a : PublisherAct) : Option Monitor :=
  if s.tables[name]?.isSome then (publisherStep (s.publisher name) a).map (s.put name) else none

/-- Nobody holds `m_mutex`. -/
def mutexFree (s : Monitor) : Bool := s.pc.isFree && s.busy.isNone

end Monitor

inductive MonitorAct where
  | call (name : Bytes) (c : MonitorCall)
  /- the holder of `m_mutex` in `create_table_NOLOCK`, and behind it -/
  | addSubscriber
  | registerTable
  | apply
  /- the loops; `broadcast` is `broadcast_snapshot` of one table -/
  | start (loop : MonitorLoop)
  | broadcast (name : Bytes)
  | next
  | finish
  /-- A thread inside an operation on a table. -/
  | publish (name : Bytes) (a : PublishAct)
  /-- Sessions come, close and go. -/
  | sessions (used isOpen : Nat → Bool)

/-- **One step of one thread.** -/
def monitorStep (s : Monitor) : MonitorAct → Option Monitor
  | .call name c =>
    if s.tables[name]?.isSome then
      if c.locked then
        if s.mutexFree then (s.onTable name (.op c.op)).map fun t => { t with busy := some name } else none
      else if s.pc.made = some name then none
      else s.onTable name (.op c.op)
    else if s.mutexFree then some (if c.creates then { s with pc := .create (.new name) s.sessionList c } else s)
    else none
  | .addSubscriber =>
    match s.pc, s.busy with
    | .create t (sid :: todo) c, none =>
      (publisherStep (s.publisher t.tableName) (.op (.addSubscriber sid))).map fun p =>
        { s.put t.tableName p with
          -- an exception would leave the table unregistered
          pc   := if (s.publisher t.tableName).throws (.op (.addSubscriber sid)) then .free else .create p.table todo c
          busy := some t.tableName }
    | _, _ => none
  | .registerTable =>
    match s.pc, s.busy with
    | .create t [] c, none => some { s with tables := s.tables.insert t.tableName t, pc := .created t.tableName c }
    | _, _                 => none
  | .apply =>
    match s.pc, s.busy with
    | .created name c, none => (s.onTable name (.op c.op)).map fun t => { t with pc := .free, busy := some name }
    | _, _                  => none
  | .start loop => if s.mutexFree then some { s with pc := .each loop s.tables.keys } else none
  | .broadcast name =>
    if s.mutexFree then some (if s.tables[name]?.isSome then { s with pc := .each .broadcastSnapshot [name] } else s) else none
  | .next =>
    match s.pc, s.busy with
    -- `subscribe_all` catches what `add_subscriber` of a table throws
    | .each loop (name :: todo), none => (s.onTable name (.op loop.op)).map fun t =>
      { t with pc := .each loop todo, busy := if loop.sends then some name else none }
    | _, _ => none
  | .finish =>
    match s.pc, s.busy with
    | .each _ [], none => some { s with pc := .free }
    | _, _             => none
  | .publish name a =>
    (publisherStep (s.publisher name) (.publish a)).map fun p =>
      { s.put name p with
        -- an exception ends `broadcast_snapshot`
        pc   := if (s.publisher name).throws (.publish a) then .free else s.pc
        busy := if a = .release ∧ s.busy = some name ∧ s.snapshotting name = none then none else s.busy }
  | .sessions used isOpen => some { s with used := used, isOpen := isOpen }

/-- The steps one by one, with what is known where each is taken. -/
inductive MonitorStep (s : Monitor) : MonitorAct → Monitor → Prop
  | found {name : Bytes} {c : MonitorCall} {p : TablePublisher} {busy : Option Bytes} (hreg : s.tables[name]?.isSome = true)
    (hp : publisherStep (s.publisher name) (.op c.op) = some p) (hbusy : busy = s.busy ∨ s.busy = none) :
    MonitorStep s (.call name c) { s.put name p with busy := busy }
  | create {name : Bytes} {c : MonitorCall} (hnew : s.tables[name]? = none) (hfree : s.pc = .free) (hbusy : s.busy = none) :
    MonitorStep s (.call name c) { s with pc := .create (.new name) s.sessionList c }
  | missing {name : Bytes} {c : MonitorCall} (hnew : s.tables[name]? = none) : MonitorStep s (.call name c) s
  | addSubscriber {t : DataTable} {sid : Nat} {todo : List Nat} {c : MonitorCall} {p : TablePublisher}
    (hpc : s.pc = .create t (sid :: todo) c) (hbusy : s.busy = none)
    (hp : publisherStep (s.publisher t.tableName) (.op (.addSubscriber sid)) = some p) :
    MonitorStep s .addSubscriber { s.put t.tableName p with
      pc   := if (s.publisher t.tableName).throws (.op (.addSubscriber sid)) then .free else .create p.table todo c
      busy := some t.tableName }
  | registerTable {t : DataTable} {c : MonitorCall} (hpc : s.pc = .create t [] c) (hbusy : s.busy = none) :
    MonitorStep s .registerTable { s with tables := s.tables.insert t.tableName t, pc := .created t.tableName c }
  | apply {name : Bytes} {c : MonitorCall} {p : TablePublisher} (hpc : s.pc = .created name c) (hbusy : s.busy = none)
    (hreg : s.tables[name]?.isSome = true) (hp : publisherStep (s.publisher name) (.op c.op) = some p) :
    MonitorStep s .apply { s.put name p with pc := .free, busy := some name }
  | start {loop : MonitorLoop} (hfree : s.pc = .free) (hbusy : s.busy = none) :
    MonitorStep s (.start loop) { s with pc := .each loop s.tables.keys }
  | broadcast {name : Bytes} (hfree : s.pc = .free) (hbusy : s.busy = none) :
    MonitorStep s (.broadcast name) { s with pc := .each .broadcastSnapshot [name] }
  | unknown {name : Bytes} : MonitorStep s (.broadcast name) s
  | next {loop : MonitorLoop} {name : Bytes} {todo : List Bytes} {p : TablePublisher} (hpc : s.pc = .each loop (name :: todo))
    (hbusy : s.busy = none) (hreg : s.tables[name]?.isSome = true)
    (hp : publisherStep (s.publisher name) (.op loop.op) = some p) :
    MonitorStep s .next { s.put name p with pc := .each loop todo, busy := if loop.sends then some name else none }
  | finish {loop : MonitorLoop} (hpc : s.pc = .each loop []) (hbusy : s.busy = none) : MonitorStep s .finish { s with pc := .free }
  | publish {name : Bytes} {a : PublishAct} {p : TablePublisher} (hp : publisherStep (s.publisher name) (.publish a) = some p) :
    MonitorStep s (.publish name a) { s.put name p with
      pc   := if (s.publisher name).throws (.publish a) then .free else s.pc
      busy := if a = .release ∧ s.busy = some name ∧ s.snapshotting name = none then none else s.busy }
  | sessions {used isOpen : Nat → Bool} : MonitorStep s (.sessions used isOpen) { s with used := used, isOpen := isOpen }

section

variable {s t : Monitor} {a : MonitorAct}

theorem Monitor.mutexFree_eq (h : s.mutexFree = true) : s.pc = .free ∧ s.busy = none := by
  obtain ⟨hpc, hbusy⟩ := Bool.and_eq_true_iff.1 h
  refine ⟨?_, Option.isNone_iff_eq_none.1 hbusy⟩
  cases hc : s.pc with
  | free => rfl
  | create _ _ _ | created _ _ | each _ _ => rw [hc] at hpc; cases hpc

theorem Monitor.onTable_eq {name : Bytes} {b : PublisherAct} (h : s.onTable name b = some t) :
    s.tables[name]?.isSome = true ∧ ∃ p, publisherStep (s.publisher name) b = some p ∧ s.put name p = t := by
  obtain ⟨hreg, h⟩ := Option.ite_none_right_eq_some.1 h
  exact ⟨hreg, Option.map_eq_some_iff.1 h⟩

/-- **What a step can do.** -/
theorem monitorStep_cases (hs : monitorStep s a = some t) : MonitorStep s a t := by
  cases a with
  | call name c =>
    simp only [monitorStep] at hs
    split at hs
    · split at hs
      · obtain ⟨hfree, hs⟩ := Option.ite_none_right_eq_some.1 hs
        obtain ⟨t', ht', rfl⟩ := Option.map_eq_some_iff.1 hs
        obtain ⟨hreg, p, hp, rfl⟩ := Monitor.onTable_eq ht'
        exact .found hreg hp (.inr (Monitor.mutexFree_eq hfree).2)
      · obtain ⟨-, hs⟩ := Option.ite_none_left_eq_some.1 hs
        obtain ⟨hreg, p, hp, rfl⟩ := Monitor.onTable_eq hs
        exact .found hreg hp (.inl rfl)
    · rename_i hnew
      have hnew : s.tables[name]? = none := by simpa using hnew
      obtain ⟨hfree, hs⟩ := Option.ite_none_right_eq_some.1 hs
      obtain ⟨hpc, hbusy⟩ := Monitor.mutexFree_eq hfree
      cases hs
      split
      · exact .create hnew hpc hbusy
      · exact .missing hnew
  | addSubscriber =>
    simp only [monitorStep] at hs
    split at hs
    · rename_i hpc hbusy
      obtain ⟨p, hp, rfl⟩ := Option.map_eq_some_iff.1 hs
      exact .addSubscriber hpc hbusy hp
    · cases hs
  | registerTable =>
    simp only [monitorStep] at hs
    split at hs
    · rename_i hpc hbusy
      cases hs
      exact .registerTable hpc hbusy
    · cases hs
  | apply =>
    simp only [monitorStep] at hs
    split at hs
    · rename_i hpc hbusy
      obtain ⟨t', ht', rfl⟩ := Option.map_eq_some_iff.1 hs
      obtain ⟨hreg, p, hp, rfl⟩ := Monitor.onTable_eq ht'
      exact .apply hpc hbusy hreg hp
    · cases hs
  | start loop =>
    obtain ⟨hfree, hs⟩ := Option.ite_none_right_eq_some.1 hs
    cases hs
    exact .start (Monitor.mutexFree_eq hfree).1 (Monitor.mutexFree_eq hfree).2
  | broadcast name =>
    obtain ⟨hfree, hs⟩ := Option.ite_none_right_eq_some.1 hs
    cases hs
    split
    · exact .broadcast (Monitor.mutexFree_eq hfree).1 (Monitor.mutexFree_eq hfree).2
    · exact .unknown
  | next =>
    simp only [monitorStep] at hs
    split at hs
    · rename_i hpc hbusy
      obtain ⟨t', ht', rfl⟩ := Option.map_eq_some_iff.1 hs
      obtain ⟨hreg, p, hp, rfl⟩ := Monitor.onTable_eq ht'
      exact .next hpc hbusy hreg hp
    · cases hs
  | finish =>
    simp only [monitorStep] at hs
    split at hs
    · rename_i hpc hbusy
      cases hs
      exact .finish hpc hbusy
    · cases hs
  | publish name a =>
    obtain ⟨p, hp, rfl⟩ := Option.map_eq_some_iff.1 hs
    exact .publish hp
  | sessions used isOpen =>
    cases hs
    exact .sessions

end

/-! ## One table of a monitor -/

/-- The messages of one table in the streams. -/
def tagged (name : Bytes) (sent : Nat → List TxMessage) : Nat → List TxMessage := fun sid => ofTable name (sent sid)

namespace Monitor

/-- **The monitor, seen from one table.** -/
def project (s : Monitor) (name : Bytes) : TablePublisher := (s.publisher name).withSent (tagged name s.sent)

/-- The table that a step works on, and what it does there. -/
def target (s : Monitor) : MonitorAct → Option (Bytes × PublisherAct)
  | .call name c    => if s.tables[name]?.isSome then some (name, .op c.op) else none
  | .addSubscriber  =>
    match s.pc with
    | .create t (sid :: _) _ => some (t.tableName, .op (.addSubscriber sid))
    | _                      => none
  | .apply          =>
    match s.pc with
    | .created name c => some (name, .op c.op)
    | _               => none
  | .next           =>
    match s.pc with
    | .each loop (name :: _) => some (name, .op loop.op)
    | _                      => none
  | .publish name a => some (name, .publish a)
  | _               => none

/-- What a step is to a table. -/
def actOn (s : Monitor) (name : Bytes) : MonitorAct → Option PublisherAct
  | .sessions used isOpen => some (.op (.sessions used isOpen))
  | a                     => (s.target a).bind fun x => if x.1 = name then some x.2 else none

end Monitor

/-! ## What holds in every run -/

/-- What a call is given. -/
def MonitorAct.Of (π : Naming) : MonitorAct → Prop
  | .call _ c => c.op.Of π
  | _         => True

theorem MonitorAct.of_any (a : MonitorAct) : a.Of .any := by
  cases a with
  | call n c => exact c.op.of_any
  | _ => trivial

theorem MonitorLoop.of_op {π : Naming} (loop : MonitorLoop) : loop.op.Of π := by cases loop <;> trivial

/-- A new table is empty and not registered, and there is still to be done what the call was given. -/
def MonitorPc.Of (π : Naming) (tables : Tables) : MonitorPc → Prop
  | .create t _ c => t.Of t.tableName π ∧ t.rows = [] ∧ tables[t.tableName]? = none ∧ c.op.Of π
  | .created _ c  => c.op.Of π
  | _             => True

/-- **Every table has the name it is registered under**, and every message, sent or to be sent, is one of its table; only
`broadcast_snapshot` copies subscribers for a snapshot, and the holder of `m_mutex` is inside the table then. -/
structure Monitor.Of (π : Naming) (s : Monitor) : Prop where
  tables       : ∀ (name : Bytes) (t : DataTable), s.tables[name]? = some t → t.Of name π
  pc           : s.pc.Of π s.tables
  sent         : ∀ sid, ∀ m ∈ s.sent sid, ∃ name, Emitted name π m
  publishing   : ∀ name, ∀ m ∈ (s.publishing name).messages, Emitted name π m
  snapshotting : ∀ name, s.snapshotting name ≠ none → s.busy = some name ∧ s.tables[name]?.isSome = true ∧
    ∃ todo, s.pc = .each .broadcastSnapshot todo

theorem Monitor.new_of (π : Naming) : Monitor.new.Of π where
  tables name t ht := by simp [Monitor.new] at ht
  pc := trivial
  sent sid m hm := by cases hm
  publishing name m hm := by cases hm
  snapshotting name h := absurd rfl h

section

variable {π : Naming} {s : Monitor}

theorem getElem?_insert_eq {name n : Bytes} {tables : Tables} {t : DataTable} :
    (tables.insert name t)[n]? = if name = n then some t else tables[n]? := by
  rw [Std.TreeMap.getElem?_insert]
  simp only [Std.LawfulEqOrd.compare_eq_iff_eq]

theorem getElem?_modify_eq {name n : Bytes} {tables : Tables} {t : DataTable} :
    (tables.modify name fun _ => t)[n]? = if name = n then tables[name]?.map fun _ => t else tables[n]? := by
  rw [Std.TreeMap.getElem?_modify]
  simp only [Std.LawfulEqOrd.compare_eq_iff_eq]

theorem getElem?_modify_none {n : Bytes} {tables : Tables} (hnew : tables[n]? = none) (name : Bytes) (t : DataTable) :
    (tables.modify name fun _ => t)[n]? = none := by
  rw [getElem?_modify_eq]
  split
  · rename_i heq
    rw [heq, hnew]
    rfl
  · exact hnew

theorem Monitor.table_of_making {name : Bytes} (h : ∀ t, s.pc.making = some t → t.tableName ≠ name) :
    s.table name = s.tables[name]?.getD (.new name) := by
  unfold Monitor.table
  cases hm : s.pc.making with
  | none => rfl
  | some t =>
    rw [Option.filter_some, if_neg (by simpa using h t hm)]
    rfl

theorem Monitor.table_create {t : DataTable} {todo : List Nat} {c : MonitorCall} (hpc : s.pc = .create t todo c) :
    s.table t.tableName = t := by
  unfold Monitor.table
  rw [hpc, MonitorPc.making, Option.filter_some, if_pos (beq_self_eq_true _), Option.getD_some]

/-- A registered table is not the one that is being made. -/
theorem Monitor.Of.making_ne (h : s.Of π) {name : Bytes} (hreg : s.tables[name]?.isSome = true) :
    ∀ t, s.pc.making = some t → t.tableName ≠ name := by
  intro t hm hname
  have hpc := h.pc
  cases hc : s.pc with
  | create t₀ todo c =>
    rw [hc] at hm hpc
    cases hm
    rw [← hname, hpc.2.2.1] at hreg
    cases hreg
  | free | created n c | each loop todo => rw [hc] at hm; cases hm

theorem Monitor.Of.table (h : s.Of π) (name : Bytes) : (s.table name).Of name π := by
  by_cases hmaking : ∃ t, s.pc.making = some t ∧ t.tableName = name
  · obtain ⟨t, hm, rfl⟩ := hmaking
    have hpc := h.pc
    cases hc : s.pc with
    | create t₀ todo c =>
      rw [hc] at hm hpc
      cases hm
      rw [Monitor.table_create hc]
      exact hpc.1
    | free | created n c | each loop todo => rw [hc] at hm; cases hm
  · rw [Monitor.table_of_making fun t hm hname => hmaking ⟨t, hm, hname⟩]
    cases ht : s.tables[name]? with
    | none => exact DataTable.new_of
    | some t => exact h.tables name t ht

theorem Monitor.Of.publisher (h : s.Of π) (name : Bytes) : (s.publisher name).Of name π := ⟨h.table name, h.publishing name⟩

/-! ### The table behind a step -/

theorem Monitor.table_put {name : Bytes} (hmaking : ∀ t, s.pc.making = some t → t.tableName ≠ name)
    (hreg : s.tables[name]?.isSome = true) (p : TablePublisher) {pc : MonitorPc} (hpc : pc.making = s.pc.making)
    (busy : Option Bytes) (n : Bytes) :
    ({ s.put name p with pc := pc, busy := busy } : Monitor).table n = if name = n then p.table else s.table n := by
  obtain ⟨t, ht⟩ := Option.isSome_iff_exists.1 hreg
  split
  · rename_i heq
    subst heq
    rw [Monitor.table_of_making (by simpa only [hpc] using hmaking), Monitor.put, getElem?_modify_eq, if_pos rfl, ht]
    rfl
  · rename_i hne
    unfold Monitor.table Monitor.put
    simp only [hpc, getElem?_modify_eq, if_neg hne]

/-- A step inside an operation on the table that is being made changes the table in nothing. -/
theorem Monitor.table_put_same {name : Bytes} (hnew : s.tables[name]? = none) {p : TablePublisher} (hp : p.table = s.table name)
    (busy : Option Bytes) (n : Bytes) :
    ({ s.put name p with busy := busy } : Monitor).table n = if name = n then p.table else s.table n := by
  have htables : (s.put name p).tables[n]? = s.tables[n]? := by
    rw [Monitor.put, getElem?_modify_eq]
    split
    · rename_i heq
      rw [← heq, hnew]
      rfl
    · rfl
  have htable : ({ s.put name p with busy := busy } : Monitor).table n = s.table n := by
    unfold Monitor.table
    simp only [htables]
    rfl
  rw [htable]
  split
  · rename_i heq
    rw [hp, heq]
  · rfl

theorem Monitor.table_put_create {t : DataTable} {todo : List Nat} {c : MonitorCall} (hpc : s.pc = .create t todo c)
    {p : TablePublisher} (hname : p.table.tableName = t.tableName) (todo' : List Nat) (busy : Option Bytes) (n : Bytes) :
    ({ s.put t.tableName p with pc := .create p.table todo' c, busy := busy } : Monitor).table n =
      if t.tableName = n then p.table else s.table n := by
  split
  · rename_i heq
    subst heq
    rw [← hname]
    exact Monitor.table_create rfl
  · rename_i hne
    rw [Monitor.table_of_making (by rintro t' ⟨⟩; rwa [hname]), Monitor.table_of_making (by rw [hpc]; rintro t' ⟨⟩; exact hne)]
    rw [Monitor.put, getElem?_modify_eq, if_neg hne]

/-! ### Every step keeps it -/

theorem MonitorPc.Of.modify {pc : MonitorPc} {tables : Tables} (h : pc.Of π tables) (name : Bytes) (t : DataTable) :
    pc.Of π (tables.modify name fun _ => t) := by
  cases pc with
  | create t₀ todo c =>
    obtain ⟨hof, hrows, hnew, hop⟩ := h
    exact ⟨hof, hrows, getElem?_modify_none hnew name t, hop⟩
  | _ => exact h

/-- **A step on one table**: what it sends goes behind what was sent, whatever that was. -/
theorem Monitor.Of.sends (h : s.Of π) {name : Bytes} {b : PublisherAct} {p : TablePublisher}
    (hp : publisherStep (s.publisher name) b = some p) : ∃ new : Nat → List TxMessage,
      (∀ sid, ∀ m ∈ new sid, Emitted name π m) ∧ (p.sent = fun sid => s.sent sid ++ new sid) ∧
      ∀ past, publisherStep ((s.publisher name).withSent past) b = some (p.withSent fun sid => past sid ++ new sid) := by
  obtain ⟨new, hnew, hsends⟩ := publisherStep_sends (h.publisher name) hp
  have hsame := (hsends s.sent).symm.trans hp
  exact ⟨new, hnew, congrArg (fun q : TablePublisher => q.sent) (Option.some.inj hsame).symm, hsends⟩

/-- What the step leaves there is within the names. -/
theorem Monitor.Of.put (h : s.Of π) {name : Bytes} {b : PublisherAct} (hb : b.Of π) {p : TablePublisher}
    (hp : publisherStep (s.publisher name) b = some p) {pc : MonitorPc} (hpc : pc.Of π (s.put name p).tables) {busy : Option Bytes}
    (hsnap : ∀ n, (s.put name p).snapshotting n ≠ none → busy = some n ∧ s.tables[n]?.isSome = true ∧
      ∃ todo, pc = .each .broadcastSnapshot todo) :
    ({ s.put name p with pc := pc, busy := busy } : Monitor).Of π := by
  have hof := publisherStep_of (h.publisher name) hb hp
  obtain ⟨new, hnew, hsent, -⟩ := h.sends hp
  refine ⟨fun n t ht => ?_, hpc, fun sid m hm => ?_, fun n m hm => ?_, fun n hn => ?_⟩
  · rw [Monitor.put, getElem?_modify_eq] at ht
    split at ht
    · rename_i heq
      obtain ⟨t', -, rfl⟩ := Option.map_eq_some_iff.1 ht
      exact heq ▸ hof.table
    · exact h.tables n t ht
  · rw [show ({ s.put name p with pc := pc, busy := busy } : Monitor).sent = _ from hsent] at hm
    rcases List.mem_append.1 hm with hm | hm
    · exact h.sent sid m hm
    · exact ⟨name, hnew sid m hm⟩
  · by_cases heq : n = name
    · subst heq
      exact hof.publishing m (by simpa [Monitor.put] using hm)
    · exact h.publishing n m (by simpa [Monitor.put, Function.update_of_ne heq] using hm)
  · obtain ⟨hbusy, hreg, hloop⟩ := hsnap n hn
    refine ⟨hbusy, ?_, hloop⟩
    rw [Monitor.put, getElem?_modify_eq]
    split
    · rename_i heq
      rw [Option.isSome_map, heq]
      exact hreg
    · exact hreg

theorem Monitor.snapshotting_put (name n : Bytes) (p : TablePublisher) :
    (s.put name p).snapshotting n = if n = name then p.snapshotting else s.snapshotting n := Function.update_apply ..

theorem Monitor.put_snapshotting {name : Bytes} {p : TablePublisher} (hp : p.snapshotting = s.snapshotting name) :
    (s.put name p).snapshotting = s.snapshotting := by
  rw [Monitor.put, hp, Function.update_eq_self]

theorem MonitorCall.op_ne_snapshot (c : MonitorCall) : c.op ≠ .snapshot := by
  cases c <;> exact fun h => by cases h

/-- Where the holder of `m_mutex` is in no table, no subscribers are copied. -/
theorem Monitor.Of.snapshotting_of_busy (h : s.Of π) (hbusy : s.busy = none) (n : Bytes) : s.snapshotting n = none := by
  by_contra hsome
  have hin := (h.snapshotting n hsome).1
  rw [hbusy] at hin
  cases hin

/-- A new table has no rows, and so its snapshot cannot fail. -/
theorem throws_addSubscriber {s : TablePublisher} (h : s.table.rows = []) (sid : Nat) :
    s.throws (.op (.addSubscriber sid)) = false := by
  simp only [TablePublisher.throws, DataTable.snapshotSends, DataTable.snapshotMsgs_nil (t := s.table.subscribe sid) h]
  rfl

/-- **Every step keeps it.** -/
theorem monitorStep_of {t : Monitor} (h : s.Of π) {a : MonitorAct} (ha : a.Of π) (hs : monitorStep s a = some t) :
    t.Of π := by
  cases monitorStep_cases hs with
  | @found name c p busy hreg hp hbusy =>
    refine h.put (b := .op c.op) ha hp (h.pc.modify name p.table) fun n hn => ?_
    rw [Monitor.put_snapshotting (publisherStep_snapshotting c.op_ne_snapshot hp)] at hn
    obtain ⟨hin, hreg, hloop⟩ := h.snapshotting n hn
    rcases hbusy with rfl | hnone
    · exact ⟨hin, hreg, hloop⟩
    · rw [hnone] at hin
      cases hin
  | create hnew hfree hbusy =>
    exact { h with
      pc           := ⟨DataTable.new_of, rfl, hnew, ha⟩
      snapshotting := fun n hn => absurd (h.snapshotting_of_busy hbusy n) hn }
  | missing hnew => exact h
  | @addSubscriber t sid todo c p hpc hbusy hp =>
    have hcreate := h.pc
    rw [hpc] at hcreate
    obtain ⟨hof, hrows, hnew, hop⟩ := hcreate
    have htable := Monitor.table_create hpc
    have hrows' : p.table.rows = [] := by
      cases publisherStep_cases hp with
      | change _ hr => cases hr
      | addSubscriber hidle =>
        obtain ⟨batchsize, heq⟩ := snapshotSends_table ((s.publisher t.tableName).table.subscribe sid) [sid]
        rw [heq]
        exact (congrArg DataTable.rows htable).trans hrows
    have hnames := (publisherStep_of (h.publisher t.tableName) (a := .op (.addSubscriber sid)) trivial hp).table
    rw [throws_addSubscriber ((congrArg DataTable.rows htable).trans hrows)]
    refine h.put (b := .op (.addSubscriber sid)) trivial hp ?_ fun n hn => ?_
    · refine ⟨hnames.tableName.symm ▸ hnames, hrows', ?_, hop⟩
      rw [hnames.tableName]
      exact getElem?_modify_none hnew _ _
    · rw [Monitor.put_snapshotting (publisherStep_snapshotting (by rintro ⟨⟩) hp)] at hn
      exact absurd (h.snapshotting_of_busy hbusy n) hn
  | registerTable hpc hbusy =>
    have hcreate := h.pc
    rw [hpc] at hcreate
    obtain ⟨hof, -, -, hop⟩ := hcreate
    refine { h with
      tables       := fun n t' hn => ?_
      pc           := hop
      snapshotting := fun n hn => absurd (h.snapshotting_of_busy hbusy n) hn }
    rw [getElem?_insert_eq] at hn
    split at hn
    · rename_i heq
      cases hn
      exact heq ▸ hof
    · exact h.tables n t' hn
  | @apply name c p hpc hbusy hreg hp =>
    have hop := h.pc
    rw [hpc] at hop
    refine h.put (b := .op c.op) hop hp (show MonitorPc.Of π _ .free from trivial) fun n hn => ?_
    rw [Monitor.put_snapshotting (publisherStep_snapshotting c.op_ne_snapshot hp)] at hn
    exact absurd (h.snapshotting_of_busy hbusy n) hn
  | start hfree hbusy =>
    exact { h with pc := trivial, snapshotting := fun n hn => absurd (h.snapshotting_of_busy hbusy n) hn }
  | broadcast hfree hbusy =>
    exact { h with pc := trivial, snapshotting := fun n hn => absurd (h.snapshotting_of_busy hbusy n) hn }
  | unknown => exact h
  | @next loop name todo p hpc hbusy hreg hp =>
    refine h.put (b := .op loop.op) loop.of_op hp (show MonitorPc.Of π _ (.each loop todo) from trivial) fun n hn => ?_
    by_cases heq : n = name
    · subst heq
      cases loop with
      | broadcastSnapshot => exact ⟨rfl, hreg, todo, rfl⟩
      | subscribeAll _ | unsubscribeAll _ | clearAllTables =>
        rw [Monitor.put_snapshotting (publisherStep_snapshotting (by rintro ⟨⟩) hp)] at hn
        exact absurd (h.snapshotting_of_busy hbusy n) hn
    · rw [Monitor.snapshotting_put, if_neg heq] at hn
      exact absurd (h.snapshotting_of_busy hbusy n) hn
  | finish hpc hbusy =>
    exact { h with pc := trivial, snapshotting := fun n hn => absurd (h.snapshotting_of_busy hbusy n) hn }
  | @publish name p q hp =>
    refine h.put (b := .publish p) trivial hp ?_ fun n hn => ?_
    · split
      · trivial
      · exact h.pc.modify name q.table
    · by_cases heq : n = name
      · subst heq
        rw [Monitor.snapshotting_put, if_pos rfl] at hn
        rcases publisherStep_publish hp with ⟨hcopy, hok⟩ | ⟨hnone, -⟩
        · obtain ⟨hin, hreg, hloop⟩ := h.snapshotting n hcopy
          rw [if_neg fun hc => hcopy hc.2.2, hok hn]
          exact ⟨hin, hreg, hloop⟩
        · exact absurd hnone hn
      · rw [Monitor.snapshotting_put, if_neg heq] at hn
        obtain ⟨hin, hreg, hloop⟩ := h.snapshotting n hn
        have hother : s.snapshotting name = none := by
          by_contra hsome
          exact heq (Option.some.inj (hin.symm.trans (h.snapshotting name hsome).1))
        rcases publisherStep_publish hp with ⟨hcopy, -⟩ | ⟨-, -, hok⟩
        · exact absurd hother hcopy
        · rw [if_neg fun hc => heq (Option.some.inj (hin.symm.trans hc.2.1)), hok]
          exact ⟨hin, hreg, hloop⟩
  | sessions => exact { h with }

/-! ## Every step is one of a table, or none -/

theorem TablePublisher.eq_of {s t : TablePublisher} (htable : s.table = t.table) (hused : s.used = t.used)
    (hopen : s.isOpen = t.isOpen) (hsent : s.sent = t.sent) (hpublishing : s.publishing = t.publishing)
    (hsnapshotting : s.snapshotting = t.snapshotting) : s = t := by
  obtain ⟨⟨table, used, isOpen, sent⟩, publishing, snapshotting⟩ := s
  obtain rfl : table = t.table := htable
  obtain rfl : used = t.used := hused
  obtain rfl : isOpen = t.isOpen := hopen
  obtain rfl : sent = t.sent := hsent
  obtain rfl : publishing = t.publishing := hpublishing
  obtain rfl : snapshotting = t.snapshotting := hsnapshotting
  rfl

theorem ofTable_append (name : Bytes) (xs ys : List TxMessage) : ofTable name (xs ++ ys) = ofTable name xs ++ ofTable name ys :=
  List.filter_append ..

/-- **Messages of one table in the streams of all**: they stand there for that table, and for no other. -/
theorem ofTable_eq {name n : Bytes} {msgs : List TxMessage} (hmsgs : ∀ m ∈ msgs, messageTable m = some name) :
    ofTable n msgs = if name = n then msgs else [] := by
  split
  · rename_i heq
    refine List.filter_eq_self.2 fun m hm => ?_
    rw [hmsgs m hm, heq, beq_self_eq_true]
  · rename_i hne
    refine List.filter_eq_nil_iff.2 fun m hm => ?_
    rw [hmsgs m hm]
    simpa using hne

/-- **A step on one table, as the tables see it.** -/
theorem Monitor.Of.project_put (h : s.Of π) {name : Bytes} {b : PublisherAct} {p : TablePublisher}
    (hp : publisherStep (s.publisher name) b = some p) (hb : ∀ used isOpen, b ≠ .op (.sessions used isOpen)) {pc : MonitorPc}
    {busy : Option Bytes} {n : Bytes} (htable : ({ s.put name p with pc := pc, busy := busy } : Monitor).table n =
      if name = n then p.table else s.table n) :
    (if name = n then some b else none).elim
      (({ s.put name p with pc := pc, busy := busy } : Monitor).project n = s.project n)
      fun b => publisherStep (s.project n) b = some (({ s.put name p with pc := pc, busy := busy } : Monitor).project n) := by
  obtain ⟨new, hnew, hsent, hsends⟩ := h.sends hp
  have hstream : ∀ sid, tagged n p.sent sid = tagged n s.sent sid ++ if name = n then new sid else [] := fun sid => by
    rw [hsent, tagged, ofTable_append, ofTable_eq fun m hm => (hnew sid m hm).table, tagged]
  split
  · rename_i heq
    subst heq
    obtain ⟨hused, hopen⟩ := publisherStep_sessions hb hp
    refine (hsends (tagged name s.sent)).trans (congrArg some ?_)
    refine TablePublisher.eq_of (htable.trans (if_pos rfl)).symm hused hopen ?_ ?_ ?_
    · funext sid
      exact ((hstream sid).trans (congrArg (tagged name s.sent sid ++ ·) (if_pos rfl))).symm
    · exact (Function.update_self name p.publishing s.publishing).symm
    · exact (Function.update_self name p.snapshotting s.snapshotting).symm
  · rename_i hne
    refine TablePublisher.eq_of (htable.trans (if_neg hne)) rfl rfl ?_ ?_ ?_
    · funext sid
      exact (hstream sid).trans (by rw [if_neg hne, List.append_nil]; rfl)
    · exact Function.update_of_ne (Ne.symm hne) p.publishing s.publishing
    · exact Function.update_of_ne (Ne.symm hne) p.snapshotting s.snapshotting

/-- Where the tables stay, so does what they see. -/
theorem Monitor.project_eq {t : Monitor} {n : Bytes} (htable : t.table n = s.table n) (hused : t.used = s.used)
    (hopen : t.isOpen = s.isOpen) (hsent : t.sent = s.sent) (hpublishing : t.publishing = s.publishing)
    (hsnapshotting : t.snapshotting = s.snapshotting) : t.project n = s.project n :=
  TablePublisher.eq_of htable hused hopen (congrArg (tagged n) hsent) (congrFun hpublishing n) (congrFun hsnapshotting n)

theorem Monitor.project_withPc {pc : MonitorPc} (hpc : pc.making = s.pc.making) (n : Bytes) :
    ({ s with pc := pc } : Monitor).project n = s.project n := by
  refine Monitor.project_eq ?_ rfl rfl rfl rfl rfl
  unfold Monitor.table
  rw [hpc]

theorem MonitorCall.op_ne_sessions (c : MonitorCall) (used isOpen : Nat → Bool) :
    PublisherAct.op c.op ≠ .op (.sessions used isOpen) := by
  cases c <;> exact fun h => by cases h

theorem MonitorLoop.op_ne_sessions (loop : MonitorLoop) (used isOpen : Nat → Bool) :
    PublisherAct.op loop.op ≠ .op (.sessions used isOpen) := by
  cases loop <;> exact fun h => by cases h

/-- **One step of the monitor is one step of a table, or nothing to it.** -/
theorem monitorStep_project {t : Monitor} (h : s.Of π) {a : MonitorAct} (hs : monitorStep s a = some t) (n : Bytes) :
    (s.actOn n a).elim (t.project n = s.project n) fun b => publisherStep (s.project n) b = some (t.project n) := by
  cases monitorStep_cases hs with
  | @found name c p busy hreg hp hbusy =>
    have hact : s.actOn n (.call name c) = if name = n then some (.op c.op) else none := by
      simp [Monitor.actOn, Monitor.target, hreg]
    rw [hact]
    exact h.project_put hp c.op_ne_sessions (Monitor.table_put (h.making_ne hreg) hreg p rfl busy n)
  | @create name c hnew hfree hbusy =>
    have hact : s.actOn n (.call name c) = none := by simp [Monitor.actOn, Monitor.target, hnew]
    rw [hact]
    refine Monitor.project_eq ?_ rfl rfl rfl rfl rfl
    rw [Monitor.table_of_making (s := s) (by rw [hfree]; rintro t ⟨⟩)]
    by_cases heq : name = n
    · subst heq
      rw [hnew]
      exact Monitor.table_create (s := { s with pc := .create (.new name) s.sessionList c }) rfl
    · exact Monitor.table_of_making (by rintro t ⟨⟩; exact heq)
  | @missing name c hnew =>
    have hact : s.actOn n (.call name c) = none := by simp [Monitor.actOn, Monitor.target, hnew]
    rw [hact]
    rfl
  | @addSubscriber t sid todo c p hpc hbusy hp =>
    have hcreate := h.pc
    rw [hpc] at hcreate
    have htable := Monitor.table_create hpc
    have hnames := (publisherStep_of (h.publisher t.tableName) (a := .op (.addSubscriber sid)) trivial hp).table
    have hact : s.actOn n .addSubscriber = if t.tableName = n then some (.op (.addSubscriber sid)) else none := by
      simp [Monitor.actOn, Monitor.target, hpc]
    rw [hact, throws_addSubscriber ((congrArg DataTable.rows htable).trans hcreate.2.1)]
    exact h.project_put hp (by rintro _ _ ⟨⟩) (Monitor.table_put_create hpc hnames.tableName todo _ n)
  | @registerTable t c hpc hbusy =>
    refine Monitor.project_eq ?_ rfl rfl rfl rfl rfl
    rw [Monitor.table_of_making (by rintro t ⟨⟩), getElem?_insert_eq]
    split
    · rename_i heq
      subst heq
      exact (Monitor.table_create hpc).symm
    · rename_i hn
      refine (Monitor.table_of_making ?_).symm
      rw [hpc]
      rintro t' ⟨⟩
      exact hn
  | @apply name c p hpc hbusy hreg hp =>
    have hact : s.actOn n .apply = if name = n then some (.op c.op) else none := by
      simp [Monitor.actOn, Monitor.target, hpc]
    rw [hact]
    exact h.project_put hp c.op_ne_sessions
      (Monitor.table_put (h.making_ne hreg) hreg p (show MonitorPc.free.making = _ by rw [hpc]; rfl) _ n)
  | start hfree hbusy => exact Monitor.project_withPc (by rw [hfree]; rfl) n
  | broadcast hfree hbusy => exact Monitor.project_withPc (by rw [hfree]; rfl) n
  | unknown => exact rfl
  | @next loop name todo p hpc hbusy hreg hp =>
    have hact : s.actOn n .next = if name = n then some (.op loop.op) else none := by
      simp [Monitor.actOn, Monitor.target, hpc]
    rw [hact]
    exact h.project_put hp loop.op_ne_sessions
      (Monitor.table_put (h.making_ne hreg) hreg p (show (MonitorPc.each loop todo).making = _ by rw [hpc]; rfl) _ n)
  | finish hpc hbusy => exact Monitor.project_withPc (by rw [hpc]; rfl) n
  | @publish name b p hp =>
    refine h.project_put (b := .publish b) hp (by rintro _ _ ⟨⟩) ?_
    -- only a snapshot changes the table here, and it is of a registered table
    rcases publisherStep_publish hp with ⟨hcopy, -⟩ | ⟨-, htable, hok⟩
    · obtain ⟨-, hreg, todo, hpc⟩ := h.snapshotting name hcopy
      refine Monitor.table_put (h.making_ne hreg) hreg p ?_ _ n
      rw [hpc]
      split <;> rfl
    · rw [hok]
      cases hreg : s.tables[name]? with
      | none => exact Monitor.table_put_same hreg htable _ n
      | some t => exact Monitor.table_put (h.making_ne (by rw [hreg]; rfl)) (by rw [hreg]; rfl) p rfl _ n
  | sessions => exact rfl

end

/-- **A monitor is its tables, each as if it were alone.**  In every interleaving of the threads, with every `send_one` a step of
its own, seen from any one table — the table of that name, and of each session's stream the messages that carry its name — what
happens is a run of that one table. -/
theorem monitor_refines {s : Monitor} (hs : Steps.Reaches monitorStep Steps.Always .new s) (name : Bytes) :
    Steps.Reaches publisherStep Steps.Always (.new name) (s.project name) := by
  refine hs.simulate (f := fun s => s.project name) (Monitor.new_of .any)
    (fun {_ _ a} h _ hstep => monitorStep_of h a.of_any hstep) fun {s t a} h _ hstep => ?_
  have hproj := monitorStep_project h hstep name
  cases hact : s.actOn name a with
  | none => rw [hact] at hproj; exact .inl hproj
  | some b => rw [hact] at hproj; exact .inr ⟨b, trivial, hproj⟩

/-- The steps of the thread inside an operation on a table. -/
def inside (name : Bytes) (acts : List PublishAct) : List MonitorAct := acts.map (.publish name)

/-- Session 1 is there when an update makes the table `t`, and goes before the last message of a snapshot of all tables. -/
def sampleMonitor : List MonitorAct :=
  [.sessions (fun sid => sid == 1) (fun _ => true),
    .call (ascii "t") (.updateTable (fun _ => ascii "now") (ascii "a") ((∅ : Fields).insert (ascii "x") (ascii "1"))),
    .addSubscriber] ++ inside (ascii "t") [.sendOne, .sendOne, .release] ++
  [.registerTable, .apply] ++ inside (ascii "t") [.copyNext, .copyNext, .sendOne, .sendOne, .release] ++
  [.start .broadcastSnapshot, .next] ++ inside (ascii "t") [.snapshotNext, .snapshotNext] ++
  [.sessions (fun _ => false) (fun _ => true)] ++ inside (ascii "t") [.sendOne, .release] ++ [.finish]

theorem monitor_refines_sample : ∃ s, Steps.run monitorStep .new sampleMonitor = some s ∧
    ((s.project (ascii "t")).table.rows.length = 1 ∧ ((s.project (ascii "t")).sent 1).length = 3) ∧
    Steps.Reaches publisherStep Steps.Always (.new (ascii "t")) (s.project (ascii "t")) := by
  have hrun : (Steps.run monitorStep .new sampleMonitor).map (fun s => decide ((s.project (ascii "t")).table.rows.length = 1 ∧
      ((s.project (ascii "t")).sent 1).length = 3)) = some true := by decide +kernel
  obtain ⟨s, hs, hfacts⟩ := Option.map_eq_some_iff.1 hrun
  exact ⟨s, hs, of_decide_eq_true hfacts, monitor_refines (Steps.reaches_of_run _ hs) _⟩

end Exio
