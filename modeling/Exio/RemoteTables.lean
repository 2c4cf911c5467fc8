import Exio.SamBuilt
import Exio.Transport
import Exio.MonitorCopy
/-!
# RemoteTables — the tables of an application in another process

The monitor sends each session one stream for all tables (`Monitor`), and a connection hands on what its queue took
(`Transport`).  Between the two, `send_one` enqueues what it is given message by message and holds `m_sessions.lock`: the next
`send_one`, and sessions that come and go, wait for it, while the rest of the program enqueues messages of its own in between.

Names without delimiters are enough for every message of a table to survive the wire (`Emitted.plain`), and so the process at
the other end has, table by table, what the session was sent (`remote_tables`): a prefix of it at any time, and from all of it
the table itself.
-/
namespace Exio

open Sam Replica

/-! ## Messages that the wire carries -/

/-- Names that are read back as they were written. -/
def Naming.plain : Naming where
  cell        := PlainName
  info c info := PlainName (ascii ".meta." ++ c) ∧ Everywhere Carried info.items
  attr attr   := PlainName attr.name ∧ Everywhere Carried attr.items
  key         := by decide
  last        := by decide

theorem everywhere_putFieldQ (v : Bytes) : ∀ (q : List Bytes) {is : List TxItem}, Everywhere Carried is →
    (∀ n ∈ q, PlainName n) → Everywhere Carried (putFieldQ v q is)
  | [], _, h, _ => h.putField (by decide) v
  | [_], _, h, hq => h.putField (hq _ (List.mem_singleton.2 rfl)) v
  | _ :: m :: q, _, h, hq =>
    h.modifyChild (hq _ List.mem_cons_self) fun _ hcs =>
      everywhere_putFieldQ v (m :: q) hcs fun n hn => hq n (List.mem_cons_of_mem _ hn)

theorem everywhere_putFields {is : List TxItem} (h : Everywhere Carried is) {fields : Fields} (hf : ∀ c ∈ fields, PlainName c) :
    Everywhere Carried (putFields is fields) := by
  have hloop : ∀ (l : List (Bytes × Bytes)) {is : List TxItem}, Everywhere Carried is → (∀ f ∈ l, PlainName f.1) →
      Everywhere Carried (l.foldl (fun is f => putField is f.1 f.2) is) := by
    intro l
    induction l with
    | nil => exact fun h _ => h
    | cons f l ih =>
      intro is h hl
      obtain ⟨hhead, hrest⟩ := List.forall_mem_cons.1 hl
      exact ih (h.putField hhead f.2) hrest
  refine hloop fields.toList h fun f hmem => hf f.1 ?_
  rw [Std.TreeMap.mem_iff_isSome_getElem?, Std.TreeMap.mem_toList_iff_getElem?_eq_some.1 hmem]
  rfl

theorem everywhere_foldl_putChildCopy : ∀ (cs : List TxContainer) {is : List TxItem}, Everywhere Carried is →
    (∀ c ∈ cs, PlainName c.name ∧ Everywhere Carried c.items) → Everywhere Carried (cs.foldl putChildCopy is)
  | [], _, h, _ => h
  | c :: cs, is, h, hcs => by
    obtain ⟨⟨hname, hitems⟩, hrest⟩ := List.forall_mem_cons.1 hcs
    refine everywhere_foldl_putChildCopy cs ?_ hrest
    rw [show putChildCopy is c = modifyChild is c.name (fun _ => c.items) from putChildCopy_eq is c.name c.items]
    exact h.modifyChild hname fun _ _ => hitems

/-- The metadata of a row, as it stands in a message. -/
theorem DataTable.Of.carried_pcmd {name : Bytes} {t : DataTable} (h : t.Of name .plain) (rowkey : Bytes) :
    ∀ c ∈ (t.pcmd[rowkey]?.getD ∅).toList.map Prod.snd, PlainName c.name ∧ Everywhere Carried c.items := by
  intro c hc
  obtain ⟨⟨column, info⟩, hmem, rfl⟩ := List.mem_map.1 hc
  cases hrow : t.pcmd[rowkey]? with
  | none => simp [hrow] at hmem
  | some metas =>
    rw [hrow, Option.getD_some] at hmem
    obtain ⟨info₀, rfl, hinfo⟩ := h.pcmd rowkey metas hrow column info (Std.TreeMap.mem_toList_iff_getElem?_eq_some.1 hmem)
    exact hinfo

theorem plain_mk {t : Bytes} {root : List TxItem} (ht : metaDelim ∉ t ∧ escape ∉ t) (h : Everywhere Carried root) :
    Plain ⟨t, root⟩ := ⟨ht.1, ht.2, h⟩

theorem everywhere_updateHead (name : Bytes) : Everywhere Carried (updateHead name) :=
  everywhere_putFieldQ _ Id.qnMsgtype (everywhere_putFieldQ name Id.qnTablename everywhere_carried_nil (by decide)) (by decide)

theorem plain_updateMsg (name rowKey : Bytes) {fields : Fields} (h : ∀ c ∈ fields, PlainName c) :
    Plain (updateMsg name rowKey fields) := by
  refine plain_mk (by decide) (Everywhere.modifyChild (everywhere_updateHead name) (by decide) fun body hbody => ?_)
  refine Everywhere.modifyChild (hbody.putField (by decide) _) (by decide) fun row hrow => ?_
  exact everywhere_putFields (hrow.putField (by decide) rowKey) h

theorem plain_pcmdMsg (name rowKey : Bytes) {column : Bytes} {info : TxContainer} (h : Naming.plain.info column info) :
    Plain (pcmdMsg name rowKey column info) := by
  refine plain_mk (by decide) (Everywhere.modifyChild (everywhere_updateHead name) (by decide) fun body hbody => ?_)
  refine Everywhere.putField (hbody.modifyChild (by decide) fun row hrow => ?_) (by decide) _
  exact everywhere_foldl_putChildCopy [{ info with name := ascii ".meta." ++ column }] (hrow.putField (by decide) rowKey)
    (List.forall_mem_singleton.2 h)

theorem TableEvent.Of.plain {name : Bytes} {e : TableEvent} (h : e.Of name .plain) {m : TxMessage} (hm : m ∈ e.serialise) :
    Plain m := by
  cases e with
  | newRow n k => cases hm
  | newColumn n c => cases hm
  | rowMultiUpdate n k fields => exact List.mem_singleton.1 hm ▸ plain_updateMsg n k h.2
  | tableCleared n =>
    rw [List.mem_singleton.1 hm]
    exact plain_mk (by decide) (everywhere_putFieldQ n Id.qnTablename
      (everywhere_putFieldQ _ Id.qnMsgtype everywhere_carried_nil (by decide)) (by decide))
  | rowRemoved n k =>
    rw [List.mem_singleton.1 hm]
    exact plain_mk (by decide) (everywhere_putFieldQ [] [Id.head, Id.rowKey] (everywhere_putFieldQ n Id.qnTablename
      (everywhere_putFieldQ _ Id.qnMsgtype everywhere_carried_nil (by decide)) (by decide)) (by decide))
  | pcmd n k column info => exact List.mem_singleton.1 hm ▸ plain_pcmdMsg n k h.2

theorem plain_descrMsg {name : Bytes} {t : DataTable} (h : t.Of name .plain) : Plain t.descrMsg := by
  have hcolumns : ∀ (cols : List Bytes) {is : List TxItem}, Everywhere Carried is →
      Everywhere Carried (cols.foldl (fun columns c => addDescrColumn t.columnAttrs[c]? columns c) is) := by
    intro cols
    induction cols with
    | nil => exact fun h => h
    | cons c cols ih =>
      intro is his
      refine ih (Everywhere.putField (his.modifyChild (plainName_numbered (by decide) (by decide) _) fun col hcol => ?_)
        (by decide) _)
      refine everywhere_foldl_putChildCopy _ (hcol.putField (by decide) c) fun a ha => ?_
      cases hattrs : t.columnAttrs[c]? with
      | none => rw [hattrs] at ha; cases ha
      | some l => rw [hattrs] at ha; exact h.attrs c l hattrs a ha
  have hroot := everywhere_putFieldQ t.tableName Id.qnTablename
    (everywhere_putFieldQ Id.tabledescr Id.qnMsgtype everywhere_carried_nil (by decide)) (by decide)
  refine plain_mk (by decide) (Everywhere.modifyChild hroot (by decide) fun body hbody => ?_)
  exact Everywhere.modifyChild hbody (by decide) fun columns hcols => hcolumns _ (hcols.putField (by decide) _)

theorem everywhere_snapshotBatch {name : Bytes} {t : DataTable} (h : t.Of name .plain) {rows : List DataRow}
    (hrows : ∀ row ∈ rows, row ∈ t.rows) : Everywhere Carried (t.snapshotBatch rows).root := by
  have hrow : ∀ row ∈ t.rows, ∀ body, Everywhere Carried body → Everywhere Carried (addSnapshotRow t.pcmd body row) := by
    intro row hmem body hbody
    refine Everywhere.putField (hbody.modifyChild (plainName_numbered (by decide) (by decide) _) fun is his => ?_)
      (by decide) _
    exact everywhere_foldl_putChildCopy _ (everywhere_putFields his (h.rows row hmem).2) (h.carried_pcmd row.rowkey)
  have hloop : ∀ (rows : List DataRow), (∀ row ∈ rows, row ∈ t.rows) → ∀ {root : List TxItem}, Everywhere Carried root →
      Everywhere Carried (rows.foldl (fun root row => modifyChild root Id.body fun body =>
        addSnapshotRow t.pcmd body row) root) := by
    intro rows
    induction rows with
    | nil => exact fun _ _ h => h
    | cons row rows ih =>
      intro hrows root hroot
      obtain ⟨hmem, hrest⟩ := List.forall_mem_cons.1 hrows
      exact ih hrest (Everywhere.modifyChild hroot (by decide) (hrow row hmem))
  have hempty := everywhere_putFieldQ [] Id.qnTablename everywhere_carried_nil (by decide)
  exact hloop rows hrows (everywhere_putFieldQ _ _ (everywhere_putFieldQ _ _ (everywhere_putFieldQ _ _ hempty (by decide))
    (by decide)) (by decide))

/-- **A table whose names are plain sends messages that the wire carries.** -/
theorem Emitted.plain {name : Bytes} {m : TxMessage} (h : Emitted name .plain m) : Plain m := by
  cases h with
  | event he hm => exact he.plain hm
  | descr ht => exact plain_descrMsg ht
  | @snapshot t msgs batchsize _ ht hs hm =>
    obtain ⟨snapi, snapn, rows, rfl, hrows⟩ := exists_numbered hs hm
    have hroot : (t.numbered snapi snapn rows).root =
        putFieldQ snapn Id.qnHeadSnapn (putFieldQ snapi Id.qnHeadSnapi (t.snapshotBatch rows).root) := by
      rw [snapshotBatch_root]
      rfl
    refine plain_mk (by decide) ?_
    rw [show [_, _] = _ from hroot]
    exact everywhere_putFieldQ _ _ (everywhere_putFieldQ _ _ (everywhere_snapshotBatch ht hrows) (by decide)) (by decide)

/-! ## The two processes -/

/-- The monitor, the messages to one session that a `send_one` has still to enqueue, and the session's connection. -/
structure Remote where
  monitor : Monitor
  outbox  : List TxMessage
  wire    : Wire

inductive RemoteAct where
  | monitor (a : MonitorAct)
  /-- The thread in `send_one` enqueues the next message. -/
  | send (addr : Nat)
  /-- The reactors, the workers, and messages that are not of a table. -/
  | wire (a : WireAct)

/-- The steps that wait for `m_sessions.lock`; the questions for a session would find the same before the `send_one`. -/
def MonitorAct.locksSessions : MonitorAct → Bool
  | .publish _ .sendOne | .sessions .. => true
  | _                                  => false

/-- **One step of one thread** of the two processes. -/
def remoteStep (sid : Nat) (ioHandle : Bool) (beyond : UInt8) (s : Remote) : RemoteAct → Option Remote
  | .monitor a =>
    if a.locksSessions && !s.outbox.isEmpty then none
    else (monitorStep s.monitor a).map fun m =>
      { s with monitor := m, outbox := s.outbox ++ (m.sent sid).drop (s.monitor.sent sid).length }
  | .send addr =>
    match s.outbox with
    | []       => none
    | m :: out => (wireStep ioHandle beyond s.wire (.enqueueToSend addr m)).map fun w => { s with outbox := out, wire := w }
  | .wire a    => (wireStep ioHandle beyond s.wire a).map fun w => { s with wire := w }

/-- What the calls are given has plain names. -/
def Named (_ : Monitor) (a : MonitorAct) : Prop := a.Of .plain

/-- The session keeps its tables, the names are plain, and the queue takes the messages of the tables. -/
def RemoteKeeps (sid : Nat) (ioHandle : Bool) (beyond : UInt8) (s : Remote) : RemoteAct → Prop
  | .monitor a                 => Keeps sid s.monitor a ∧ a.Of .plain
  | .send addr                 => ∀ m ∈ s.outbox.head?, ∀ w ∈ wireStep ioHandle beyond s.wire (.enqueueToSend addr m),
    w.messages = s.wire.messages ++ [m]
  | .wire (.enqueueToSend _ m) => messageTable m = none ∧ Plain m
  | .wire a                    => s.wire.Fits a

/-! ### One step of each kind -/

/-- **What a session was sent stays sent.** -/
theorem monitorStep_sent {π : Naming} {s t : Monitor} (h : s.Of π) {a : MonitorAct} (hs : monitorStep s a = some t) (sid : Nat) :
    s.sent sid <+: t.sent sid := by
  have hput : ∀ {n : Bytes} {b : PublisherAct} {p : TablePublisher}, publisherStep (s.publisher n) b = some p →
      s.sent sid <+: p.sent sid := fun hp => by
    obtain ⟨new, -, hsent, -⟩ := h.sends hp
    rw [hsent]
    exact List.prefix_append _ _
  cases monitorStep_cases hs with
  | found _ hp => exact hput hp
  | addSubscriber _ _ hp => exact hput hp
  | apply _ _ _ hp => exact hput hp
  | next _ _ _ hp => exact hput hp
  | publish hp => exact hput hp
  | _ => exact List.prefix_refl _

/-! ### What holds in every run -/

/-- **Where the messages of each table are**: with the queue, or on their way to it. -/
structure Remote.Inv (sid : Nat) (base : List TxMessage) (s : Remote) : Prop where
  monitor : s.monitor.Of .plain
  wire    : s.wire.Inv
  plain   : ∀ m ∈ s.wire.messages, Plain m
  outbox  : ∀ m ∈ s.outbox, Plain m
  split   : ∀ name, ofTable name (s.monitor.sent sid) =
    ofTable name base ++ (ofTable name s.wire.messages ++ ofTable name s.outbox)

section

variable {sid : Nat} {ioHandle : Bool} {beyond : UInt8} {base : List TxMessage} {s t : Remote}

theorem Remote.Inv.start {m : Monitor} (h : m.Of .plain) : Remote.Inv sid (m.sent sid) ⟨m, [], .new⟩ where
  monitor := h
  wire    := Wire.new_inv
  plain   := fun m hm => by cases hm
  outbox  := fun m hm => by cases hm
  split   := fun name => (List.append_nil _).symm

theorem remoteStep_monitor {a : MonitorAct} (hs : remoteStep sid ioHandle beyond s (.monitor a) = some t) :
    ∃ m, Exio.monitorStep s.monitor a = some m ∧
      { s with monitor := m, outbox := s.outbox ++ (m.sent sid).drop (s.monitor.sent sid).length } = t := by
  simp only [remoteStep] at hs
  split at hs
  · cases hs
  · exact Option.map_eq_some_iff.1 hs

theorem Remote.Inv.monitorStep (h : s.Inv sid base) {a : MonitorAct} (ha : a.Of .plain)
    (hs : remoteStep sid ioHandle beyond s (.monitor a) = some t) : t.Inv sid base := by
  obtain ⟨m, hm, rfl⟩ := remoteStep_monitor hs
  have hof := monitorStep_of h.monitor ha hm
  have hsent : m.sent sid = s.monitor.sent sid ++ (m.sent sid).drop (s.monitor.sent sid).length :=
    List.prefix_iff_eq_append.1 (monitorStep_sent h.monitor hm sid) ▸ by simp
  refine ⟨hof, h.wire, h.plain, fun x hx => ?_, fun name => ?_⟩
  · rcases List.mem_append.1 hx with hx | hx
    · exact h.outbox x hx
    · obtain ⟨name, hemit⟩ := hof.sent sid x (List.mem_of_mem_drop hx)
      exact hemit.plain
  · simp only
    conv_lhs => rw [hsent]
    rw [ofTable_append, ofTable_append, h.split name]
    simp only [List.append_assoc]

theorem Remote.Inv.send (h : s.Inv sid base) {addr : Nat} (hk : RemoteKeeps sid ioHandle beyond s (.send addr))
    (hs : remoteStep sid ioHandle beyond s (.send addr) = some t) : t.Inv sid base := by
  simp only [remoteStep] at hs
  split at hs
  · cases hs
  · rename_i m out hout
    obtain ⟨w, hw, rfl⟩ := Option.map_eq_some_iff.1 hs
    have htakes : w.messages = s.wire.messages ++ [m] := hk m (by rw [hout]; rfl) w hw
    obtain ⟨hm, hrest⟩ := List.forall_mem_cons.1 (hout ▸ h.outbox)
    refine ⟨h.monitor, wireStep_inv h.wire (a := .enqueueToSend addr m) trivial hw, fun x hx => ?_, hrest, fun name => ?_⟩
    · rw [htakes] at hx
      rcases List.mem_append.1 hx with hx | hx
      · exact h.plain x hx
      · exact List.mem_singleton.1 hx ▸ hm
    · simp only [htakes]
      rw [h.split name, hout, ← List.singleton_append, ofTable_append, ofTable_append, List.append_assoc]

theorem Remote.Inv.wireStep (h : s.Inv sid base) {a : WireAct} (hk : RemoteKeeps sid ioHandle beyond s (.wire a))
    (hs : remoteStep sid ioHandle beyond s (.wire a) = some t) : t.Inv sid base := by
  obtain ⟨w, hw, rfl⟩ := Option.map_eq_some_iff.1 hs
  have hfits : s.wire.Fits a := by
    cases a with
    | doWork => exact hk
    | _ => trivial
  have hinv := wireStep_inv h.wire hfits hw
  rcases wireStep_messages hw with heq | ⟨addr, m, rfl, heq⟩
  · exact ⟨h.monitor, hinv, by rw [heq]; exact h.plain, h.outbox, by simp only [heq]; exact h.split⟩
  · obtain ⟨hnone, hplain⟩ : messageTable m = none ∧ Plain m := hk
    refine ⟨h.monitor, hinv, fun x hx => ?_, h.outbox, fun name => ?_⟩
    · rw [heq] at hx
      rcases List.mem_append.1 hx with hx | hx
      · exact h.plain x hx
      · exact List.mem_singleton.1 hx ▸ hplain
    · have hother : ofTable name [m] = [] := List.filter_eq_nil_iff.2 fun x hx => by
        rw [List.mem_singleton.1 hx, hnone]
        simp
      simp only [heq, ofTable_append, hother, List.append_nil]
      exact h.split name

theorem remoteStep_inv (h : s.Inv sid base) {a : RemoteAct} (hk : RemoteKeeps sid ioHandle beyond s a)
    (hs : remoteStep sid ioHandle beyond s a = some t) : t.Inv sid base := by
  cases a with
  | monitor a => exact h.monitorStep hk.2 hs
  | send addr => exact h.send hk hs
  | wire a => exact h.wireStep hk hs

/-- The monitor's part of a run. -/
theorem Remote.monitor_reaches (h : Steps.Reaches (remoteStep sid ioHandle beyond) (RemoteKeeps sid ioHandle beyond) s t) :
    Steps.Reaches Exio.monitorStep (Keeps sid) s.monitor t.monitor := by
  refine h.simulate (f := Remote.monitor) (I := fun _ => True) trivial (fun _ _ _ => trivial) fun {s t a} _ hk hs => ?_
  cases a with
  | monitor a =>
    obtain ⟨m, hm, rfl⟩ := remoteStep_monitor hs
    exact .inr ⟨a, hk.1, hm⟩
  | send addr =>
    simp only [remoteStep] at hs
    split at hs
    · cases hs
    · obtain ⟨w, -, rfl⟩ := Option.map_eq_some_iff.1 hs
      exact .inl rfl
  | wire a =>
    obtain ⟨w, -, rfl⟩ := Option.map_eq_some_iff.1 hs
    exact .inl rfl

end

/-- **The other process has the tables.**  A session is there at any point of any run, with nothing still to be sent to its
slot, and at any later point its turn through the tables begins; meanwhile and from then on the session keeps its tables, the
names are plain, and the queue takes the messages of the tables, however they are interleaved with each other, with other
messages to the session, and with the work of the reactors and the workers of both processes.  Then what the other process was
given of a table is a prefix of what the table sent; and when the table's turn is over and its messages were sent, enqueued,
written, read and copied, an empty copy that reads them has, in every column but `RowKey`, the value the table has, or none. -/
theorem remote_tables {sid : Nat} {ioHandle : Bool} {beyond : UInt8} {s₀ : Monitor} {s₁ s₂ s₃ : Remote}
    (hrun : Steps.Reaches monitorStep Named .new s₀) (hsid : sid < sessionRegSize)
    (hconn : Steps.Reaches (remoteStep sid ioHandle beyond) (RemoteKeeps sid ioHandle beyond) ⟨s₀, [], .new⟩ s₁)
    (hstart : remoteStep sid ioHandle beyond s₁ (.monitor (.start (.subscribeAll sid))) = some s₂)
    (hrest : Steps.Reaches (remoteStep sid ioHandle beyond) (RemoteKeeps sid ioHandle beyond) s₂ s₃) (name : Bytes)
    (hquiet : (s₀.publishing name).promised sid = []) :
    ∃ stream, tagged name s₃.monitor.sent sid = tagged name s₀.sent sid ++ stream ∧
      ofTable name (delivered s₃.wire.events) <+: stream ∧
      ((∀ todo, s₃.monitor.pc = .each (.subscribeAll sid) todo → name ∉ todo) →
        (s₃.monitor.publishing name).promised sid = [] → ofTable name s₃.outbox = [] →
        s₃.wire.arrived = (accepted s₃.wire.out.calls).length → s₃.wire.input.datafifo = [] →
        ∀ rowkey column, column ≠ Id.rowKey → (ofTable name (delivered s₃.wire.events)).foldl receive .empty rowkey column =
          (s₃.monitor.table name).copyField rowkey column) := by
  have hof : s₀.Of .plain := hrun.invariant (Monitor.new_of .plain) fun h ha hs => monitorStep_of h ha hs
  have h₁ : s₁.Inv sid (s₀.sent sid) := hconn.invariant (Remote.Inv.start hof) fun h hk hs => remoteStep_inv h hk hs
  have h₂ : s₂.Inv sid (s₀.sent sid) := h₁.monitorStep (a := .start (.subscribeAll sid)) trivial hstart
  have h₃ : s₃.Inv sid (s₀.sent sid) := hrest.invariant h₂ fun h hk hs => remoteStep_inv h hk hs
  obtain ⟨hpre, -, hall⟩ := h₃.wire.delivers h₃.plain
  refine ⟨_, h₃.split name, (hpre.filter _).trans (List.prefix_append _ _), fun hdone hsettled houtbox harrived hfifo => ?_⟩
  -- all that the table has sent was given to the other process
  have hdelivered : ofTable name (s₃.monitor.sent sid) = ofTable name (s₀.sent sid) ++ ofTable name (delivered s₃.wire.events) := by
    rw [h₃.split name, houtbox, List.append_nil, hall harrived hfifo]
  have hmstart : Exio.monitorStep s₁.monitor (.start (.subscribeAll sid)) = some s₂.monitor := by
    obtain ⟨m, hm, rfl⟩ := remoteStep_monitor hstart
    exact hm
  have hconv := monitor_converged (hrun.weaken fun _ _ _ => trivial) hsid (Remote.monitor_reaches hconn) hmstart
    (Remote.monitor_reaches hrest) name hquiet hdone
  have hsent₃ : (s₃.monitor.settled name).sent sid = tagged name s₃.monitor.sent sid :=
    (congrArg (tagged name s₃.monitor.sent sid ++ ·) hsettled).trans (List.append_nil _)
  obtain ⟨stream, hsent, hcells⟩ := hconv.stream
  rw [hsent₃] at hsent
  obtain rfl : stream = ofTable name (delivered s₃.wire.events) :=
    List.append_cancel_left (hsent.symm.trans hdelivered)
  intro rowkey column hc
  rw [hcells]
  exact (hconv.inv.copyField_eq rowkey column hc).symm

/-! ### A run -/

instance (fields : Fields) (P : Bytes → Prop) [DecidablePred P] : Decidable (∀ c ∈ fields, P c) :=
  decidable_of_iff (∀ f ∈ fields.toList, P f.1)
    ⟨fun h c hc => by
      obtain ⟨v, hv⟩ := Option.isSome_iff_exists.1 (Std.TreeMap.mem_iff_isSome_getElem?.1 hc)
      exact h (c, v) (Std.TreeMap.mem_toList_iff_getElem?_eq_some.2 hv),
    fun h f hf => h f.1 (Std.TreeMap.mem_iff_isSome_getElem?.2
      (by rw [Std.TreeMap.mem_toList_iff_getElem?_eq_some.1 hf]; rfl))⟩

instance (a : MonitorAct) : Decidable (a.Of .plain) :=
  match a with
  | .call _ (.updateTable _ _ fields) => inferInstanceAs (Decidable (∀ c ∈ fields, reserved c = false → PlainName c))
  | .call _ (.addColumns _ cols) => inferInstanceAs (Decidable (∀ c ∈ cols, reserved c = false → PlainName c))
  | .call _ (.updateMeta _ column info) =>
    inferInstanceAs (Decidable (PlainName (ascii ".meta." ++ column) ∧ Everywhere Carried info.items))
  | .call _ (.tableColumnAttr _ attr) => inferInstanceAs (Decidable (PlainName attr.name ∧ Everywhere Carried attr.items))
  | .call _ .clearTable | .call _ (.deleteRow _) => isTrue trivial
  | .addSubscriber | .registerTable | .apply | .start _ | .broadcast _ | .next | .finish | .publish .. | .sessions .. =>
    isTrue trivial

instance (s : Monitor) (a : MonitorAct) : Decidable (Named s a) := inferInstanceAs (Decidable (a.Of .plain))

instance (m : TxMessage) : Decidable (Plain m) := inferInstanceAs (Decidable (_ ∧ _ ∧ _))

instance (sid : Nat) (ioHandle : Bool) (beyond : UInt8) (s : Remote) (a : RemoteAct) :
    Decidable (RemoteKeeps sid ioHandle beyond s a) :=
  match a with
  | .monitor a => inferInstanceAs (Decidable (Keeps sid s.monitor a ∧ a.Of .plain))
  | .send addr => inferInstanceAs (Decidable (∀ m ∈ s.outbox.head?,
    ∀ w ∈ wireStep ioHandle beyond s.wire (.enqueueToSend addr m), w.messages = s.wire.messages ++ [m]))
  | .wire (.enqueueToSend _ m) => inferInstanceAs (Decidable (messageTable m = none ∧ Plain m))
  | .wire .doWork => inferInstanceAs (Decidable (s.wire.Fits .doWork))
  | .wire (.close _) | .wire .processClose | .wire (.handleOutput _) | .wire (.handleInput _) | .wire .handleClose =>
    isTrue trivial

/-- Session 1 logs on when the table `t` is there; its description is sent and read in two pieces, a heartbeat comes between
it and the snapshot. -/
def sampleRemote : List RemoteAct :=
  [.monitor .next, .monitor (.publish (ascii "t") .sendOne), .send 8, .wire (.enqueueToSend 24 ⟨ascii "heartbeat", []⟩),
    .monitor (.publish (ascii "t") .sendOne), .send 16, .monitor (.publish (ascii "t") .release), .monitor .finish,
    .wire (.handleOutput .next), .wire (.handleOutput (.send 100)), .wire (.handleOutput .account), .wire (.handleInput 60),
    .wire .doWork, .wire (.handleOutput .next), .wire (.handleOutput (.send 16)), .wire (.handleOutput .account),
    .wire (.handleOutput .next), .wire (.handleOutput (.send 26)), .wire (.handleOutput .account),
    .wire (.handleOutput .next), .wire (.handleOutput (.send 141)), .wire (.handleOutput .account),
    .wire (.handleInput 223), .wire .doWork]

theorem remote_tables_sample : ∃ s₀ s₂ s₃, Steps.runIf monitorStep Named .new sampleBefore = some s₀ ∧
    remoteStep 1 true 0 ⟨s₀, [], .new⟩ (.monitor (.start (.subscribeAll 1))) = some s₂ ∧
    Steps.runIf (remoteStep 1 true 0) (RemoteKeeps 1 true 0) s₂ sampleRemote = some s₃ ∧
    (s₃.monitor.table (ascii "t")).copyField (ascii "a") (ascii "x") = some (ascii "1") ∧
    ∀ rowkey column, column ≠ Id.rowKey →
      (ofTable (ascii "t") (delivered s₃.wire.events)).foldl receive .empty rowkey column =
        (s₃.monitor.table (ascii "t")).copyField rowkey column := by
  have hrun : (Steps.runIf monitorStep Named .new sampleBefore).bind (fun s₀ =>
      (remoteStep 1 true 0 ⟨s₀, [], .new⟩ (.monitor (.start (.subscribeAll 1)))).bind fun s₂ =>
        (Steps.runIf (remoteStep 1 true 0) (RemoteKeeps 1 true 0) s₂ sampleRemote).map fun s₃ =>
          decide ((s₃.monitor.table (ascii "t")).copyField (ascii "a") (ascii "x") = some (ascii "1") ∧
            s₃.monitor.pc.isFree = true ∧ (s₀.publishing (ascii "t")).promised 1 = [] ∧
            (s₃.monitor.publishing (ascii "t")).promised 1 = [] ∧ s₃.outbox = [] ∧
            s₃.wire.arrived = (accepted s₃.wire.out.calls).length ∧ s₃.wire.input.datafifo = [])) = some true := by
    decide +kernel
  obtain ⟨s₀, h₀, hrun⟩ := Option.bind_eq_some_iff.1 hrun
  obtain ⟨s₂, h₂, hrun⟩ := Option.bind_eq_some_iff.1 hrun
  obtain ⟨s₃, h₃, hrun⟩ := Option.map_eq_some_iff.1 hrun
  obtain ⟨hcell, hfree, hquiet, hsettled, houtbox, harrived, hfifo⟩ := of_decide_eq_true hrun
  refine ⟨s₀, s₂, s₃, h₀, h₂, h₃, hcell, ?_⟩
  obtain ⟨-, -, -, hall⟩ := remote_tables (Steps.reaches_of_runIf _ h₀) (by decide) .refl h₂ (Steps.reaches_of_runIf _ h₃)
    (ascii "t") hquiet
  refine hall (fun todo hpc => ?_) hsettled (by rw [houtbox]; rfl) harrived hfifo
  rw [hpc] at hfree
  cases hfree

end Exio
