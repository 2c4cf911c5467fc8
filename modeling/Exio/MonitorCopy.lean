import Exio.Monitor
/-!
# MonitorCopy — a session's copy of all tables

A session that logs on is subscribed to the tables one after another (`Monitor::subscribe_all`), while other threads go on
updating them; a table that is made later subscribes it before anything is written there.  For each table the session is
first *waiting*, then its copy is *live*; a table that is still to be made is *coming*, and its copy is the empty table.
A waiting session may be on the table already, for a table that was made since it connected: what it hears of it then is
part of the table (`Behind`), and the snapshot of its turn completes it.

What a session has heard is here what it was sent together with what the threads inside the tables have still to send it, so
that an operation takes effect at once (`TablePublisher.settled`).  Every step keeps each table in one of the three
(`CopyOf.step`), and so **the session has a copy of every table**, whatever tables there are by then (`monitor_copy`).
-/
namespace Exio

open Sam Replica

/-! ## A copy that was begun late -/

def TableOp.adds (sid : Nat) : TableOp → Bool
  | .addSubscriber sid' => sid' == sid
  | _                   => false

def TableOp.drops (sid : Nat) : TableOp → Bool
  | .delSubscriber sid' => sid' == sid
  | _                   => false

/-- The session has heard nothing since `base`, or it is on the table and what it has heard is so. -/
structure Behind (sid : Nat) (base : List TxMessage) (s : TableServer) : Prop where
  inv    : s.table.Inv
  stream : ∃ stream, s.sent sid = base ++ stream ∧ (stream.foldl receive .empty).Below s.table.cells ∧
    (sid ∉ s.table.subscribers → stream = [])

section

variable {sid : Nat} {base : List TxMessage} {s : TableServer}

theorem Behind.start (h : s.table.Inv) : Behind sid (s.sent sid) s :=
  ⟨h, [], (List.append_nil _).symm, Cells.Below.empty _, fun _ => rfl⟩

theorem Behind.commit (h : Behind sid base s) (hu : s.used sid = true) (ho : s.isOpen sid = true)
    {r : DataTable × List TableEvent} (hr : Tracked s.table r) : Behind sid base (s.commit r) := by
  obtain ⟨stream, hsent, hbelow, hnone⟩ := h.stream
  have htable := s.commit_table r
  have hsent' := TableServer.commit_sent hu ho r
  refine ⟨htable ▸ hr.inv, ?_⟩
  by_cases hmem : sid ∈ s.table.subscribers
  · -- the events are done to the copy as they are to the table
    have hidem : ∀ m ∈ r.2.flatMap TableEvent.serialise, ∀ c, receive (receive c m) m = receive c m := by
      intro m hm c
      obtain ⟨e, he, hme⟩ := List.mem_flatMap.1 hm
      exact receive_idem c (hr.free e he) hme
    have hcount : 0 < r.1.subscribers.count sid := List.count_pos_iff.2 (hr.subs ▸ hmem)
    refine ⟨_, hsent'.trans (by rw [hsent, List.append_assoc]), ?_, fun hnot => ?_⟩
    · rw [htable, hr.cells, List.foldl_append, foldl_replicate_idem hcount _ hidem, foldl_receive_events _ _ hr.free]
      exact hbelow.foldl_apply _
    · rw [htable, hr.subs] at hnot
      exact absurd hmem hnot
  · obtain rfl := hnone hmem
    rw [hr.subs, List.count_eq_zero_of_not_mem hmem] at hsent'
    refine ⟨[], ?_, Cells.Below.empty _, fun _ => rfl⟩
    rw [hsent', hsent]
    simp

/-- A snapshot for a session of the table. -/
theorem Behind.sendSnapshot (h : Behind sid base s) (hu : s.used sid = true) (ho : s.isOpen sid = true) {sid' : Nat}
    (hmem : sid' = sid → sid ∈ s.table.subscribers) : Behind sid base (s.sendSnapshot sid').1 := by
  have hinv := h.inv.sameData (s.sendSnapshot_sameData sid')
  obtain ⟨stream, hsent, hbelow, hnone⟩ := h.stream
  unfold TableServer.sendSnapshot at hinv ⊢
  split
  · exact h
  · rename_i msgs batchsize hs
    rw [hs] at hinv
    have hframe := (s.sendOne_frame sid' msgs).1
    have hsent' := TableServer.sendOne_sent hu ho sid' msgs
    have hcells : ({ (s.sendOne sid' msgs).table with batchsize := batchsize } : DataTable).cells = s.table.cells := by
      rw [hframe]
      rfl
    refine ⟨hinv, ?_⟩
    simp only [hcells]
    split at hsent'
    · rename_i heq
      refine ⟨stream ++ msgs, hsent'.trans (by rw [hsent, List.append_assoc]), ?_, fun hnot => ?_⟩
      · rw [List.foldl_append, receive_snapshot h.inv hs, hbelow.over_eq]
        exact Cells.Below.refl _
      · rw [hframe] at hnot
        exact absurd (hmem heq) hnot
    · exact ⟨stream, hsent'.trans hsent, hbelow, fun hnot => hnone (by rwa [hframe] at hnot)⟩

theorem Behind.snapshotEach (sids : List Nat) (h : Behind sid base s) (hu : s.used sid = true) (ho : s.isOpen sid = true)
    (hmem : ∀ sid' ∈ sids, sid' ∈ s.table.subscribers) : Behind sid base (s.snapshotEach sids).1 := by
  refine (TableServer.snapshotEach_keeps (P := fun u => Behind sid base u ∧ u.used sid = true ∧ u.isOpen sid = true ∧
    u.table.subscribers = s.table.subscribers) sids ?_ ⟨h, hu, ho, rfl⟩).1
  rintro u sid' hsid' ⟨hbehind, hused, hopen, hsubs⟩
  obtain ⟨hsubs', hused', hopen'⟩ := u.sendSnapshot_frame sid'
  exact ⟨hbehind.sendSnapshot hused hopen fun heq => hsubs.symm ▸ heq ▸ hmem sid' hsid', hused' ▸ hused, hopen' ▸ hopen,
    hsubs'.trans hsubs⟩

/-- Another session is added. -/
theorem Behind.addSubscriber (h : Behind sid base s) (hu : s.used sid = true) (ho : s.isOpen sid = true) {sid' : Nat}
    (hne : sid' ≠ sid) : Behind sid base (s.addSubscriber sid').1 := by
  obtain ⟨stream, hsent, hbelow, hnone⟩ := h.stream
  obtain ⟨htable, hused, hopen⟩ := TableServer.sendOne_frame { s with table := s.table.subscribe sid' } sid'
    [(s.table.subscribe sid').descrMsg]
  have hsent' := TableServer.sendOne_sent (s := { s with table := s.table.subscribe sid' }) hu ho sid'
    [(s.table.subscribe sid').descrMsg]
  rw [if_neg hne] at hsent'
  refine Behind.sendSnapshot ⟨?_, stream, hsent'.trans hsent, ?_, fun hnot => hnone fun hmem => hnot ?_⟩
    ((congrFun hused sid).trans hu) ((congrFun hopen sid).trans ho) fun heq => absurd heq hne
  · rw [htable]
    exact ⟨h.inv.rows, h.inv.columns, h.inv.keyed⟩
  · rw [htable]
    exact hbelow
  · rw [htable]
    exact List.mem_append_left _ hmem

/-- **One operation**: what an open session has heard of the table stays so. -/
theorem Behind.exec (h : Behind sid base s) (hu : s.used sid = true) (ho : s.isOpen sid = true) {op : TableOp}
    (hrows : op.keepsRows = true) (hadds : op.adds sid = false) (hdrops : op.drops sid = false) :
    Behind sid base (s.exec op).1 := by
  cases op with
  | updateRow clock rowkey fields => exact h.commit hu ho (updateRow_tracked h.inv clock rowkey fields)
  | addColumns clock cols => exact h.commit hu ho (addColumns_tracked h.inv clock cols)
  | updateMeta rowkey column info => exact h.commit hu ho (updateMeta_tracked h.inv rowkey column info)
  | addColumnAttr column attr => exact ⟨⟨h.inv.rows, h.inv.columns, h.inv.keyed⟩, h.stream⟩
  | clearTable => exact h.commit hu ho (clearTable_tracked h.inv)
  | deleteRow rowkey => cases hrows
  | snapshot => exact h.snapshotEach _ hu ho fun _ hmem => (List.mem_filter.1 hmem).1
  | addSubscriber sid' => exact h.addSubscriber hu ho (by simpa [TableOp.adds] using hadds)
  | delSubscriber sid' =>
    have hne : sid' ≠ sid := by simpa [TableOp.drops] using hdrops
    obtain ⟨stream, hsent, hbelow, hnone⟩ := h.stream
    exact ⟨⟨h.inv.rows, h.inv.columns, h.inv.keyed⟩, stream, hsent, hbelow,
      fun hnot => hnone fun hmem => hnot ((List.mem_erase_of_ne (Ne.symm hne)).2 hmem)⟩
  | sessions used isOpen => exact ⟨h.inv, h.stream⟩

/-- What the session has heard, the table's description and a snapshot. -/
theorem Hears.addSubscriber {r : TableCells} (h : Hears sid base r s) (hinv : s.table.Inv) (hfit : s.table.RowsFit) :
    Hears sid base (s.table.cells.over r) (s.addSubscriber sid).1 := by
  have hinv' : (s.table.subscribe sid).Inv := ⟨hinv.rows, hinv.columns, hinv.keyed⟩
  obtain ⟨out, hout⟩ := snapshotMsgs_isOk (t := s.table.subscribe sid) hfit
  have hdescr := (h.withTable (s.table.subscribe sid)).sendOne_self [(s.table.subscribe sid).descrMsg]
  have hsnap := hdescr.sendOne_self out.1
  rw [List.foldl_cons, List.foldl_nil, receive_descrMsg, receive_snapshot hinv' hout] at hsnap
  unfold TableServer.addSubscriber TableServer.sendSnapshot
  simp only [(TableServer.sendOne_frame _ _ _).1, hout]
  exact hsnap.withTable _

/-- **The session is added**: the snapshot completes what it has. -/
theorem Behind.converged (h : Behind sid base s) (hu : s.used sid = true) (ho : s.isOpen sid = true)
    (hfit : s.table.RowsFit) : Converged sid base (s.addSubscriber sid).1 := by
  obtain ⟨stream, hsent, hbelow, -⟩ := h.stream
  have hsame := s.addSubscriber_sameData sid
  have hears : Hears sid base _ s := ⟨hu, ho, stream, hsent, rfl⟩
  have hcopy := (hears.addSubscriber h.inv hfit).stream
  rw [hbelow.over_eq] at hcopy
  have hcells : (s.addSubscriber sid).1.table.cells = s.table.cells := by unfold DataTable.cells; rw [hsame.rows]
  exact ⟨h.inv.sameData hsame, hcells.symm ▸ hcopy⟩

/-- A copy that is the table is part of it. -/
theorem Converged.behind (h : Converged sid base s) (hmem : sid ∈ s.table.subscribers) : Behind sid base s := by
  obtain ⟨stream, hsent, hcells⟩ := h.stream
  exact ⟨h.inv, stream, hsent, hcells ▸ Cells.Below.refl _, fun hnot => absurd hmem hnot⟩

end

/-! ## One step of a table -/

theorem Behind.sameFor {sid : Nat} {base : List TxMessage} {s t : TableServer} (h : Behind sid base s) (hsame : SameFor sid s t) :
    Behind sid base t := by
  obtain ⟨stream, hsent, hbelow, hnone⟩ := h.stream
  rw [← hsame.table] at hbelow hnone
  exact ⟨hsame.table.symm ▸ h.inv, stream, hsame.sent.trans hsent, hbelow, hnone⟩

theorem Converged.sameFor {sid : Nat} {base : List TxMessage} {s t : TableServer} (h : Converged sid base s)
    (hsame : SameFor sid s t) : Converged sid base t := by
  obtain ⟨stream, hsent, hcells⟩ := h.stream
  exact ⟨hsame.table.symm ▸ h.inv, stream, hsame.sent.trans hsent, hsame.table.symm ▸ hcells⟩

/-- No row is deleted, the session is not taken from the table, and where it is added the rows fit. -/
def PublisherAct.Keeps (sid : Nat) (t : DataTable) : PublisherAct → Prop
  | .op o      => o.keepsRows = true ∧ o.drops sid = false ∧ (o.adds sid = true → t.RowsFit)
  | .publish _ => True

instance (sid : Nat) (t : DataTable) (b : PublisherAct) : Decidable (b.Keeps sid t) :=
  match b with
  | .op o      => inferInstanceAs (Decidable (o.keepsRows = true ∧ o.drops sid = false ∧ (o.adds sid = true → t.RowsFit)))
  | .publish _ => inferInstanceAs (Decidable True)

section

variable {sid : Nat} {base : List TxMessage} {s t : TablePublisher} {b : PublisherAct}

/-- A copy that is the table follows what does not change the table at once. -/
theorem Converged.settles (h : Converged sid base s.settled) (hu : s.used sid = true) (ho : s.isOpen sid = true)
    (hop : ∀ op, b = .op op → Converged sid base (s.settled.exec op).1) (hs : publisherStep s b = some t) :
    Converged sid base t.settled := by
  cases publisherStep_settles hu ho hs with
  | nothing hsame => exact h.sameFor hsame
  | exec hsame => exact (hop _ rfl).sameFor hsame
  | @snapshots copied _ hcopy hsame => exact (h.snapshotEach copied (s := s.settled) hu ho).sameFor hsame

theorem Converged.step (h : Converged sid base s.settled) (hsub : sid ∈ s.table.subscribers) (hu : s.used sid = true)
    (ho : s.isOpen sid = true) (hb : b.Keeps sid s.table) (hs : publisherStep s b = some t) : Converged sid base t.settled :=
  h.settles hu ho (by rintro op rfl; exact h.exec ⟨hsub, hu, ho, hb.1⟩) hs

/-- **The session's turn**: its copy is the table from the moment the lock is taken. -/
theorem Behind.turn (h : Behind sid base s.settled) (hu : s.used sid = true) (ho : s.isOpen sid = true) (hfit : s.table.RowsFit)
    (hs : publisherStep s (.op (.addSubscriber sid)) = some t) : Converged sid base t.settled := by
  cases publisherStep_cases hs with
  | change _ hr => cases hr
  | addSubscriber hidle => exact (h.converged hu ho hfit).sameFor (settles_addSubscriber hu ho hidle sid)

theorem Behind.publisherStep (h : Behind sid base s.settled) (hinv : s.Inv) (hu : s.used sid = true) (ho : s.isOpen sid = true)
    (hb : b.Keeps sid s.table) (hs : publisherStep s b = some t) : Behind sid base t.settled := by
  cases publisherStep_settles hu ho hs with
  | nothing hsame => exact h.sameFor hsame
  | @exec op _ hsame =>
    obtain ⟨hrows, hdrops, hfit⟩ := hb
    refine Behind.sameFor ?_ hsame
    cases hadds : op.adds sid with
    | false => exact h.exec hu ho hrows hadds hdrops
    | true =>
      obtain rfl : op = .addSubscriber sid := by
        cases op with
        | addSubscriber sid' => rw [beq_iff_eq.1 (show (sid' == sid) = true from hadds)]
        | _ => cases hadds
      refine (h.converged hu ho (hfit hadds)).behind ?_
      exact (s.settled.addSubscriber_frame sid).1.symm ▸ List.mem_append_right _ (List.mem_singleton.2 rfl)
  | @snapshots copied _ hcopy hsame =>
    exact (h.snapshotEach copied hu ho fun x hx => hinv.copied copied [] hcopy x (List.mem_append_left _ hx)).sameFor hsame

/-- A session of the table stays on it. -/
theorem mem_subscribers_of_step (hinv : s.Inv) (hmem : sid ∈ s.table.subscribers) (hb : b.Keeps sid s.table)
    (hs : publisherStep s b = some t) : sid ∈ t.table.subscribers := by
  obtain ⟨hop, hpublish⟩ := publisherStep_subscribers hinv.table hs
  cases b with
  | publish p => exact hpublish p rfl ▸ hmem
  | op o =>
    rw [hop o rfl]
    cases o with
    | addSubscriber sid' => exact List.mem_append_left _ hmem
    | delSubscriber sid' =>
      have hne : sid' ≠ sid := by simpa [TableOp.drops] using hb.2.1
      exact (List.mem_erase_of_ne (Ne.symm hne)).2 hmem
    | _ => exact hmem

end

/-! ## The session's copy of one table -/

/-- The table of that name, with everything sent that is still to be sent. -/
def Monitor.settled (s : Monitor) (name : Bytes) : TableServer := (s.project name).settled

/-- The session stays open and is taken from no table, no row is deleted, and the rows fit where the session is added. -/
def Keeps (sid : Nat) (s : Monitor) (a : MonitorAct) : Prop :=
  s.used sid = true ∧ s.isOpen sid = true ∧ ∀ x ∈ s.target a, x.2.Keeps sid (s.table x.1)

instance (sid : Nat) (s : Monitor) (a : MonitorAct) : Decidable (Keeps sid s a) :=
  inferInstanceAs (Decidable (_ ∧ _ ∧ ∀ x ∈ s.target a, _))

/-- **Where the session's copy of a table stands**; `base` is what it had been sent of the table before. -/
inductive CopyOf (sid : Nat) (base : List TxMessage) (name : Bytes) (s : Monitor) : Prop
  | waiting {todo : List Bytes} (hpc : s.pc = .each (.subscribeAll sid) todo) (hmem : name ∈ todo)
    (hbehind : Behind sid base (s.settled name))
  | live (hconv : Converged sid base (s.settled name)) (hsub : sid ∈ (s.table name).subscribers)
  | coming (hconv : Converged sid base (s.settled name)) (hnew : s.tables[name]? = none)
    (hmaking : ∀ t todo c, s.pc = .create t todo c → t.tableName = name → sid ∈ t.subscribers ∨ sid ∈ todo)

/-- What holds of the tables in every run. -/
structure Monitor.Inv (s : Monitor) : Prop where
  names  : s.Of .any
  tables : ∀ name, (s.project name).Inv

theorem Monitor.new_inv : Monitor.new.Inv := ⟨Monitor.new_of .any, TablePublisher.new_inv⟩

section

variable {s t : Monitor} {sid : Nat} {base : List TxMessage} {name : Bytes} {a : MonitorAct}

/-- What a step is to a table, in two cases. -/
theorem monitorStep_actOn (hof : s.Of .any) (hs : monitorStep s a = some t) (name : Bytes) :
    (s.actOn name a = none ∧ t.project name = s.project name) ∨
    ∃ b, s.actOn name a = some b ∧ publisherStep (s.project name) b = some (t.project name) := by
  have hproj := monitorStep_project hof hs name
  cases hact : s.actOn name a with
  | none => exact .inl ⟨rfl, by rw [hact] at hproj; exact hproj⟩
  | some b => exact .inr ⟨b, rfl, by rw [hact] at hproj; exact hproj⟩

theorem monitorStep_inv (h : s.Inv) (hs : monitorStep s a = some t) : t.Inv := by
  refine ⟨monitorStep_of h.names a.of_any hs, fun name => ?_⟩
  rcases monitorStep_actOn h.names hs name with ⟨-, hproj⟩ | ⟨b, -, hstep⟩
  · exact hproj ▸ h.tables name
  · exact publisherStep_inv (h.tables name) hstep

/-- A step that is one to a table is a coming or going of sessions, or the table is its target. -/
theorem Monitor.of_actOn {b : PublisherAct} (h : s.actOn name a = some b) :
    (∃ used isOpen, b = .op (.sessions used isOpen)) ∨ (name, b) ∈ s.target a := by
  cases a with
  | sessions used isOpen =>
    cases h
    exact .inl ⟨used, isOpen, rfl⟩
  | _ =>
    simp only [Monitor.actOn, Option.bind_eq_some_iff, Option.ite_none_right_eq_some, Option.some.injEq] at h
    obtain ⟨x, hx, rfl, rfl⟩ := h
    exact .inr hx

theorem Keeps.actOn (h : Keeps sid s a) {b : PublisherAct} (hact : s.actOn name a = some b) : b.Keeps sid (s.table name) := by
  rcases Monitor.of_actOn hact with ⟨used, isOpen, rfl⟩ | hmem
  · exact ⟨rfl, rfl, fun hadds => by cases hadds⟩
  · exact h.2.2 _ hmem

theorem CopyOf.step_live (h : s.Inv) (hconv : Converged sid base (s.settled name)) (hsub : sid ∈ (s.table name).subscribers)
    (hkeeps : Keeps sid s a) (hs : monitorStep s a = some t) : CopyOf sid base name t := by
  rcases monitorStep_actOn h.names hs name with ⟨-, hproj⟩ | ⟨b, hact, hstep⟩
  · have htable : t.table name = s.table name := congrArg (fun p : TablePublisher => p.table) hproj
    exact .live (show Converged sid base (t.project name).settled by rw [hproj]; exact hconv) (htable ▸ hsub)
  · have hb := hkeeps.actOn hact
    exact .live (hconv.step (s := s.project name) hsub hkeeps.1 hkeeps.2.1 hb hstep)
      (mem_subscribers_of_step (h.tables name) hsub hb hstep)

/-- **One step**, before the session's turn through the tables and while it waits for it. -/
theorem Behind.step (h : s.Inv) (hbehind : Behind sid base (s.settled name)) (hkeeps : Keeps sid s a)
    (hs : monitorStep s a = some t) : Behind sid base (t.settled name) := by
  rcases monitorStep_actOn h.names hs name with ⟨-, hproj⟩ | ⟨b, hact, hstep⟩
  · show Behind sid base (t.project name).settled
    rw [hproj]
    exact hbehind
  · exact hbehind.publisherStep (s := s.project name) (h.tables name) hkeeps.1 hkeeps.2.1 (hkeeps.actOn hact) hstep

theorem CopyOf.step_waiting (h : s.Inv) {todo : List Bytes} (hpc : s.pc = .each (.subscribeAll sid) todo) (hmem : name ∈ todo)
    (hbehind : Behind sid base (s.settled name)) (hkeeps : Keeps sid s a) (hs : monitorStep s a = some t) :
    CopyOf sid base name t := by
  have hstay := hbehind.step h hkeeps hs
  have hproj := monitorStep_actOn h.names hs name
  cases monitorStep_cases hs with
  | found => exact .waiting (show s.pc = _ from hpc) hmem hstay
  | missing hnew => exact .waiting hpc hmem hbehind
  | unknown => exact .waiting hpc hmem hbehind
  | @next loop n todo' p hpc' hbusy hreg hp =>
    obtain ⟨rfl, rfl⟩ : loop = .subscribeAll sid ∧ n :: todo' = todo := by simpa [hpc'] using hpc
    by_cases heq : n = name
    · -- it is the table's turn
      subst heq
      have hact : s.actOn n .next = some (.op (.addSubscriber sid)) := by simp [Monitor.actOn, Monitor.target, hpc', MonitorLoop.op]
      obtain ⟨hrows, hdrops, hfit⟩ := hkeeps.actOn hact
      rcases hproj with ⟨hnone, -⟩ | ⟨b, hact', hstep⟩
      · rw [hact] at hnone
        cases hnone
      · cases hact.symm.trans hact'
        have hsubs := (publisherStep_subscribers (h.tables n).table hstep).1 _ rfl
        refine .live (hbehind.turn (s := s.project n) hkeeps.1 hkeeps.2.1 (hfit (by simp [TableOp.adds])) hstep) ?_
        exact hsubs.symm ▸ List.mem_append_right _ (List.mem_singleton.2 rfl)
    · exact .waiting rfl ((List.mem_cons.1 hmem).resolve_left (Ne.symm heq)) hstay
  | finish hpc' hbusy =>
    obtain ⟨-, rfl⟩ : _ ∧ [] = todo := by simpa [hpc'] using hpc
    cases hmem
  | @publish n b p hp =>
    refine .waiting ?_ hmem hstay
    -- only `broadcast_snapshot` fails inside an operation
    rcases publisherStep_publish hp with ⟨hcopy, -⟩ | ⟨-, -, hok⟩
    · obtain ⟨-, -, todo', hpc'⟩ := h.names.snapshotting n hcopy
      rw [hpc'] at hpc
      cases hpc
    · rw [hok]
      exact hpc
  | sessions => exact .waiting hpc hmem hstay
  | create hnew hfree hbusy => rw [hfree] at hpc; cases hpc
  | addSubscriber hpc' hbusy hp => rw [hpc'] at hpc; cases hpc
  | registerTable hpc' hbusy => rw [hpc'] at hpc; cases hpc
  | apply hpc' hbusy hreg hp => rw [hpc'] at hpc; cases hpc
  | start hfree hbusy => rw [hfree] at hpc; cases hpc
  | broadcast hfree hbusy => rw [hfree] at hpc; cases hpc

/-- Only sessions are added to a table that is not registered, and its copy stays the table. -/
theorem Converged.step_coming (h : s.Inv) (hconv : Converged sid base (s.settled name)) (hnew : s.tables[name]? = none)
    (hkeeps : Keeps sid s a) (hs : monitorStep s a = some t) : Converged sid base (t.settled name) := by
  rcases monitorStep_actOn h.names hs name with ⟨-, hproj⟩ | ⟨b, hact, hstep⟩
  · show Converged sid base (t.project name).settled
    rw [hproj]
    exact hconv
  · refine hconv.settles (s := s.project name) hkeeps.1 hkeeps.2.1 ?_ hstep
    rintro op rfl
    have hunregistered : ∀ {x : Bytes × PublisherAct}, s.tables[x.1]?.isSome = true → (name, .op op) = x → False := by
      rintro x hreg rfl
      rw [hnew] at hreg
      cases hreg
    rcases Monitor.of_actOn hact with ⟨used, isOpen, hop⟩ | htarget
    · cases hop
      exact ⟨hconv.inv, hconv.stream⟩
    · cases monitorStep_cases hs with
      | @found n c p busy hreg hp hbusy =>
        simp only [Monitor.target, hreg, if_true, Option.mem_some_iff] at htarget
        exact (hunregistered hreg htarget.symm).elim
      | @addSubscriber t' sid' todo c p hpc hbusy hp =>
        simp only [Monitor.target, hpc, Option.mem_some_iff, Prod.mk.injEq, PublisherAct.op.injEq] at htarget
        rw [← htarget.2]
        exact hconv.addSubscriber hkeeps.1 hkeeps.2.1 sid'
      | @apply n c p hpc hbusy hreg hp =>
        simp only [Monitor.target, hpc, Option.mem_some_iff] at htarget
        exact (hunregistered hreg htarget.symm).elim
      | @next loop n todo p hpc hbusy hreg hp =>
        simp only [Monitor.target, hpc, Option.mem_some_iff] at htarget
        exact (hunregistered hreg htarget.symm).elim
      | create hnew' => simp [Monitor.target, hnew'] at htarget
      | missing hnew' => simp [Monitor.target, hnew'] at htarget
      | publish hp => cases htarget
      | registerTable | start | broadcast | unknown | finish | sessions => cases htarget

theorem CopyOf.step_coming (hsid : sid < sessionRegSize) (h : s.Inv) (hconv : Converged sid base (s.settled name))
    (hnew : s.tables[name]? = none)
    (hmaking : ∀ t todo c, s.pc = .create t todo c → t.tableName = name → sid ∈ t.subscribers ∨ sid ∈ todo)
    (hkeeps : Keeps sid s a) (hs : monitorStep s a = some t) : CopyOf sid base name t := by
  have hstay := hconv.step_coming h hnew hkeeps hs
  cases monitorStep_cases hs with
  | found => exact .coming hstay (getElem?_modify_none hnew _ _) hmaking
  | @create n c hnew' hfree hbusy =>
    refine .coming hstay hnew fun t' todo c' hpc _ => .inr ?_
    cases hpc
    exact List.mem_filter.2 ⟨List.mem_range.2 hsid, hkeeps.1⟩
  | missing => exact .coming hstay hnew hmaking
  | unknown => exact .coming hstay hnew hmaking
  | @addSubscriber t' sid' todo c p hpc hbusy hp =>
    have hcreate := h.names.pc
    rw [hpc] at hcreate
    have htable := Monitor.table_create hpc
    have hname := (publisherStep_of (h.names.publisher t'.tableName) (a := .op (.addSubscriber sid')) trivial hp).table.tableName
    have hsubs : p.table.subscribers = t'.subscribers ++ [sid'] := by
      refine ((publisherStep_subscribers (s := s.publisher t'.tableName) (h.tables t'.tableName).table hp).1 _ rfl).trans ?_
      exact congrArg (fun u : DataTable => u.subscribers ++ [sid']) htable
    refine .coming hstay (getElem?_modify_none hnew _ _) fun t₁ todo₁ c₁ hpc₁ ht₁ => ?_
    rw [throws_addSubscriber ((congrArg DataTable.rows htable).trans hcreate.2.1)] at hpc₁
    cases hpc₁
    rw [hsubs]
    rcases hmaking t' _ c hpc (hname.symm.trans ht₁) with hmem | hmem
    · exact .inl (List.mem_append_left _ hmem)
    · rcases List.mem_cons.1 hmem with rfl | hmem
      · exact .inl (List.mem_append_right _ (List.mem_singleton.2 rfl))
      · exact .inr hmem
  | @registerTable t' c hpc hbusy =>
    by_cases heq : t'.tableName = name
    · refine .live hstay ?_
      have hmem : sid ∈ t'.subscribers := (hmaking t' [] c hpc heq).resolve_right (List.not_mem_nil)
      rw [Monitor.table_of_making (by rintro t ⟨⟩), getElem?_insert_eq, if_pos heq]
      exact hmem
    · refine .coming hstay ?_ fun _ _ _ hpc' => by cases hpc'
      rw [getElem?_insert_eq, if_neg heq, hnew]
  | apply => exact .coming hstay (getElem?_modify_none hnew _ _) fun _ _ _ hpc' => by cases hpc'
  | start => exact .coming hstay hnew fun _ _ _ hpc' => by cases hpc'
  | broadcast => exact .coming hstay hnew fun _ _ _ hpc' => by cases hpc'
  | next => exact .coming hstay (getElem?_modify_none hnew _ _) fun _ _ _ hpc' => by cases hpc'
  | finish => exact .coming hstay hnew fun _ _ _ hpc' => by cases hpc'
  | publish =>
    refine .coming hstay (getElem?_modify_none hnew _ _) fun t' todo c hpc => hmaking t' todo c ?_
    simp only at hpc
    split at hpc
    · cases hpc
    · exact hpc
  | sessions => exact .coming hstay hnew hmaking

/-- **One step of the monitor**, seen from the session's copy of one table. -/
theorem CopyOf.step (hsid : sid < sessionRegSize) (h : s.Inv) (hcopy : CopyOf sid base name s) (hkeeps : Keeps sid s a)
    (hs : monitorStep s a = some t) : CopyOf sid base name t := by
  cases hcopy with
  | waiting hpc hmem hbehind => exact CopyOf.step_waiting h hpc hmem hbehind hkeeps hs
  | live hconv hsub => exact CopyOf.step_live h hconv hsub hkeeps hs
  | coming hconv hnew hmaking => exact CopyOf.step_coming hsid h hconv hnew hmaking hkeeps hs

end

/-- Where the copies stand when the session's turn through the tables begins. -/
theorem CopyOf.start {s t : Monitor} {sid : Nat} {base : List TxMessage} {name : Bytes}
    (hbehind : Behind sid base (s.settled name)) (hs : monitorStep s (.start (.subscribeAll sid)) = some t) :
    CopyOf sid base name t := by
  cases monitorStep_cases hs with
  | start hfree hbusy =>
    have hproj : ({ s with pc := .each (.subscribeAll sid) s.tables.keys } : Monitor).settled name = s.settled name :=
      congrArg TablePublisher.settled (Monitor.project_withPc (by rw [hfree]; rfl) name)
    cases ht : s.tables[name]? with
    | some t' =>
      refine .waiting rfl ?_ (hproj ▸ hbehind)
      rw [Std.TreeMap.mem_keys, Std.TreeMap.mem_iff_isSome_getElem?, ht]
      rfl
    | none =>
      -- nothing can have been heard of a table that is not there
      have htable : (s.settled name).table = .new name := by
        show s.table name = _
        rw [Monitor.table_of_making (by rw [hfree]; rintro t ⟨⟩), ht, Option.getD_none]
      obtain ⟨stream, hsent, hbelow, -⟩ := hbehind.stream
      rw [htable] at hbelow
      refine .coming (hproj ▸ ⟨hbehind.inv, stream, hsent, ?_⟩) ht fun _ _ _ hpc' => by cases hpc'
      rw [htable]
      exact hbelow.eq_empty

section

variable {sid : Nat} {s₀ s₁ s₂ s₃ : Monitor}

theorem monitor_converged (hrun : Steps.Reaches monitorStep Steps.Always .new s₀) (hsid : sid < sessionRegSize)
    (hconn : Steps.Reaches monitorStep (Keeps sid) s₀ s₁) (hstart : monitorStep s₁ (.start (.subscribeAll sid)) = some s₂)
    (hrest : Steps.Reaches monitorStep (Keeps sid) s₂ s₃) (name : Bytes) (hquiet : (s₀.publishing name).promised sid = [])
    (hdone : ∀ todo, s₃.pc = .each (.subscribeAll sid) todo → name ∉ todo) :
    Converged sid (tagged name s₀.sent sid) (s₃.settled name) := by
  have h₀ : s₀.Inv := hrun.invariant Monitor.new_inv fun h _ hs => monitorStep_inv h hs
  have hbase : (s₀.settled name).sent sid = tagged name s₀.sent sid :=
    (congrArg (tagged name s₀.sent sid ++ ·) hquiet).trans (List.append_nil _)
  have h₁ : s₁.Inv ∧ Behind sid (tagged name s₀.sent sid) (s₁.settled name) := by
    refine hconn.invariant (P := fun s => s.Inv ∧ Behind sid (tagged name s₀.sent sid) (s.settled name))
      ⟨h₀, hbase ▸ Behind.start (s := s₀.settled name) (h₀.tables name).table⟩ ?_
    rintro s t a ⟨h, hbehind⟩ hkeeps hs
    exact ⟨monitorStep_inv h hs, hbehind.step h hkeeps hs⟩
  have h₃ : s₃.Inv ∧ CopyOf sid (tagged name s₀.sent sid) name s₃ := by
    refine hrest.invariant (P := fun s => s.Inv ∧ CopyOf sid (tagged name s₀.sent sid) name s)
      ⟨monitorStep_inv h₁.1 hstart, CopyOf.start h₁.2 hstart⟩ ?_
    rintro s t a ⟨h, hcopy⟩ hkeeps hs
    exact ⟨monitorStep_inv h hs, hcopy.step hsid h hkeeps hs⟩
  cases h₃.2 with
  | waiting hpc hmem hbehind => exact absurd hmem (hdone _ hpc)
  | live hconv hsub => exact hconv
  | coming hconv hnew hmaking => exact hconv

/-- **A session has a copy of every table.**  At any point of any run a session is there, with nothing still to be sent to its
slot, and at any later point its turn through the tables begins (`subscribe_all`); meanwhile and from then on it stays open, is
taken from no table, no row is deleted, and every row is small enough for a message of its own where the session is added to a
table.  Then of each table whose turn is over, and of each that was made since, an empty copy that reads the messages with the
table's name, those that the thread inside the table has still to send among them, has in every column but `RowKey` the value
the table has, or none. -/
theorem monitor_copy (hrun : Steps.Reaches monitorStep Steps.Always .new s₀) (hsid : sid < sessionRegSize)
    (hconn : Steps.Reaches monitorStep (Keeps sid) s₀ s₁) (hstart : monitorStep s₁ (.start (.subscribeAll sid)) = some s₂)
    (hrest : Steps.Reaches monitorStep (Keeps sid) s₂ s₃) (name : Bytes) (hquiet : (s₀.publishing name).promised sid = [])
    (hdone : ∀ todo, s₃.pc = .each (.subscribeAll sid) todo → name ∉ todo) :
    ∃ stream, tagged name s₃.sent sid ++ (s₃.publishing name).promised sid = tagged name s₀.sent sid ++ stream ∧
      ∀ rowkey column, column ≠ Id.rowKey →
        stream.foldl receive .empty rowkey column = (s₃.table name).copyField rowkey column := by
  have hconv := monitor_converged hrun hsid hconn hstart hrest name hquiet hdone
  obtain ⟨stream, hsent, hcells⟩ := hconv.stream
  refine ⟨stream, hsent, fun rowkey column hc => ?_⟩
  rw [hcells]
  exact (hconv.inv.copyField_eq rowkey column hc).symm

end

/-- The table `t` is there before session 1 is. -/
def sampleBefore : List MonitorAct :=
  [.call (ascii "t") (.updateTable (fun _ => ascii "now") (ascii "a") ((∅ : Fields).insert (ascii "x") (ascii "1"))),
    .registerTable, .apply] ++ inside (ascii "t") [.copyNext, .release] ++
  [.sessions (fun sid => sid == 1) (fun sid => sid == 1)]

/-- The table `u` is made while the session is there, and so it is on it. -/
def sampleConnected : List MonitorAct :=
  [.call (ascii "u") (.updateTable (fun _ => ascii "now") (ascii "b") ((∅ : Fields).insert (ascii "y") (ascii "3"))),
    .addSubscriber] ++ inside (ascii "u") [.sendOne, .sendOne, .release] ++
  [.registerTable, .apply] ++ inside (ascii "u") [.copyNext, .copyNext, .sendOne, .sendOne, .release]

/-- The session is added to `t`, and it is added to `u` between a change to a row of `t` and the message of it. -/
def sampleLoop : List MonitorAct :=
  [.next] ++ inside (ascii "t") [.sendOne, .sendOne, .release] ++
  [.call (ascii "t") (.updateTable (fun _ => ascii "now") (ascii "a") ((∅ : Fields).insert (ascii "x") (ascii "2"))), .next] ++
  inside (ascii "u") [.sendOne] ++ inside (ascii "t") [.copyNext, .copyNext] ++ inside (ascii "u") [.sendOne, .release] ++
  inside (ascii "t") [.sendOne, .release] ++ [.finish]

theorem monitor_copy_sample : ∃ s₀ s₁ s₂ s₃, Steps.run monitorStep .new sampleBefore = some s₀ ∧
    Steps.runIf monitorStep (Keeps 1) s₀ sampleConnected = some s₁ ∧
    monitorStep s₁ (.start (.subscribeAll 1)) = some s₂ ∧ Steps.runIf monitorStep (Keeps 1) s₂ sampleLoop = some s₃ ∧
    (s₃.table (ascii "t")).copyField (ascii "a") (ascii "x") = some (ascii "2") ∧
    ∃ stream, tagged (ascii "t") s₃.sent 1 ++ (s₃.publishing (ascii "t")).promised 1 = tagged (ascii "t") s₀.sent 1 ++ stream ∧
      ∀ rowkey column, column ≠ Id.rowKey →
        stream.foldl receive .empty rowkey column = (s₃.table (ascii "t")).copyField rowkey column := by
  have hrun : (Steps.run monitorStep .new sampleBefore).bind (fun s₀ =>
      (Steps.runIf monitorStep (Keeps 1) s₀ sampleConnected).bind fun s₁ =>
        (monitorStep s₁ (.start (.subscribeAll 1))).bind fun s₂ =>
          (Steps.runIf monitorStep (Keeps 1) s₂ sampleLoop).map fun s₃ =>
            ((s₃.table (ascii "t")).copyField (ascii "a") (ascii "x"), s₃.pc.isFree,
              ((s₀.publishing (ascii "t")).promised 1).isEmpty)) = some (some (ascii "2"), true, true) := by
    decide +kernel
  obtain ⟨s₀, h₀, hrun⟩ := Option.bind_eq_some_iff.1 hrun
  obtain ⟨s₁, h₁, hrun⟩ := Option.bind_eq_some_iff.1 hrun
  obtain ⟨s₂, h₂, hrun⟩ := Option.bind_eq_some_iff.1 hrun
  obtain ⟨s₃, h₃, hrun⟩ := Option.map_eq_some_iff.1 hrun
  simp only [Prod.mk.injEq] at hrun
  refine ⟨s₀, s₁, s₂, s₃, h₀, h₁, h₂, h₃, hrun.1, ?_⟩
  refine monitor_copy (Steps.reaches_of_run _ h₀) (by decide) (Steps.reaches_of_runIf _ h₁) h₂ (Steps.reaches_of_runIf _ h₃)
    (ascii "t") (List.isEmpty_iff.1 hrun.2.2) fun todo hpc => ?_
  rw [hpc] at hrun
  cases hrun.2.1

end Exio
