import Exio.TableSnapshot
/-!
# TablePublish — a table's messages, one `send_one` at a time

An operation changes the table under the table's lock, and holds the lock until its last message has gone out.  To whom an
update goes is found out first, by one question to the registry for each subscriber (`copy_subscribers`); then every `send_one`
looks its session up again.  Between any two of these sessions come, close and go, and a slot that has got another session by
then is sent what was meant for the one before.  A subscriber can be taken from the table while messages go out.  `snapshot`
copies the subscribers before it takes the lock, and so other operations come between the copy and the snapshots.

An operation takes effect where it is begun: for a session that stays, what it was sent together with what the thread with the
lock has still to send it (`settled`) is at every step what `TableServer` sends at once (`publisherStep_settles`).
-/
namespace Exio

open Sam Replica

/-! ## What is still to be sent -/

/-- The thread that holds the table's lock: it asks `session_exists` for the subscribers, and then it calls `send_one`. -/
inductive Publishing where
  | idle
  | copying (copied todo : List Nat) (msgs : List TxMessage)
  | sending (out : List (Nat × List TxMessage))

/-- What is sent to one session. -/
def sendsTo (sid : Nat) (out : List (Nat × List TxMessage)) : List TxMessage := out.flatMap fun x => if x.1 = sid then x.2 else []

namespace Publishing

/-- `_nolock_publish_update`, which is not called without events. -/
def ofEvents (subs : List Nat) (events : List TableEvent) : Publishing :=
  if events.isEmpty then .sending [] else .copying [] subs (events.flatMap TableEvent.serialise)

/-- The next question of `copy_subscribers`; behind the last, every message is to go to every subscriber before the next one
does. -/
def copyNext (used : Nat → Bool) : Publishing → Option Publishing
  | .copying copied (sid :: todo) msgs => some (.copying (if used sid then copied ++ [sid] else copied) todo msgs)
  | .copying copied [] msgs            => some (.sending (msgs.flatMap fun m => copied.map fun sid => (sid, [m])))
  | _                                  => none

/-- The messages that are to go out. -/
def messages : Publishing → List TxMessage
  | .idle             => []
  | .copying _ _ msgs => msgs
  | .sending out      => out.flatMap Prod.snd

/-- What a session is still to be sent, if it stays. -/
def promised (sid : Nat) : Publishing → List TxMessage
  | .idle                     => []
  | .copying copied todo msgs => msgs.flatMap (List.replicate ((copied ++ todo).count sid))
  | .sending out              => sendsTo sid out

end Publishing

namespace DataTable

/-- The operations that only change the table, with the events they raise. -/
def change (t : DataTable) : TableOp → Option (DataTable × List TableEvent)
  | .updateRow clock rowkey fields => some (t.updateRow clock rowkey fields)
  | .addColumns clock cols         => some (t.addColumns clock cols)
  | .updateMeta rowkey column info => some (t.updateMeta rowkey column info)
  | .addColumnAttr column attr     => some (t.addColumnAttr column attr, [])
  | .clearTable                    => some t.clearTable
  | .deleteRow rowkey              => some (t.deleteRow rowkey)
  | .snapshot | .addSubscriber _ | .delSubscriber _ | .sessions .. => none

/-- `_nolock_send_snapshopt` for one session after another: each snapshot is one `send_one`, and an exception ends the loop. -/
def snapshotSends (t : DataTable) : List Nat → DataTable × List (Nat × List TxMessage) × Option RuntimeError
  | []          => (t, [], none)
  | sid :: sids =>
    match t.snapshotMsgs with
    | .error e              => (t, [], some e)
    | .ok (msgs, batchsize) =>
      let r := snapshotSends { t with batchsize := batchsize } sids
      (r.1, (sid, msgs) :: r.2.1, r.2.2)

end DataTable

/-! ## The steps -/

/-- A table with the threads that work on it: the one that holds its lock, and one in `snapshot` that copies the subscribers
(those it has, and those it has still to ask for). -/
structure TablePublisher extends TableServer where
  publishing   : Publishing
  snapshotting : Option (List Nat × List Nat)

/-- The steps of the threads inside an operation. -/
inductive PublishAct where
  | copyNext
  | sendOne
  | release
  | snapshotNext
deriving DecidableEq

inductive PublisherAct where
  /-- An operation is begun, or the sessions change. -/
  | op (op : TableOp)
  | publish (a : PublishAct)

namespace TablePublisher

def new (tableName : Bytes) : TablePublisher := ⟨.new tableName, .idle, none⟩

/-- An operation up to its first question or `send_one`.  `del_subscriber` takes the lock of the subscribers only, which is held
while they are copied; into a `snapshot` it never comes, because the monitor's mutex is held through both. -/
def begin (s : TablePublisher) (op : TableOp) : Option TablePublisher :=
  match op with
  | .sessions used isOpen => some { s with used := used, isOpen := isOpen }
  | .delSubscriber sid    =>
    match s.publishing, s.snapshotting with
    | .idle, none | .sending _, none => some { s with table := s.table.delSubscriber sid }
    | _, _                           => none
  | .snapshot             =>
    match s.snapshotting with
    | none   => some { s with snapshotting := some ([], s.table.subscribers) }
    | some _ => none
  | .addSubscriber sid    =>
    match s.publishing with
    | .idle =>
      let t := s.table.subscribe sid
      let r := t.snapshotSends [sid]
      some { s with table := r.1, publishing := .sending ((sid, [t.descrMsg]) :: r.2.1) }
    | _     => none
  | op                    =>
    match s.publishing, s.table.change op with
    | .idle, some r => some { s with table := r.1, publishing := .ofEvents r.1.subscribers r.2 }
    | _, _          => none

def publish (s : TablePublisher) : PublishAct → Option TablePublisher
  | .copyNext     => (s.publishing.copyNext s.used).map fun p => { s with publishing := p }
  | .sendOne      =>
    match s.publishing with
    | .sending ((sid, msgs) :: out) => some { s with toTableServer := s.toTableServer.sendOne sid msgs, publishing := .sending out }
    | _                             => none
  | .release      =>
    match s.publishing with
    | .sending [] => some { s with publishing := .idle }
    | _           => none
  | .snapshotNext =>
    match s.snapshotting, s.publishing with
    | some (copied, sid :: todo), _ =>
      some { s with snapshotting := some (if s.used sid then copied ++ [sid] else copied, todo) }
    | some (copied, []), .idle      =>
      let r := s.table.snapshotSends copied
      some { s with table := r.1, publishing := .sending r.2.1, snapshotting := none }
    | _, _                          => none

/-- Whether the operation that the step is of ends with an exception, which is known when its messages are. -/
def throws (s : TablePublisher) : PublisherAct → Bool
  | .op (.addSubscriber sid) => ((s.table.subscribe sid).snapshotSends [sid]).2.2.isSome
  | .publish .snapshotNext   =>
    match s.snapshotting with
    | some (copied, []) => (s.table.snapshotSends copied).2.2.isSome
    | _                 => false
  | _                        => false

end TablePublisher

/-- **One step of one thread.** -/
def publisherStep (s : TablePublisher) : PublisherAct → Option TablePublisher
  | .op op     => s.begin op
  | .publish a => s.publish a

/-- The steps one by one, with what is known where each is taken. -/
inductive PublisherStep (s : TablePublisher) : PublisherAct → TablePublisher → Prop
  | sessions {used isOpen : Nat → Bool} : PublisherStep s (.op (.sessions used isOpen)) { s with used := used, isOpen := isOpen }
  | delSubscriber {sid : Nat} (hcopied : s.snapshotting = none) :
    PublisherStep s (.op (.delSubscriber sid)) { s with table := s.table.delSubscriber sid }
  | snapshot : PublisherStep s (.op .snapshot) { s with snapshotting := some ([], s.table.subscribers) }
  | addSubscriber {sid : Nat} (hidle : s.publishing = .idle) :
    PublisherStep s (.op (.addSubscriber sid)) { s with
      table      := ((s.table.subscribe sid).snapshotSends [sid]).1
      publishing := .sending ((sid, [(s.table.subscribe sid).descrMsg]) :: ((s.table.subscribe sid).snapshotSends [sid]).2.1) }
  | change {op : TableOp} {r : DataTable × List TableEvent} (hidle : s.publishing = .idle) (hr : s.table.change op = some r) :
    PublisherStep s (.op op) { s with table := r.1, publishing := .ofEvents r.1.subscribers r.2 }
  | copyNext {p : Publishing} (hp : s.publishing.copyNext s.used = some p) :
    PublisherStep s (.publish .copyNext) { s with publishing := p }
  | sendOne {sid : Nat} {msgs : List TxMessage} {out : List (Nat × List TxMessage)}
    (hout : s.publishing = .sending ((sid, msgs) :: out)) :
    PublisherStep s (.publish .sendOne) { s with toTableServer := s.toTableServer.sendOne sid msgs, publishing := .sending out }
  | release (hout : s.publishing = .sending []) : PublisherStep s (.publish .release) { s with publishing := .idle }
  | ask {copied : List Nat} {sid : Nat} {todo : List Nat} (hcopy : s.snapshotting = some (copied, sid :: todo)) :
    PublisherStep s (.publish .snapshotNext)
      { s with snapshotting := some (if s.used sid then copied ++ [sid] else copied, todo) }
  | snapshots {copied : List Nat} (hcopy : s.snapshotting = some (copied, [])) (hidle : s.publishing = .idle) :
    PublisherStep s (.publish .snapshotNext) { s with
      table        := (s.table.snapshotSends copied).1
      publishing   := .sending (s.table.snapshotSends copied).2.1
      snapshotting := none }

/-- **What a step can do.** -/
theorem publisherStep_cases {s t : TablePublisher} {a : PublisherAct} (hs : publisherStep s a = some t) : PublisherStep s a t := by
  have hchange : ∀ {op : TableOp}, (match s.publishing, s.table.change op with
      | .idle, some r => some { s with table := r.1, publishing := .ofEvents r.1.subscribers r.2 }
      | _, _          => none) = some t → PublisherStep s (.op op) t := by
    intro op h
    split at h
    · rename_i hidle hr
      cases h
      exact .change hidle hr
    · cases h
  cases a with
  | op op =>
    cases op with
    | sessions used isOpen => cases hs; exact .sessions
    | delSubscriber sid =>
      simp only [publisherStep, TablePublisher.begin] at hs
      split at hs
      · rename_i hcopied
        cases hs
        exact .delSubscriber hcopied
      · rename_i hcopied
        cases hs
        exact .delSubscriber hcopied
      · cases hs
    | snapshot =>
      simp only [publisherStep, TablePublisher.begin] at hs
      split at hs
      · cases hs
        exact .snapshot
      · cases hs
    | addSubscriber sid =>
      simp only [publisherStep, TablePublisher.begin] at hs
      split at hs
      · rename_i hidle
        cases hs
        exact .addSubscriber hidle
      · cases hs
    | updateRow clock rowkey fields => exact hchange hs
    | addColumns clock cols => exact hchange hs
    | updateMeta rowkey column info => exact hchange hs
    | addColumnAttr column attr => exact hchange hs
    | clearTable => exact hchange hs
    | deleteRow rowkey => exact hchange hs
  | publish a =>
    cases a with
    | copyNext =>
      obtain ⟨p, hp, rfl⟩ := Option.map_eq_some_iff.1 hs
      exact .copyNext hp
    | sendOne =>
      simp only [publisherStep, TablePublisher.publish] at hs
      split at hs
      · rename_i hout
        cases hs
        exact .sendOne hout
      · cases hs
    | release =>
      simp only [publisherStep, TablePublisher.publish] at hs
      split at hs
      · rename_i hout
        cases hs
        exact .release hout
      · cases hs
    | snapshotNext =>
      simp only [publisherStep, TablePublisher.publish] at hs
      split at hs
      · rename_i hcopy
        cases hs
        exact .ask hcopy
      · rename_i hcopy hidle
        cases hs
        exact .snapshots hcopy hidle
      · cases hs

/-! ## What the operations keep -/

theorem change_inv {t : DataTable} (h : t.Inv) {op : TableOp} {r : DataTable × List TableEvent} (hr : t.change op = some r) :
    r.1.Inv ∧ r.1.subscribers = t.subscribers := by
  cases op with
  | updateRow clock rowkey fields => cases hr; exact ⟨(updateRow_tracked h ..).inv, (updateRow_tracked h ..).subs⟩
  | addColumns clock cols => cases hr; exact ⟨(addColumns_tracked h ..).inv, (addColumns_tracked h ..).subs⟩
  | updateMeta rowkey column info => cases hr; exact ⟨(updateMeta_tracked h ..).inv, (updateMeta_tracked h ..).subs⟩
  | addColumnAttr column attr => cases hr; exact ⟨⟨h.rows, h.columns, h.keyed⟩, rfl⟩
  | clearTable => cases hr; exact ⟨(clearTable_tracked h).inv, (clearTable_tracked h).subs⟩
  | deleteRow rowkey => cases hr; exact ⟨deleteRow_inv h rowkey, deleteRow_subscribers t rowkey⟩
  | snapshot | addSubscriber _ | delSubscriber _ | sessions _ _ => cases hr

/-- The operations that only change the table, at once. -/
theorem exec_change {s : TableServer} {op : TableOp} {r : DataTable × List TableEvent} (hr : s.table.change op = some r) :
    s.exec op = (s.commit r, none) := by
  cases op with
  | snapshot | addSubscriber _ | delSubscriber _ | sessions _ _ => cases hr
  | _ => cases hr; rfl

/-- **The loop of snapshots**, with its messages and at once. -/
theorem snapshotEach_table : ∀ (sids : List Nat) (s : TableServer),
    (s.snapshotEach sids).1.table = (s.table.snapshotSends sids).1 ∧ (s.snapshotEach sids).2 = (s.table.snapshotSends sids).2.2
  | [], _ => ⟨rfl, rfl⟩
  | sid :: sids, s => by
    cases hs : s.table.snapshotMsgs with
    | error e =>
      rw [TableServer.snapshotEach, sendSnapshot_of_error hs, DataTable.snapshotSends, hs]
      exact ⟨rfl, rfl⟩
    | ok out =>
      rw [TableServer.snapshotEach, sendSnapshot_of_ok hs, DataTable.snapshotSends, hs]
      exact snapshotEach_table sids _

/-- Snapshots change nothing of the table but the size of a batch. -/
theorem snapshotSends_table (t : DataTable) : ∀ (sids : List Nat), ∃ batchsize, (t.snapshotSends sids).1 = { t with batchsize := batchsize }
  | []          => ⟨t.batchsize, rfl⟩
  | sid :: sids => by
    rw [DataTable.snapshotSends]
    split
    · exact ⟨t.batchsize, rfl⟩
    · exact snapshotSends_table _ sids

theorem snapshotSends_subscribers (t : DataTable) (sids : List Nat) : (t.snapshotSends sids).1.subscribers = t.subscribers := by
  obtain ⟨batchsize, htable⟩ := snapshotSends_table t sids
  rw [htable]

theorem DataTable.Inv.snapshotSends {t : DataTable} (h : t.Inv) (sids : List Nat) : (t.snapshotSends sids).1.Inv := by
  obtain ⟨batchsize, htable⟩ := snapshotSends_table t sids
  rw [htable]
  exact ⟨h.rows, h.columns, h.keyed⟩

def TableOp.subscribersAfter (subs : List Nat) : TableOp → List Nat
  | .addSubscriber sid => subs ++ [sid]
  | .delSubscriber sid => subs.erase sid
  | _                  => subs

/-- The representation of the table, and a copy for snapshots that is of its subscribers. -/
structure TablePublisher.Inv (s : TablePublisher) : Prop where
  table  : s.table.Inv
  copied : ∀ copied todo, s.snapshotting = some (copied, todo) → ∀ sid ∈ copied ++ todo, sid ∈ s.table.subscribers

theorem TablePublisher.new_inv (tableName : Bytes) : (TablePublisher.new tableName).Inv :=
  ⟨DataTable.new_inv tableName, fun _ _ h => by cases h⟩

section

variable {s t : TablePublisher} {a : PublisherAct}

/-- **Who is subscribed after a step.** -/
theorem publisherStep_subscribers (h : s.table.Inv) (hs : publisherStep s a = some t) :
    (∀ op, a = .op op → t.table.subscribers = op.subscribersAfter s.table.subscribers) ∧
      (∀ p, a = .publish p → t.table.subscribers = s.table.subscribers) := by
  cases publisherStep_cases hs with
  | sessions => exact ⟨by rintro _ ⟨⟩; rfl, by rintro _ ⟨⟩⟩
  | delSubscriber => exact ⟨by rintro _ ⟨⟩; rfl, by rintro _ ⟨⟩⟩
  | snapshot => exact ⟨by rintro _ ⟨⟩; rfl, by rintro _ ⟨⟩⟩
  | addSubscriber hidle => exact ⟨by rintro _ ⟨⟩; exact snapshotSends_subscribers _ _, by rintro _ ⟨⟩⟩
  | @change op r hidle hr =>
    refine ⟨?_, by rintro _ ⟨⟩⟩
    rintro _ ⟨⟩
    rw [(change_inv h hr).2]
    cases op with
    | addSubscriber _ | delSubscriber _ => cases hr
    | _ => rfl
  | copyNext hp => exact ⟨by rintro _ ⟨⟩, fun _ _ => rfl⟩
  | sendOne hout => exact ⟨by rintro _ ⟨⟩, fun _ _ => congrArg DataTable.subscribers (s.toTableServer.sendOne_frame _ _).1⟩
  | release hout => exact ⟨by rintro _ ⟨⟩, fun _ _ => rfl⟩
  | ask hcopy => exact ⟨by rintro _ ⟨⟩, fun _ _ => rfl⟩
  | snapshots hcopy hidle => exact ⟨by rintro _ ⟨⟩, fun _ _ => snapshotSends_subscribers _ _⟩

theorem publisherStep_inv (h : s.Inv) (hs : publisherStep s a = some t) : t.Inv := by
  cases publisherStep_cases hs with
  | sessions => exact ⟨h.table, h.copied⟩
  | delSubscriber hcopied => exact ⟨⟨h.table.rows, h.table.columns, h.table.keyed⟩, fun _ _ hc => by simp [hcopied] at hc⟩
  | snapshot =>
    refine ⟨h.table, fun copied todo hc => ?_⟩
    cases hc
    exact fun _ hsid => hsid
  | @addSubscriber sid' hidle =>
    have hinv : (s.table.subscribe sid').Inv := ⟨h.table.rows, h.table.columns, h.table.keyed⟩
    refine ⟨hinv.snapshotSends _, fun copied todo hc sid hsid => ?_⟩
    simp only [snapshotSends_subscribers]
    exact List.mem_append_left _ (h.copied copied todo hc sid hsid)
  | change hidle hr =>
    obtain ⟨hinv, hsubs⟩ := change_inv h.table hr
    exact ⟨hinv, fun copied todo hc sid hsid => hsubs.symm ▸ h.copied copied todo hc sid hsid⟩
  | copyNext hp => exact ⟨h.table, h.copied⟩
  | @sendOne sid msgs out hout =>
    have htable := (s.toTableServer.sendOne_frame sid msgs).1
    exact ⟨htable.symm ▸ h.table, fun copied todo hc x hx => htable.symm ▸ h.copied copied todo hc x hx⟩
  | release hout => exact ⟨h.table, h.copied⟩
  | @ask copied sid todo hcopy =>
    refine ⟨h.table, fun copied' todo' hc x hx => ?_⟩
    cases hc
    refine h.copied copied (sid :: todo) hcopy x ?_
    split at hx
    · simpa using hx
    · rcases List.mem_append.1 hx with hx | hx
      · exact List.mem_append_left _ hx
      · exact List.mem_append_right _ (List.mem_cons_of_mem sid hx)
  | snapshots hcopy hidle =>
    exact ⟨h.table.snapshotSends _, fun _ _ hc => by cases hc⟩

end

section

variable {s t : TablePublisher} {a : PublisherAct}

/-- Only the registry changes the sessions. -/
theorem publisherStep_sessions (ha : ∀ used isOpen, a ≠ .op (.sessions used isOpen)) (hs : publisherStep s a = some t) :
    t.used = s.used ∧ t.isOpen = s.isOpen := by
  cases publisherStep_cases hs with
  | sessions => exact absurd rfl (ha _ _)
  | @sendOne sid msgs out hout => exact (s.toTableServer.sendOne_frame sid msgs).2
  | _ => exact ⟨rfl, rfl⟩

/-- Only `snapshot` begins to copy subscribers for a snapshot. -/
theorem publisherStep_snapshotting {op : TableOp} (hop : op ≠ .snapshot) (hs : publisherStep s (.op op) = some t) :
    t.snapshotting = s.snapshotting := by
  cases publisherStep_cases hs with
  | snapshot => exact absurd rfl hop
  | _ => rfl

/-- A step inside an operation is one of a `snapshot`, or it leaves the table as it is and does not fail. -/
theorem publisherStep_publish {p : PublishAct} (hs : publisherStep s (.publish p) = some t) :
    s.snapshotting ≠ none ∧ (t.snapshotting ≠ none → s.throws (.publish p) = false) ∨
      t.snapshotting = none ∧ t.table = s.table ∧ s.throws (.publish p) = false := by
  cases hcopy : s.snapshotting with
  | none =>
    refine .inr ?_
    cases publisherStep_cases hs with
    | @sendOne sid msgs out hout => exact ⟨hcopy, (s.toTableServer.sendOne_frame sid msgs).1, rfl⟩
    | ask h | snapshots h => rw [hcopy] at h; cases h
    | _ => exact ⟨hcopy, rfl, rfl⟩
  | some copy =>
    refine .inl ⟨Option.some_ne_none copy, fun hstill => ?_⟩
    cases publisherStep_cases hs with
    | ask h => simp only [TablePublisher.throws, h]
    | snapshots => exact absurd rfl hstill
    | _ => rfl

end

/-! ## The stream of a session that stays -/

theorem sendsTo_cons (sid sid' : Nat) (msgs : List TxMessage) (out : List (Nat × List TxMessage)) :
    sendsTo sid ((sid', msgs) :: out) = (if sid' = sid then msgs else []) ++ sendsTo sid out := List.flatMap_cons ..

theorem sendsTo_each (sid : Nat) (m : TxMessage) : ∀ (sids : List Nat),
    sendsTo sid (sids.map fun x => (x, [m])) = List.replicate (sids.count sid) m
  | []           => rfl
  | sid' :: sids => by
    rw [List.map_cons, sendsTo_cons, sendsTo_each sid m sids, List.count_cons]
    by_cases heq : sid' = sid
    · rw [if_pos heq, if_pos (beq_iff_eq.2 heq), List.replicate_succ]
      rfl
    · rw [if_neg heq, if_neg (by simpa using heq)]
      rfl

theorem sendsTo_messages (sid : Nat) (sids : List Nat) : ∀ (msgs : List TxMessage),
    sendsTo sid (msgs.flatMap fun m => sids.map fun x => (x, [m])) = msgs.flatMap (List.replicate (sids.count sid))
  | []        => rfl
  | m :: msgs => by
    rw [List.flatMap_cons, List.flatMap_cons, ← sendsTo_messages sid sids msgs, ← sendsTo_each sid m sids]
    exact List.flatMap_append ..

theorem Publishing.promised_ofEvents (sid : Nat) (subs : List Nat) (events : List TableEvent) :
    (Publishing.ofEvents subs events).promised sid =
      (events.flatMap TableEvent.serialise).flatMap (List.replicate (subs.count sid)) := by
  unfold Publishing.ofEvents
  split
  · rename_i hnone
    rw [List.isEmpty_iff.1 hnone]
    rfl
  · rfl

/-- **A session that is there is among the copied.** -/
theorem Publishing.promised_copyNext {used : Nat → Bool} {p q : Publishing} (h : p.copyNext used = some q) {sid : Nat}
    (hu : used sid = true) : q.promised sid = p.promised sid := by
  cases p with
  | idle => cases h
  | sending out => cases h
  | copying copied todo msgs =>
    cases todo with
    | nil =>
      cases h
      refine (sendsTo_messages sid copied msgs).trans ?_
      rw [Publishing.promised, List.append_nil]
    | cons sid' todo =>
      cases h
      have hcount : ((if used sid' then copied ++ [sid'] else copied) ++ todo).count sid = (copied ++ sid' :: todo).count sid := by
        split
        · rw [List.append_assoc]
          rfl
        · rename_i hno
          have hne : sid' ≠ sid := by
            rintro rfl
            exact hno hu
          rw [List.count_append, List.count_append, List.count_cons_of_ne hne]
      rw [Publishing.promised, hcount, Publishing.promised]

/-- The server when everything has been sent. -/
def TablePublisher.settled (s : TablePublisher) : TableServer :=
  { s.toTableServer with sent := fun sid => s.sent sid ++ s.publishing.promised sid }

/-- The same table, and the same stream of one session. -/
structure SameFor (sid : Nat) (s t : TableServer) : Prop where
  table : t.table = s.table
  sent  : t.sent sid = s.sent sid

theorem snapshotEach_sent {sid : Nat} : ∀ (sids : List Nat) {s : TableServer}, s.used sid = true → s.isOpen sid = true →
    (s.snapshotEach sids).1.sent sid = s.sent sid ++ sendsTo sid (s.table.snapshotSends sids).2.1
  | [], _, _, _ => (List.append_nil _).symm
  | sid' :: sids, s, hu, ho => by
    cases hs : s.table.snapshotMsgs with
    | error e =>
      rw [TableServer.snapshotEach, sendSnapshot_of_error hs, DataTable.snapshotSends, hs]
      exact (List.append_nil _).symm
    | ok out =>
      obtain ⟨-, hused, hopen⟩ := s.sendOne_frame sid' out.1
      have hrest := snapshotEach_sent (s := { s.sendOne sid' out.1 with table := { s.table with batchsize := out.2 } }) sids
        ((congrFun hused sid).trans hu) ((congrFun hopen sid).trans ho)
      rw [TableServer.snapshotEach, sendSnapshot_of_ok hs, DataTable.snapshotSends, hs]
      refine hrest.trans ?_
      simp only [TableServer.sendOne_sent hu ho, sendsTo_cons]
      split
      · rw [List.append_assoc]
      · rfl

/-- **What a step is to a session that stays**: nothing, an operation at once, or the snapshots for the copied subscribers at
once. -/
inductive Settles (sid : Nat) (s : TablePublisher) : PublisherAct → TablePublisher → Prop
  | nothing {a : PublisherAct} {t : TablePublisher} (h : SameFor sid s.settled t.settled) : Settles sid s a t
  | exec {op : TableOp} {t : TablePublisher} (h : SameFor sid (s.settled.exec op).1 t.settled) : Settles sid s (.op op) t
  | snapshots {copied : List Nat} {t : TablePublisher} (hcopy : s.snapshotting = some (copied, []))
    (h : SameFor sid (s.settled.snapshotEach copied).1 t.settled) : Settles sid s (.publish .snapshotNext) t

section

variable {s t : TablePublisher} {sid : Nat} {a : PublisherAct}

theorem TablePublisher.settled_idle (hidle : s.publishing = .idle) : s.settled.sent sid = s.sent sid := by
  rw [TablePublisher.settled, hidle]
  exact List.append_nil _

theorem settles_addSubscriber (hu : s.used sid = true) (ho : s.isOpen sid = true) (hidle : s.publishing = .idle) (sid' : Nat) :
    SameFor sid (s.settled.exec (.addSubscriber sid')).1
      { s with
        table      := ((s.table.subscribe sid').snapshotSends [sid']).1
        publishing := .sending ((sid', [(s.table.subscribe sid').descrMsg]) :: ((s.table.subscribe sid').snapshotSends [sid']).2.1) :
        TablePublisher }.settled := by
  -- the description goes out first, and then one snapshot
  let u : TableServer := { s.settled with table := s.table.subscribe sid' }.sendOne sid' [(s.table.subscribe sid').descrMsg]
  obtain ⟨htable, hused, hopen⟩ := TableServer.sendOne_frame { s.settled with table := s.table.subscribe sid' } sid'
    [(s.table.subscribe sid').descrMsg]
  have hone : (s.settled.exec (.addSubscriber sid')).1 = (u.snapshotEach [sid']).1 := by
    show (u.sendSnapshot sid').1 = _
    rw [TableServer.snapshotEach]
    split
    · rename_i heq
      rw [heq]
    · rename_i heq
      rw [heq]
      rfl
  refine ⟨?_, ?_⟩
  · rw [hone, (snapshotEach_table [sid'] u).1, htable]
    rfl
  · rw [hone, snapshotEach_sent [sid'] ((congrFun hused sid).trans hu) ((congrFun hopen sid).trans ho), htable]
    have hsent := TableServer.sendOne_sent (s := { s.settled with table := s.table.subscribe sid' }) hu ho sid'
      [(s.table.subscribe sid').descrMsg]
    rw [show u.sent sid = _ from hsent, TablePublisher.settled_idle hidle]
    simp only [TablePublisher.settled, Publishing.promised, sendsTo_cons]
    split
    · rw [List.append_assoc]
    · rfl

/-- **Every step is nothing to a session that stays, or it is an operation at once.** -/
theorem publisherStep_settles (hu : s.used sid = true) (ho : s.isOpen sid = true) (hs : publisherStep s a = some t) :
    Settles sid s a t := by
  cases publisherStep_cases hs with
  | sessions => exact .nothing ⟨rfl, rfl⟩
  | delSubscriber => exact .exec ⟨rfl, rfl⟩
  | snapshot => exact .nothing ⟨rfl, rfl⟩
  | addSubscriber hidle => exact .exec (settles_addSubscriber hu ho hidle _)
  | @change op r hidle hr =>
    have hexec : s.settled.exec op = (s.settled.commit r, none) := exec_change hr
    refine .exec (hexec ▸ ⟨(s.settled.commit_table r).symm, ?_⟩)
    rw [show (s.settled.commit r).sent sid = _ from TableServer.commit_sent (s := s.settled) hu ho r,
      TablePublisher.settled_idle hidle]
    exact congrArg (s.sent sid ++ ·) (Publishing.promised_ofEvents sid r.1.subscribers r.2)
  | copyNext hp => exact .nothing ⟨rfl, by simp only [TablePublisher.settled, Publishing.promised_copyNext hp hu]⟩
  | @sendOne sid' msgs out hout =>
    refine .nothing ⟨(s.toTableServer.sendOne_frame sid' msgs).1, ?_⟩
    simp only [TablePublisher.settled, hout, Publishing.promised, TableServer.sendOne_sent hu ho, sendsTo_cons]
    split
    · rw [List.append_assoc]
    · rfl
  | release hout => exact .nothing ⟨rfl, by simp only [TablePublisher.settled, hout]; rfl⟩
  | ask => exact .nothing ⟨rfl, rfl⟩
  | @snapshots copied hcopy hidle =>
    refine .snapshots hcopy ⟨(snapshotEach_table copied s.settled).1.symm, ?_⟩
    rw [snapshotEach_sent (s := s.settled) copied hu ho, TablePublisher.settled_idle hidle]
    rfl

end

end Exio
