import Mathlib.Logic.Function.Basic
import Exio.Steps
import Exio.Sessions
/-!
# Publication — who is sent the messages of the tables

The messages of a table go out one `send_one` at a time.  A new subscriber is sent the table's description and its snapshot;
an update is sent to a copy of the table's subscribers, made before the first message goes out.  What is in the copy are
ids: `send_one` looks the id up when it sends, and finds whichever session holds the slot by then.

A session can ask for no automatic subscription, by the flag `noautosub` of its logon message.  The flag keeps
`handle_logon_msg` from subscribing it, and `create_table_NOLOCK` does not look at it.  `noautosub_leftAlone` says in which
runs such a session is left alone.
-/
namespace Exio

open Sam

/-! ## The state -/

/-- The sessions and tables, the ids that the threads in the middle of a publication have still to send to, and the sessions
that were sent a message so far. -/
structure Publisher where
  admin   : Admin
  sending : List (List Nat)
  sent    : List Nat

def Publisher.new : Publisher := ⟨.new, [], []⟩

/-- The calls of `send_one` that the `add_subscriber` calls of a step make: one for the description, one for the snapshot. -/
def announced (s : Admin) : SessionAct → List Nat
  | .onMsg o m      => if autosubscribes m then s.tables.flatMap fun _ => List.replicate 2 (s.sessions o).id else []
  | .listSessions _ => (sessionList s).flatMap fun e => List.replicate 2 e.sid
  | _               => []

/-- `copy_subscribers`, with the answers of `session_exists`: the registry is asked once for each entry. -/
def Publisher.copySubscribers (sessionExists : Nat → Bool) (t : Subscriptions) : List Nat :=
  (t.2.map Subscriber.sid).filter sessionExists

inductive PublicationAct where
  | session (a : SessionAct)
  /-- A thread in `_nolock_publish_update` (or in `snapshot`) copies the subscribers for a number of messages. -/
  | publish (table : Bytes) (sessionExists : Nat → Bool) (messages : Nat)
  /-- A thread's next `send_one`, with the answer of `is_open`. -/
  | sendOne (thread : Nat) (isOpen : Bool)

/-- **One step of one thread.** -/
def publicationStep (s : Publisher) : PublicationAct → Option Publisher
  | .session a =>
    (sessionStep s.admin a).map fun admin => { s with admin := admin, sending := s.sending ++ [announced s.admin a] }
  | .publish table sessionExists messages =>
    match s.admin.tables.find? (fun t => t.1 = table) with
    | none   => none
    | some t =>
      let subs := Publisher.copySubscribers sessionExists t
      some { s with sending := s.sending ++ [(List.replicate messages subs).flatten] }
  | .sendOne thread isOpen =>
    match s.sending[thread]? with
    | some (sid :: rest) =>
      let sent := if isOpen then s.sent ++ (s.admin.reg sid).toList else s.sent
      some { s with sending := s.sending.set thread rest, sent := sent }
    | _ => none

/-! ## A session that is left alone -/

/-- The session is registered. -/
def Admin.Holds (s : Admin) (o : Nat) : Prop := s.reg (s.sessions o).id = some o

/-- An entry of the subscribers of a table, existing or being created. -/
def Admin.Entry (s : Admin) (e : Subscriber) : Prop := ∃ t ∈ s.tables ++ s.creating.toList, e ∈ t.2

/-- No table has been given the session, nor lists its id while it is registered. -/
def Admin.Unlisted (s : Admin) (o : Nat) : Prop :=
  ∀ e, s.Entry e → e.holder ≠ o ∧ (s.Holds o → e.sid ≠ (s.sessions o).id)

/-- **No table lists the session, no message is on its way to its id, and it was sent none.** -/
structure LeftAlone (o : Nat) (s : Publisher) : Prop where
  unlisted : s.admin.Unlisted o
  sending  : s.admin.Holds o → ∀ l ∈ s.sending, (s.admin.sessions o).id ∉ l
  sent     : o ∉ s.sent

/-- The logon messages of the session carry the flag. -/
def OptsOut (o : Nat) : PublicationAct → Prop
  | .session (.onMsg o' m) => o' = o → m.type = Id.msgLogon → checkFieldQ Id.qnNoautosub Id.true_ m.root = true
  | _                      => True

instance (o : Nat) : ∀ a, Decidable (OptsOut o a)
  | .session (.onMsg o' m) => inferInstanceAs (Decidable (o' = o → m.type = Id.msgLogon → checkFieldQ _ _ m.root = true))
  | .session .findSlot | .session .register | .session (.listSessions _) | .session .registerTable
  | .session (.unsubscribeAll _) | .session (.freeSlot _) | .publish .. | .sendOne .. => isTrue trivial

/-- The session gets a slot whose id no table lists and no message is on its way to; and it is not registered when the
sessions are listed for a new table. -/
def Apart (o : Nat) (s : Publisher) : PublicationAct → Prop
  | .session .register         => s.admin.createdCount = o → ∀ i ∈ s.admin.claimed,
      (∀ t ∈ s.admin.tables ++ s.admin.creating.toList, i ∉ t.2.map Subscriber.sid) ∧ ∀ l ∈ s.sending, i ∉ l
  | .session (.listSessions _) => ¬ s.admin.Holds o
  | _                          => True

instance (s : Admin) (o : Nat) : Decidable (s.Holds o) := inferInstanceAs (Decidable (_ = _))

instance (o : Nat) (s : Publisher) : ∀ a, Decidable (Apart o s a)
  | .session .register         => inferInstanceAs (Decidable (_ → ∀ i ∈ s.admin.claimed, _ ∧ ∀ l ∈ s.sending, i ∉ l))
  | .session (.listSessions _) => inferInstanceAs (Decidable (¬ s.admin.Holds o))
  | .session .findSlot | .session (.onMsg ..) | .session .registerTable | .session (.unsubscribeAll _)
  | .session (.freeSlot _) | .publish .. | .sendOne .. => isTrue trivial

/-! ### What the steps of the sessions do to it -/

/-- Two sessions in slots of one id are one. -/
theorem Admin.Inv.id_ne {s : Admin} (h : s.Inv) {o o' : Nat} (hne : o' ≠ o) (hlt : o' < s.createdCount)
    (hopen : (s.sessions o').phase ≠ .closed) (ho : s.Holds o) : (s.sessions o').id ≠ (s.sessions o).id := by
  intro hid
  have hlive := h.live o' hlt hopen
  rw [hid] at hlive
  exact hne (Option.some.inj (hlive.symm.trans ho))

/-- The entries that a step makes. -/
def added (s : Admin) : SessionAct → List Subscriber
  | .onMsg o m      => if autosubscribes m then [⟨(s.sessions o).id, o⟩] else []
  | .listSessions _ => sessionList s
  | _               => []

/-- A message goes to a session that is being subscribed. -/
theorem mem_announced {s : Admin} {sid : Nat} {a : SessionAct} (h : sid ∈ announced s a) :
    ∃ e ∈ added s a, e.sid = sid := by
  unfold announced at h
  unfold added
  split at h
  · split at h
    · rename_i o m hauto
      obtain ⟨t, -, ht⟩ := List.mem_flatMap.1 h
      refine ⟨⟨(s.sessions o).id, o⟩, ?_, (List.eq_of_mem_replicate ht).symm⟩
      rw [if_pos hauto]
      exact List.mem_singleton_self _
    · cases h
  · obtain ⟨e, he, ht⟩ := List.mem_flatMap.1 h
    exact ⟨e, he, (List.eq_of_mem_replicate ht).symm⟩
  · cases h

/-- **The entries after a step** are old ones, or the step's own. -/
theorem sessionStep_entry {s t : Admin} {e : Subscriber} {a : SessionAct} (hs : sessionStep s a = some t)
    (he : t.Entry e) : s.Entry e ∨ e ∈ added s a := by
  cases sessionStep_cases hs with
  | findSlot _ | register _ | logon _ _ _ | pass _ _ _ | freeSlot _ _ => exact .inl he
  | subscribe _ _ hauto hidle =>
    obtain ⟨t, ht, he⟩ := he
    simp only [hidle, Option.toList_none, List.append_nil] at ht
    obtain ⟨t', ht', rfl⟩ := mem_subscribeAll ht
    rcases List.mem_append.1 he with he | he
    · exact .inl ⟨t', List.mem_append_left _ ht', he⟩
    · refine .inr ?_
      simp only [added, if_pos hauto]
      exact he
  | listSessions _ _ =>
    obtain ⟨t, ht, he⟩ := he
    rcases List.mem_append.1 ht with ht | ht
    · exact .inl ⟨t, List.mem_append_left _ ht, he⟩
    · rw [Option.toList_some, List.mem_singleton] at ht
      rw [ht] at he
      simp only at he
      rw [added]
      exact .inr he
  | registerTable hcreating =>
    obtain ⟨t, ht, he⟩ := he
    refine .inl ⟨t, ?_, he⟩
    simpa [hcreating] using ht
  | unsubscribeAll _ _ _ =>
    obtain ⟨t, ht, he⟩ := he
    rcases List.mem_append.1 ht with ht | ht
    · obtain ⟨t', ht', rfl⟩ := mem_unsubscribeAll ht
      exact .inl ⟨t', List.mem_append_left _ ht', List.mem_of_mem_eraseP he⟩
    · exact .inl ⟨t, List.mem_append_right _ ht, he⟩

/-- A session's record changes, and its id does not. -/
theorem Admin.Holds.of_record {s : Admin} {o o' : Nat} {x : AdminSession} (hid : x.id = (s.sessions o').id)
    {ts : List Subscriptions} (h : Admin.Holds { s with sessions := Function.update s.sessions o' x, tables := ts } o) :
    s.Holds o ∧ (Function.update s.sessions o' x o).id = (s.sessions o).id := by
  have hsame := field_update AdminSession.id hid o
  simp only [Admin.Holds, hsame] at h
  exact ⟨h, hsame⟩

/-- **A session in a slot after a step was there before**, under the same id, unless the step registered it. -/
theorem sessionStep_holds {s t : Admin} {o : Nat} {a : SessionAct} (hs : sessionStep s a = some t)
    (hnew : a = .register → s.createdCount ≠ o) (ho : t.Holds o) : s.Holds o ∧ (t.sessions o).id = (s.sessions o).id := by
  cases sessionStep_cases hs with
  | findSlot _ | pass _ _ _ | listSessions _ _ | registerTable _ => exact ⟨ho, rfl⟩
  | register _ =>
    have hne : o ≠ s.createdCount := fun heq => hnew rfl heq.symm
    simp only [Admin.Holds, Function.update_of_ne hne, Function.update_apply] at ho ⊢
    split at ho
    · exact absurd (Option.some.inj ho).symm hne
    · exact ⟨ho, trivial⟩
  | @subscribe o' _ _ _ _ _ => exact Admin.Holds.of_record (x := { s.sessions o' with logonReceived := true }) rfl ho
  | @logon o' _ _ _ _ => exact Admin.Holds.of_record (x := { s.sessions o' with logonReceived := true }) rfl ho
  | @unsubscribeAll o' _ _ _ => exact Admin.Holds.of_record (x := { s.sessions o' with phase := .unsubscribed }) rfl ho
  | @freeSlot o' _ _ =>
    have hid : ∀ o'', (Function.update s.sessions o' { s.sessions o' with phase := .closed } o'').id =
        (s.sessions o'').id := field_update AdminSession.id rfl
    simp only [Admin.Holds, hid] at ho ⊢
    rw [Function.update_apply] at ho
    split at ho
    · cases ho
    · exact ⟨ho, trivial⟩

theorem mem_sessionList_of_holds {s : Admin} (h : s.Inv) {o : Nat} (ho : s.Holds o) :
    (⟨(s.sessions o).id, o⟩ : Subscriber) ∈ sessionList s := by
  have hid : (s.sessions o).id < sessionRegSize := Nat.lt_succ_of_le (h.ids o (h.slot _ o ho).1).2
  refine List.mem_filterMap.2 ⟨(s.sessions o).id, List.mem_range.2 hid, ?_⟩
  rw [ho]
  rfl

/-- **A step's entries are of other sessions**, where the session has opted out and no list is made with it. -/
theorem added_apart {s t : Admin} (h : s.Inv) {o : Nat} {a : SessionAct} (hout : OptsOut o (.session a))
    (hlist : ∀ table, a = .listSessions table → ¬ s.Holds o) (hs : sessionStep s a = some t) :
    ∀ e ∈ added s a, e.holder ≠ o ∧ (s.Holds o → e.sid ≠ (s.sessions o).id) := by
  intro e he
  unfold added at he
  split at he
  · split at he
    · rename_i o' m hauto
      rw [List.mem_singleton.1 he]
      have hne : o' ≠ o := by
        intro heq
        rw [autosubscribes, Bool.and_eq_true, beq_iff_eq, Bool.not_eq_true'] at hauto
        rw [hout heq hauto.1] at hauto
        cases hauto.2
      refine ⟨hne, fun ho => ?_⟩
      have hg : o' < s.createdCount ∧ (s.sessions o').phase = .valid := by
        cases sessionStep_cases hs with
        | subscribe hlt hvalid _ _ | logon hlt hvalid _ | pass hlt hvalid _ => exact ⟨hlt, hvalid⟩
      refine h.id_ne hne hg.1 ?_ ho
      rw [hg.2]
      simp
    · cases he
  · obtain ⟨i, hi, -⟩ := mem_sessionList he
    have hno := hlist _ rfl
    refine ⟨?_, fun ho => absurd ho hno⟩
    rintro rfl
    obtain ⟨-, hid, -⟩ := h.slot i _ hi
    exact hno (by rw [Admin.Holds, hid, hi])
  · cases he

/-! ### What the steps of the publications do to it -/

/-- A session step that does not register the session. -/
theorem LeftAlone.session {s : Publisher} {o : Nat} {a : SessionAct} {admin : Admin} (h : s.admin.Inv)
    (halone : LeftAlone o s) (hout : OptsOut o (.session a)) (hlist : ∀ table, a = .listSessions table → ¬ s.admin.Holds o)
    (hnew : a = .register → s.admin.createdCount ≠ o) (hs : sessionStep s.admin a = some admin) :
    LeftAlone o { s with admin := admin, sending := s.sending ++ [announced s.admin a] } := by
  have hadded := added_apart h hout hlist hs
  refine ⟨fun e he => ?_, fun ho l hl hmem => ?_, halone.sent⟩
  · obtain ⟨hholder, hsid⟩ : e.holder ≠ o ∧ (s.admin.Holds o → e.sid ≠ (s.admin.sessions o).id) := by
      rcases sessionStep_entry hs he with he | he
      · exact halone.unlisted e he
      · exact hadded e he
    refine ⟨hholder, fun ho => ?_⟩
    obtain ⟨ho', hid⟩ := sessionStep_holds hs hnew ho
    rw [hid]
    exact hsid ho'
  · obtain ⟨ho', hid⟩ := sessionStep_holds hs hnew ho
    simp only [hid] at hmem
    rcases List.mem_append.1 hl with hl | hl
    · exact halone.sending ho' l hl hmem
    · rw [List.mem_singleton.1 hl] at hmem
      obtain ⟨e, he, hsid⟩ := mem_announced hmem
      exact (hadded e he).2 ho' hsid

/-- **A session is left alone in a new slot** just if nothing names the slot. -/
theorem leftAlone_register_iff {s : Publisher} {o i : Nat} {admin : Admin} (halone : LeftAlone o s)
    (hnew : s.admin.createdCount = o) (hi : s.admin.claimed = some i)
    (hs : sessionStep s.admin .register = some admin) :
    LeftAlone o { s with admin := admin, sending := s.sending ++ [announced s.admin .register] } ↔
      (∀ t ∈ s.admin.tables ++ s.admin.creating.toList, i ∉ t.2.map Subscriber.sid) ∧ ∀ l ∈ s.sending, i ∉ l := by
  simp only [sessionStep, hi, Option.some.injEq] at hs
  subst hs hnew
  have hid : (Function.update s.admin.sessions s.admin.createdCount ⟨i, false, .valid⟩ s.admin.createdCount).id = i := by
    rw [Function.update_self]
  constructor
  · intro hal
    have ho : Function.update s.admin.reg i (some s.admin.createdCount)
        (Function.update s.admin.sessions s.admin.createdCount ⟨i, false, .valid⟩ s.admin.createdCount).id =
          some s.admin.createdCount := by
      rw [hid, Function.update_self]
    refine ⟨fun t ht hmem => ?_, fun l hl => ?_⟩
    · obtain ⟨e, he, hsid⟩ := List.mem_map.1 hmem
      refine (hal.unlisted e ⟨t, ht, he⟩).2 ho ?_
      rw [hid, hsid]
    · have hmem := hal.sending ho l (List.mem_append_left _ hl)
      rwa [hid] at hmem
  · rintro ⟨hentry, hsending⟩
    refine ⟨fun e he => ⟨(halone.unlisted e he).1, fun _ => ?_⟩, fun _ l hl => ?_, halone.sent⟩
    · obtain ⟨t, ht, he⟩ := he
      simp only [hid]
      rintro rfl
      exact hentry t ht (List.mem_map_of_mem he)
    · simp only [hid]
      rcases List.mem_append.1 hl with hl | hl
      · exact hsending l hl
      · rw [List.mem_singleton.1 hl]
        exact List.not_mem_nil

/-- **A session that lists the sessions with ours among them** gives ours to a table. -/
theorem not_leftAlone_listSessions {s : Publisher} {o : Nat} {table : Bytes} {admin : Admin} (h : s.admin.Inv)
    (ho : s.admin.Holds o) (hs : sessionStep s.admin (.listSessions table) = some admin) {sending : List (List Nat)} :
    ¬ LeftAlone o { s with admin := admin, sending := sending } := by
  intro hal
  simp only [sessionStep] at hs
  split at hs
  · cases hs
    refine (hal.unlisted ⟨(s.admin.sessions o).id, o⟩ ⟨(table, sessionList s.admin), ?_, ?_⟩).1 rfl
    · rw [List.mem_append, Option.mem_toList]
      exact .inr rfl
    · simp only
      exact mem_sessionList_of_holds h ho
  · cases hs

theorem Publisher.mem_copySubscribers {f : Nat → Bool} {t : Subscriptions} {sid : Nat} (h : sid ∈ copySubscribers f t) :
    ∃ e ∈ t.2, e.sid = sid :=
  List.mem_map.1 (List.mem_of_mem_filter h)

/-- **One step**: the session stays left alone just if the step meets the condition. -/
theorem publicationStep_leftAlone {s t : Publisher} {o : Nat} (h : s.admin.Inv) : ∀ {a : PublicationAct}, OptsOut o a →
    LeftAlone o s → publicationStep s a = some t → (LeftAlone o t ↔ Apart o s a)
  | .session a, hout, halone, hs => by
    obtain ⟨admin, hadmin, rfl⟩ := Option.map_eq_some_iff.1 hs
    unfold Apart
    split
    · rename_i ha
      cases ha
      by_cases hnew : s.admin.createdCount = o
      · cases hc : s.admin.claimed with
        | none =>
          simp only [sessionStep, hc] at hadmin
          cases hadmin
        | some i =>
          rw [leftAlone_register_iff halone hnew hc hadmin]
          exact ⟨fun hfree _ i' hi' => Option.some.inj hi' ▸ hfree, fun hall => hall hnew i rfl⟩
      · refine iff_of_true ?_ (fun heq => absurd heq hnew)
        exact halone.session h hout (fun _ he => by cases he) (fun _ => hnew) hadmin
    · rename_i table ha
      cases ha
      refine ⟨fun hal ho => not_leftAlone_listSessions h ho hadmin hal, fun hno => ?_⟩
      exact halone.session h hout (fun _ _ => hno) (fun he => by cases he) hadmin
    · rename_i hreg hlist
      refine iff_of_true ?_ trivial
      exact halone.session h hout (fun table ha => (hlist table (by rw [ha])).elim) (fun ha => (hreg (by rw [ha])).elim)
        hadmin
  | .publish table sessionExists messages, _, halone, hs => by
    refine iff_of_true ?_ trivial
    simp only [publicationStep] at hs
    split at hs
    · cases hs
    · rename_i t₀ hfind
      cases hs
      refine ⟨halone.unlisted, fun ho l hl hmem => ?_, halone.sent⟩
      rcases List.mem_append.1 hl with hl | hl
      · exact halone.sending ho l hl hmem
      · rw [List.mem_singleton.1 hl, List.mem_flatten] at hmem
        obtain ⟨l', hl', hmem⟩ := hmem
        rw [List.eq_of_mem_replicate hl'] at hmem
        obtain ⟨e, he, hsid⟩ := Publisher.mem_copySubscribers hmem
        have hentry : s.admin.Entry e := ⟨t₀, List.mem_append_left _ (List.mem_of_find?_eq_some hfind), he⟩
        exact (halone.unlisted e hentry).2 ho hsid
  | .sendOne thread isOpen, _, halone, hs => by
    refine iff_of_true ?_ trivial
    simp only [publicationStep] at hs
    split at hs
    · rename_i sid rest hget
      cases hs
      have hmem : sid :: rest ∈ s.sending := List.mem_of_getElem? hget
      refine ⟨halone.unlisted, fun ho l hl hid => ?_, ?_⟩
      · rcases List.mem_or_eq_of_mem_set hl with hl | rfl
        · exact halone.sending ho l hl hid
        · exact halone.sending ho _ hmem (List.mem_cons_of_mem _ hid)
      · -- whoever holds the slot of an id on the way is another session
        have hother : s.admin.reg sid ≠ some o := by
          intro hreg
          obtain ⟨-, hid, -⟩ := h.slot sid o hreg
          have ho : s.admin.Holds o := by rw [Admin.Holds, hid, hreg]
          exact halone.sending ho _ hmem (by rw [hid]; exact List.mem_cons_self)
        simp only
        split
        · rw [List.mem_append, Option.mem_toList]
          exact fun hor => hor.elim halone.sent hother
        · exact halone.sent
    · cases hs

theorem publicationStep_inv {s t : Publisher} (h : s.admin.Inv) : ∀ {a : PublicationAct}, publicationStep s a = some t →
    t.admin.Inv
  | .session a, hs => by
    obtain ⟨admin, hadmin, rfl⟩ := Option.map_eq_some_iff.1 hs
    exact sessionStep_inv h hadmin
  | .publish .., hs => by
    simp only [publicationStep] at hs
    split at hs
    · cases hs
    · cases hs
      exact h
  | .sendOne .., hs => by
    simp only [publicationStep] at hs
    split at hs
    · cases hs
      exact h
    · cases hs

theorem leftAlone_new (o : Nat) : LeftAlone o .new :=
  ⟨fun _ he => (by obtain ⟨_, ht, -⟩ := he; cases ht), fun _ _ hl => (by cases hl), List.not_mem_nil⟩

/-- **A session that asked for no automatic subscription is left alone throughout a run** — no table lists it, existing or
being created, no message of a table is on its way to its id, and it was sent none — if and only if nothing named its slot
when it got it, and no table was created while it was registered. -/
theorem noautosub_leftAlone (o : Nat) (as : List PublicationAct) (hout : ∀ a ∈ as, OptsOut o a) :
    Steps.Throughout publicationStep (LeftAlone o) .new as ↔ Steps.EachStep publicationStep (Apart o) .new as :=
  Steps.throughout_iff (I := fun s => s.admin.Inv) (P := LeftAlone o) (C := Apart o) (A := OptsOut o)
    (fun h _ hst => publicationStep_inv h hst) (fun h ha halone hst => publicationStep_leftAlone h ha halone hst)
    as hout Admin.new_inv (leftAlone_new o)

/-- A logon message with the flag. -/
def sampleOptOut : TxMessage := ⟨Id.msgLogon, [.container Id.head [.field Id.noautosub Id.true_]]⟩

/-- A session subscribes to the one table; then another logs on with the flag, and the table is updated. -/
def sampleApart : List PublicationAct :=
  [.session .findSlot, .session .register, .session (.onMsg 0 sampleLogon), .session (.listSessions sampleTable),
    .session .registerTable, .sendOne 3 true, .sendOne 3 true, .session .findSlot, .session .register,
    .session (.onMsg 1 sampleOptOut), .publish sampleTable (fun _ => true) 1, .sendOne 8 true]

theorem noautosub_leftAlone_sample : Steps.Throughout publicationStep (LeftAlone 1) .new sampleApart := by
  have hrun : (Steps.runIf publicationStep (Apart 1) .new sampleApart).isSome = true := by decide +kernel
  obtain ⟨t, ht⟩ := Option.isSome_iff_exists.1 hrun
  refine (noautosub_leftAlone 1 sampleApart ?_).2 (Steps.eachStep_of_runIf _ ht)
  decide +kernel

/-- A session logs on with the flag, and then a table is created and updated. -/
def sampleIgnored : List PublicationAct :=
  [.session .findSlot, .session .register, .session (.onMsg 0 sampleOptOut), .session (.listSessions sampleTable),
    .sendOne 3 true, .sendOne 3 true, .session .registerTable, .publish sampleTable (fun _ => true) 1, .sendOne 5 true]

/-- The new table lists the session, and it is sent the description, the snapshot and the update. -/
theorem noautosub_ignored : (∀ a ∈ sampleIgnored, OptsOut 0 a) ∧
    ∃ s, Steps.run publicationStep .new sampleIgnored = some s ∧ s.admin.tables = [(sampleTable, [⟨1, 0⟩])] ∧
      s.sent = [0, 0, 0] := by
  have hrun : (Steps.run publicationStep .new sampleIgnored).map (fun s => (s.admin.tables, s.sent)) =
      some ([(sampleTable, [⟨1, 0⟩])], [0, 0, 0]) := by decide +kernel
  obtain ⟨s, hs, ht⟩ := Option.map_eq_some_iff.1 hrun
  rw [Prod.mk.injEq] at ht
  refine ⟨?_, s, hs, ht⟩
  decide +kernel

end Exio
