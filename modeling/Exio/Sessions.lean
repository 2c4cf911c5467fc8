import Mathlib.Logic.Function.Basic
import Mathlib.Data.List.Nodup
import Mathlib.Data.List.Range
import Exio.Registry
import Exio.Sam
/-!
# Sessions — the session registry and the subscriptions of the tables

An `AdminInterfaceImpl` keeps its sessions in an array of slots; the session id (`SID`) is the slot's index and is used again
when the slot is.  A table keeps the ids of its subscribers.  A session is subscribed from two places: to all tables when its
logon message is handled (`Monitor::subscribe_all`), and to a new table when the table is created
(`create_table_NOLOCK`).  `session_closed` takes it from all tables and then frees its slot, in two critical sections.

A step is one critical section.  The creation of a table holds the monitor's mutex from the list of the sessions to the
registration of the table, while the registry can change; `createNewSession` holds its own lock from the search for a slot
to the claim.  A session object is named by the number of sessions created before it; a subscription records the object it
was made for, which the program does not.
-/
namespace Exio

open Sam

/-! ## The identifiers of the messages -/

namespace Id

def head       : Bytes := ascii "head"
def body       : Bytes := ascii "body"
def noautosub  : Bytes := ascii "noautosub"
def msgLogon   : Bytes := ascii "logon"
def msgRequest : Bytes := ascii "request"
def true_      : Bytes := ascii "1"
def false_     : Bytes := ascii "0"

def qnNoautosub : List Bytes := [head, noautosub]

end Id

def maxSessions : Nat := 2000

def sessionRegSize : Nat := maxSessions + 1

/-! ## The state -/

/-- How far the closing of a session is. -/
inductive SessionPhase where
  | valid
  | unsubscribed
  | closed
deriving DecidableEq

structure AdminSession where
  id            : Nat
  logonReceived : Bool
  phase         : SessionPhase
deriving DecidableEq

/-- An entry of `m_subscribers`, with the session it was made for. -/
structure Subscriber where
  sid    : Nat
  holder : Nat
deriving DecidableEq

abbrev Subscriptions := Bytes × List Subscriber

/-- The registry (`m_sessions`), the session objects, and the tables of the monitor.  `claimed` is the slot a thread in
`createNewSession` found, and `creating` the table whose creation holds the monitor's mutex, with the sessions listed. -/
structure Admin where
  reg          : Nat → Option Nat
  next         : Nat
  createdCount : Nat
  sessions     : Nat → AdminSession
  tables       : List Subscriptions
  claimed      : Option Nat
  creating     : Option Subscriptions

def Admin.new : Admin := ⟨fun _ => none, 1, 0, fun _ => ⟨0, false, .closed⟩, [], none, none⟩

/-- The search of `createNewSession`: the index found, or 0, and `m_sessions.next`. -/
def findSlot : (Nat → Option Nat) → Nat → Nat → Nat × Nat := searchSlot maxSessions

def addSubscriber (e : Subscriber) (t : Subscriptions) : Subscriptions := (t.1, t.2 ++ [e])

/-- `del_subscriber`: the first entry with that id. -/
def delSubscriber (sid : Nat) (t : Subscriptions) : Subscriptions := (t.1, t.2.eraseP (fun e => e.sid = sid))

def subscribeAll (e : Subscriber) (ts : List Subscriptions) : List Subscriptions := ts.map (addSubscriber e)

def unsubscribeAll (sid : Nat) (ts : List Subscriptions) : List Subscriptions := ts.map (delSubscriber sid)

/-- `session_list`. -/
def sessionList (s : Admin) : List Subscriber :=
  (List.range sessionRegSize).filterMap fun i => (s.reg i).map fun o => ⟨(s.sessions o).id, o⟩

/-- Whether a message makes `session_msg_received` subscribe its session to all tables. -/
def autosubscribes (m : TxMessage) : Bool := m.type == Id.msgLogon && !checkFieldQ Id.qnNoautosub Id.true_ m.root

inductive SessionAct where
  | findSlot
  | register
  | onMsg (o : Nat) (m : TxMessage)
  | listSessions (table : Bytes)
  | registerTable
  | unsubscribeAll (o : Nat)
  | freeSlot (o : Nat)
deriving DecidableEq

/-- **One step of one thread.** -/
def sessionStep (s : Admin) : SessionAct → Option Admin
  | .findSlot =>
    if s.claimed = none then
      let r := findSlot s.reg sessionRegSize s.next
      -- index 0 is the error of a full registry
      some { s with next := r.2, claimed := if r.1 = 0 then none else some r.1 }
    else none
  | .register =>
    match s.claimed with
    | none   => none
    | some i =>
      some { s with reg := Function.update s.reg i (some s.createdCount),
                    sessions := Function.update s.sessions s.createdCount ⟨i, false, .valid⟩,
                    createdCount := s.createdCount + 1, claimed := none }
  | .onMsg o m =>
    if o < s.createdCount ∧ (s.sessions o).phase = .valid then
      if m.type = Id.msgLogon then
        if autosubscribes m then
          if s.creating = none then
            some { s with sessions := Function.update s.sessions o { s.sessions o with logonReceived := true },
                          tables := subscribeAll ⟨(s.sessions o).id, o⟩ s.tables }
          else none
        else some { s with sessions := Function.update s.sessions o { s.sessions o with logonReceived := true } }
      else some s
    else none
  | .listSessions table =>
    if s.creating = none ∧ table ∉ s.tables.map Prod.fst then some { s with creating := some (table, sessionList s) }
    else none
  | .registerTable =>
    match s.creating with
    | none   => none
    | some t => some { s with tables := s.tables ++ [t], creating := none }
  | .unsubscribeAll o =>
    if o < s.createdCount ∧ (s.sessions o).phase = .valid ∧ s.creating = none then
      some { s with sessions := Function.update s.sessions o { s.sessions o with phase := .unsubscribed },
                    tables := unsubscribeAll (s.sessions o).id s.tables }
    else none
  | .freeSlot o =>
    if o < s.createdCount ∧ (s.sessions o).phase = .unsubscribed then
      some { s with sessions := Function.update s.sessions o { s.sessions o with phase := .closed },
                    reg := Function.update s.reg (s.sessions o).id none }
    else none

/-- The steps one by one, with what is known where each is taken. -/
inductive SessionStep (s : Admin) : SessionAct → Admin → Prop
  | findSlot (hclaimed : s.claimed = none) :
    SessionStep s .findSlot { s with
      next    := (findSlot s.reg sessionRegSize s.next).2
      claimed := if (findSlot s.reg sessionRegSize s.next).1 = 0 then none
                 else some (findSlot s.reg sessionRegSize s.next).1 }
  | register {i : Nat} (hclaimed : s.claimed = some i) :
    SessionStep s .register { s with
      reg          := Function.update s.reg i (some s.createdCount)
      sessions     := Function.update s.sessions s.createdCount ⟨i, false, .valid⟩
      createdCount := s.createdCount + 1
      claimed      := none }
  | subscribe {o : Nat} {m : TxMessage} (hlt : o < s.createdCount) (hvalid : (s.sessions o).phase = .valid)
    (hauto : autosubscribes m = true) (hidle : s.creating = none) :
    SessionStep s (.onMsg o m) { s with
      sessions := Function.update s.sessions o { s.sessions o with logonReceived := true }
      tables   := subscribeAll ⟨(s.sessions o).id, o⟩ s.tables }
  | logon {o : Nat} {m : TxMessage} (hlt : o < s.createdCount) (hvalid : (s.sessions o).phase = .valid)
    (hauto : ¬ autosubscribes m = true) :
    SessionStep s (.onMsg o m) { s with
      sessions := Function.update s.sessions o { s.sessions o with logonReceived := true } }
  | pass {o : Nat} {m : TxMessage} (hlt : o < s.createdCount) (hvalid : (s.sessions o).phase = .valid)
    (htype : m.type ≠ Id.msgLogon) : SessionStep s (.onMsg o m) s
  | listSessions {table : Bytes} (hidle : s.creating = none) (hnew : table ∉ s.tables.map Prod.fst) :
    SessionStep s (.listSessions table) { s with creating := some (table, sessionList s) }
  | registerTable {t : Subscriptions} (hcreating : s.creating = some t) :
    SessionStep s .registerTable { s with tables := s.tables ++ [t], creating := none }
  | unsubscribeAll {o : Nat} (hlt : o < s.createdCount) (hvalid : (s.sessions o).phase = .valid)
    (hidle : s.creating = none) :
    SessionStep s (.unsubscribeAll o) { s with
      sessions := Function.update s.sessions o { s.sessions o with phase := .unsubscribed }
      tables   := unsubscribeAll (s.sessions o).id s.tables }
  | freeSlot {o : Nat} (hlt : o < s.createdCount) (hphase : (s.sessions o).phase = .unsubscribed) :
    SessionStep s (.freeSlot o) { s with
      sessions := Function.update s.sessions o { s.sessions o with phase := .closed }
      reg      := Function.update s.reg (s.sessions o).id none }

/-- **What a step can do.** -/
theorem sessionStep_cases {s t : Admin} {a : SessionAct} (hs : sessionStep s a = some t) : SessionStep s a t := by
  unfold sessionStep at hs
  split at hs
  · split at hs
    · rename_i hclaimed
      cases hs
      exact .findSlot hclaimed
    · cases hs
  · split at hs
    · cases hs
    · rename_i i hclaimed
      cases hs
      exact .register hclaimed
  · split at hs
    · rename_i hg
      split at hs
      · split at hs
        · rename_i hauto
          split at hs
          · rename_i hidle
            cases hs
            exact .subscribe hg.1 hg.2 hauto hidle
          · cases hs
        · rename_i hauto
          cases hs
          exact .logon hg.1 hg.2 hauto
      · rename_i htype
        cases hs
        exact .pass hg.1 hg.2 htype
    · cases hs
  · split at hs
    · rename_i hg
      cases hs
      exact .listSessions hg.1 hg.2
    · cases hs
  · split at hs
    · cases hs
    · rename_i t₀ hcreating
      cases hs
      exact .registerTable hcreating
  · split at hs
    · rename_i hg
      cases hs
      exact .unsubscribeAll hg.1 hg.2.1 hg.2.2
    · cases hs
  · split at hs
    · rename_i hg
      cases hs
      exact .freeSlot hg.1 hg.2
    · cases hs

/-! ## What holds in every run -/

/-- An entry names the id of the session it was made for. -/
def Admin.Names (s : Admin) (e : Subscriber) : Prop := e.holder < s.createdCount ∧ e.sid = (s.sessions e.holder).id

/-- The ids are indices of slots, and a slot in use holds a session of its id that is not closed. -/
structure Admin.Inv (s : Admin) : Prop where
  next    : s.next ≤ maxSessions
  ids     : ∀ o, o < s.createdCount → 0 < (s.sessions o).id ∧ (s.sessions o).id ≤ maxSessions
  slot    : ∀ i o, s.reg i = some o → o < s.createdCount ∧ (s.sessions o).id = i ∧ (s.sessions o).phase ≠ .closed
  live    : ∀ o, o < s.createdCount → (s.sessions o).phase ≠ .closed → s.reg (s.sessions o).id = some o
  claimed : ∀ i, s.claimed = some i → 0 < i ∧ i ≤ maxSessions ∧ s.reg i = none
  tables  : ∀ t ∈ s.tables, ∀ e ∈ t.2, s.Names e
  pending : ∀ t, s.creating = some t → ∀ e ∈ t.2, s.Names e

theorem Admin.new_inv : Admin.new.Inv where
  next := by decide
  ids _ h := absurd h (Nat.not_lt_zero _)
  slot _ _ h := by cases h
  live _ h := absurd h (Nat.not_lt_zero _)
  claimed _ h := by cases h
  tables _ h := by cases h
  pending _ h := by cases h

/-- **The registry of `Registry`**, with the ids and the closed sessions as the session objects have them. -/
def Admin.slots (s : Admin) : Slots :=
  { reg          := s.reg
    next         := s.next
    createdCount := s.createdCount
    id           := AdminSession.id ∘ s.sessions
    closed       := (fun x => decide (x.phase = .closed)) ∘ s.sessions
    claimed      := s.claimed }

theorem Admin.Inv.slots {s : Admin} (h : s.Inv) : s.slots.Inv maxSessions where
  next := h.next
  ids := h.ids
  slot i o hi := by
    obtain ⟨h1, h2, h3⟩ := h.slot i o hi
    exact ⟨h1, h2, decide_eq_false h3⟩
  live o ho hopen := h.live o ho (of_decide_eq_false hopen)
  claimed := h.claimed

theorem Slots.Inv.admin {s : Admin} (h : s.slots.Inv maxSessions) (htables : ∀ t ∈ s.tables, ∀ e ∈ t.2, s.Names e)
    (hpending : ∀ t, s.creating = some t → ∀ e ∈ t.2, s.Names e) : s.Inv where
  next := h.next
  ids := h.ids
  slot i o hi := by
    obtain ⟨h1, h2, h3⟩ := h.slot i o hi
    exact ⟨h1, h2, of_decide_eq_false h3⟩
  live o ho hopen := h.live o ho (decide_eq_false hopen)
  claimed := h.claimed
  tables := htables
  pending := hpending

theorem Admin.slots_findSlot (s : Admin) :
    ({ s with next    := (findSlot s.reg sessionRegSize s.next).2
              claimed := if (findSlot s.reg sessionRegSize s.next).1 = 0 then none
                         else some (findSlot s.reg sessionRegSize s.next).1 } : Admin).slots = s.slots.claim maxSessions := by
  have hsearch : findSlot s.reg sessionRegSize s.next = s.slots.search maxSessions := rfl
  rw [Slots.claim, Slots.toOption_findSlot, ← hsearch]
  rfl

theorem Admin.slots_register (s : Admin) (i : Nat) :
    ({ s with reg := Function.update s.reg i (some s.createdCount)
              sessions := Function.update s.sessions s.createdCount ⟨i, false, .valid⟩
              createdCount := s.createdCount + 1, claimed := none } : Admin).slots = s.slots.register i := by
  simp only [Admin.slots, Slots.register, Function.comp_update]
  rfl

/-- A session's record changes, but for its id and whether it is closed. -/
theorem Admin.slots_record {s : Admin} {o : Nat} {x : AdminSession} (hid : x.id = (s.sessions o).id)
    (hphase : x.phase ≠ .closed ↔ (s.sessions o).phase ≠ .closed) (ts : List Subscriptions) :
    ({ s with sessions := Function.update s.sessions o x, tables := ts } : Admin).slots = s.slots := by
  have hdec : decide (x.phase = .closed) = decide ((s.sessions o).phase = .closed) := decide_eq_decide.2 (not_iff_not.1 hphase)
  simp only [Admin.slots, Function.comp_update, hid, hdec]
  congr 1
  · exact Function.update_eq_self o _
  · exact Function.update_eq_self o _

theorem Admin.slots_freeSlot (s : Admin) (o : Nat) :
    ({ s with sessions := Function.update s.sessions o { s.sessions o with phase := .closed }
              reg := Function.update s.reg (s.sessions o).id none } : Admin).slots = s.slots.free o := by
  simp only [Admin.slots, Slots.free, Function.comp_update, decide_true]
  congr 1
  exact Function.update_eq_self o _

theorem Admin.Names.mono {s t : Admin} {e : Subscriber} (h : s.Names e) (hcount : s.createdCount ≤ t.createdCount)
    (hid : ∀ o, o < s.createdCount → (t.sessions o).id = (s.sessions o).id) : t.Names e :=
  ⟨Nat.lt_of_lt_of_le h.1 hcount, h.2.trans (hid e.holder h.1).symm⟩

/-- A session's record changes, and something of it does not. -/
theorem field_update {α : Type} (g : AdminSession → α) {f : Nat → AdminSession} {o : Nat} {x : AdminSession}
    (h : g x = g (f o)) (o' : Nat) : g (Function.update f o x o') = g (f o') := by
  rw [Function.update_apply]
  split
  · rename_i ho
    rw [ho, h]
  · rfl

theorem mem_sessionList {s : Admin} {e : Subscriber} (h : e ∈ sessionList s) :
    ∃ i, s.reg i = some e.holder ∧ e.sid = (s.sessions e.holder).id := by
  obtain ⟨i, -, hi⟩ := List.mem_filterMap.1 h
  obtain ⟨o, ho, rfl⟩ := Option.map_eq_some_iff.1 hi
  exact ⟨i, ho, rfl⟩

/-- The session of a new table's list are registered. -/
theorem Admin.Inv.sessionList {s : Admin} (h : s.Inv) {e : Subscriber} (he : e ∈ sessionList s) : s.Names e := by
  obtain ⟨i, hi, hid⟩ := mem_sessionList he
  exact ⟨(h.slot i _ hi).1, hid⟩

theorem mem_subscribeAll {e : Subscriber} {ts : List Subscriptions} {t : Subscriptions} (h : t ∈ subscribeAll e ts) :
    ∃ t' ∈ ts, t = (t'.1, t'.2 ++ [e]) := by
  obtain ⟨t', ht', rfl⟩ := List.mem_map.1 h
  exact ⟨t', ht', rfl⟩

theorem mem_unsubscribeAll {sid : Nat} {ts : List Subscriptions} {t : Subscriptions} (h : t ∈ unsubscribeAll sid ts) :
    ∃ t' ∈ ts, t = (t'.1, t'.2.eraseP (fun e => e.sid = sid)) := by
  obtain ⟨t', ht', rfl⟩ := List.mem_map.1 h
  exact ⟨t', ht', rfl⟩

/-- A step that changes a session's record but for its id, and perhaps the entries of the tables. -/
theorem Admin.Inv.record {s : Admin} (h : s.Inv) {o : Nat} {x : AdminSession} (hid : x.id = (s.sessions o).id)
    (hphase : x.phase ≠ .closed ↔ (s.sessions o).phase ≠ .closed) {ts : List Subscriptions}
    (hts : ∀ t ∈ ts, ∀ e ∈ t.2, s.Names e) :
    ({ s with sessions := Function.update s.sessions o x, tables := ts } : Admin).Inv := by
  have hnames : ∀ e, s.Names e → Admin.Names { s with sessions := Function.update s.sessions o x, tables := ts } e :=
    fun e he => he.mono (Nat.le_refl _) (fun o' _ => field_update AdminSession.id hid o')
  have hslots : Admin.slots { s with sessions := Function.update s.sessions o x, tables := ts } = s.slots :=
    Admin.slots_record hid hphase ts
  exact Slots.Inv.admin (hslots ▸ h.slots) (fun t ht e he => hnames e (hts t ht e he))
    (fun t ht e he => hnames e (h.pending t ht e he))

theorem sessionStep_inv {s t : Admin} (h : s.Inv) {a : SessionAct} (hs : sessionStep s a = some t) : t.Inv := by
  cases sessionStep_cases hs with
  | findSlot _ => exact Slots.Inv.admin (s.slots_findSlot ▸ h.slots.claim) h.tables h.pending
  | @register i hclaimed =>
    have hnames : ∀ e, s.Names e → Admin.Names { s with
        reg          := Function.update s.reg i (some s.createdCount)
        sessions     := Function.update s.sessions s.createdCount ⟨i, false, .valid⟩
        createdCount := s.createdCount + 1
        claimed      := none } e :=
      fun e he => he.mono (Nat.le_succ _) (fun o ho => by simp only [Function.update_of_ne (Nat.ne_of_lt ho)])
    exact Slots.Inv.admin (s.slots_register i ▸ h.slots.register hclaimed) (fun t ht e he => hnames e (h.tables t ht e he))
      (fun t ht e he => hnames e (h.pending t ht e he))
  | @subscribe o m hlt _ _ _ =>
    refine h.record (x := { s.sessions o with logonReceived := true }) rfl Iff.rfl (fun t ht e he => ?_)
    obtain ⟨t', ht', rfl⟩ := mem_subscribeAll ht
    rcases List.mem_append.1 he with he | he
    · exact h.tables t' ht' e he
    · rw [List.mem_singleton.1 he]
      exact ⟨hlt, rfl⟩
  | @logon o m _ _ _ => exact h.record (x := { s.sessions o with logonReceived := true }) rfl Iff.rfl h.tables
  | pass _ _ _ => exact h
  | listSessions _ _ =>
    refine ⟨h.next, h.ids, h.slot, h.live, h.claimed, h.tables, fun t ht e he => ?_⟩
    rw [← Option.some.inj ht] at he
    simp only at he
    exact h.sessionList he
  | @registerTable t₀ hcreating =>
    refine { h with tables := fun t ht e he => ?_, pending := fun t ht => by cases ht }
    rcases List.mem_append.1 ht with ht | ht
    · exact h.tables t ht e he
    · rw [List.mem_singleton.1 ht] at he
      exact h.pending t₀ hcreating e he
  | @unsubscribeAll o _ hvalid _ =>
    refine h.record (x := { s.sessions o with phase := .unsubscribed }) rfl
      ⟨fun _ => by rw [hvalid]; simp, fun _ => by simp⟩ (fun t ht e he => ?_)
    obtain ⟨t', ht', rfl⟩ := mem_unsubscribeAll ht
    exact h.tables t' ht' e (List.mem_of_mem_eraseP he)
  | @freeSlot o hlt hphase =>
    have hid : ∀ o', (Function.update s.sessions o { s.sessions o with phase := .closed } o').id = (s.sessions o').id :=
      field_update AdminSession.id rfl
    have hnames : ∀ e, s.Names e → Admin.Names { s with
        sessions := Function.update s.sessions o { s.sessions o with phase := .closed }
        reg      := Function.update s.reg (s.sessions o).id none } e :=
      fun e he => he.mono (Nat.le_refl _) (fun o' _ => hid o')
    have hopen : s.slots.closed o = false := decide_eq_false (by rw [hphase]; simp)
    exact Slots.Inv.admin (s.slots_freeSlot o ▸ h.slots.free hlt hopen) (fun t ht e he => hnames e (h.tables t ht e he))
      (fun t ht e he => hnames e (h.pending t ht e he))

/-- **Every id in a table is the index of a slot**, in every run. -/
theorem Admin.Inv.sid_lt {s : Admin} (h : s.Inv) {t : Subscriptions} (ht : t ∈ s.tables) {e : Subscriber} (he : e ∈ t.2) :
    e.sid < sessionRegSize := by
  obtain ⟨hlt, hid⟩ := h.tables t ht e he
  rw [hid]
  exact Nat.lt_succ_of_le (h.ids e.holder hlt).2

/-! ## What holds in orderly runs -/

/-- **No table lists an id twice, and an id in a table is that of the session holding its slot, the one subscribed.** -/
def Admin.Hygienic (s : Admin) : Prop :=
  ∀ t ∈ s.tables, (t.2.map Subscriber.sid).Nodup ∧ ∀ e ∈ t.2, s.reg e.sid = some e.holder

/-- A logon that subscribes comes from a session that no table lists, and the sessions are not listed for a new table while
one of them is unsubscribed and still in its slot. -/
def Orderly (s : Admin) : SessionAct → Prop
  | .onMsg o m      => autosubscribes m = true → ∀ t ∈ s.tables, (s.sessions o).id ∉ t.2.map Subscriber.sid
  | .listSessions _ => ∀ o, o < s.createdCount → (s.sessions o).phase ≠ .unsubscribed
  | _               => True

instance (s : Admin) : ∀ a, Decidable (Orderly s a)
  | .onMsg o m      => inferInstanceAs (Decidable (autosubscribes m = true → ∀ t ∈ s.tables, (s.sessions o).id ∉ _))
  | .listSessions _ => inferInstanceAs (Decidable (∀ o, o < s.createdCount → (s.sessions o).phase ≠ .unsubscribed))
  | .findSlot | .register | .registerTable | .unsubscribeAll _ | .freeSlot _ => isTrue trivial

/-- Entries of different ids, for sessions that are not closing. -/
def Admin.Clean (s : Admin) (l : List Subscriber) : Prop :=
  (l.map Subscriber.sid).Nodup ∧ ∀ e ∈ l, (s.sessions e.holder).phase = .valid

structure Admin.Tidy (s : Admin) : Prop where
  tables  : ∀ t ∈ s.tables, s.Clean t.2
  pending : ∀ t, s.creating = some t → s.Clean t.2

theorem Admin.new_tidy : Admin.new.Tidy := ⟨fun _ h => (by cases h), fun _ h => (by cases h)⟩

theorem Admin.Clean.mono {s t : Admin} {l : List Subscriber} (h : s.Clean l)
    (hphase : ∀ e ∈ l, (s.sessions e.holder).phase = .valid → (t.sessions e.holder).phase = .valid) : t.Clean l :=
  ⟨h.1, fun e he => hphase e he (h.2 e he)⟩

theorem Admin.Clean.append {s : Admin} {l : List Subscriber} {e : Subscriber} (h : s.Clean l)
    (hnew : e.sid ∉ l.map Subscriber.sid) (hvalid : (s.sessions e.holder).phase = .valid) : s.Clean (l ++ [e]) := by
  constructor
  · rw [List.map_append, List.nodup_append]
    refine ⟨h.1, List.nodup_singleton _, fun a ha b hb => ?_⟩
    rw [List.mem_singleton.1 hb]
    rintro rfl
    exact hnew ha
  · intro e' he'
    rcases List.mem_append.1 he' with he' | he'
    · exact h.2 e' he'
    · rw [List.mem_singleton.1 he']
      exact hvalid

/-- Where no id stands twice, `del_subscriber` leaves no entry with the id. -/
theorem sid_ne_of_mem_eraseP {sid : Nat} : ∀ {l : List Subscriber}, (l.map Subscriber.sid).Nodup → ∀ {e},
    e ∈ l.eraseP (fun e => e.sid = sid) → e.sid ≠ sid
  | [], _, _, he => by cases he
  | x :: l, hnd, e, he => by
    rw [List.map_cons, List.nodup_cons] at hnd
    by_cases hx : x.sid = sid
    · rw [List.eraseP_cons_of_pos (by simpa using hx)] at he
      intro hsid
      exact hnd.1 (List.mem_map.2 ⟨e, he, hsid.trans hx.symm⟩)
    · rw [List.eraseP_cons_of_neg (by simpa using hx)] at he
      rcases List.mem_cons.1 he with rfl | he
      · exact hx
      · exact sid_ne_of_mem_eraseP hnd.2 he

theorem Admin.Inv.nodup_sessionList {s : Admin} (h : s.Inv) : ((Exio.sessionList s).map Subscriber.sid).Nodup := by
  unfold Exio.sessionList
  rw [List.map_filterMap]
  refine List.Nodup.filterMap (fun i i' b hb hb' => ?_) List.nodup_range
  have hsid : ∀ i, b ∈ (Option.map Subscriber.sid
      ((s.reg i).map fun o => (⟨(s.sessions o).id, o⟩ : Subscriber))) → i = b := by
    intro i hi
    rw [Option.map_map, Option.mem_def, Option.map_eq_some_iff] at hi
    obtain ⟨o, ho, hob⟩ := hi
    exact (h.slot i o ho).2.1.symm.trans hob
  exact (hsid i hb).trans (hsid i' hb').symm

/-- **An orderly step keeps the entries clean.** -/
theorem sessionStep_tidy {s t : Admin} (h : s.Inv) (htidy : s.Tidy) {a : SessionAct} (hord : Orderly s a)
    (hs : sessionStep s a = some t) : t.Tidy := by
  cases sessionStep_cases hs with
  | findSlot _ => exact ⟨htidy.tables, htidy.pending⟩
  | @register i _ =>
    have hold : ∀ e, s.Names e → (s.sessions e.holder).phase = .valid →
        (Function.update s.sessions s.createdCount ⟨i, false, .valid⟩ e.holder).phase = .valid := by
      intro e he hv
      rw [Function.update_of_ne (Nat.ne_of_lt he.1)]
      exact hv
    exact ⟨fun t ht => (htidy.tables t ht).mono (fun e he => hold e (h.tables t ht e he)),
      fun t ht => (htidy.pending t ht).mono (fun e he => hold e (h.pending t ht e he))⟩
  | @subscribe o m _ hvalid hauto _ =>
    have hsame : ∀ o', (Function.update s.sessions o { s.sessions o with logonReceived := true } o').phase =
        (s.sessions o').phase := field_update AdminSession.phase rfl
    refine ⟨fun t ht => ?_, fun t ht => (htidy.pending t ht).mono (fun e _ hv => (hsame _).trans hv)⟩
    obtain ⟨t', ht', rfl⟩ := mem_subscribeAll ht
    exact ((htidy.tables t' ht').append (hord hauto t' ht') hvalid).mono (fun e _ hv => (hsame _).trans hv)
  | @logon o m _ _ _ =>
    have hsame : ∀ o', (Function.update s.sessions o { s.sessions o with logonReceived := true } o').phase =
        (s.sessions o').phase := field_update AdminSession.phase rfl
    exact ⟨fun t ht => (htidy.tables t ht).mono (fun e _ hv => (hsame _).trans hv),
      fun t ht => (htidy.pending t ht).mono (fun e _ hv => (hsame _).trans hv)⟩
  | pass _ _ _ => exact htidy
  | listSessions _ _ =>
    refine ⟨htidy.tables, fun t ht => ?_⟩
    have hlist : t.2 = sessionList s := by rw [← Option.some.inj ht]
    rw [hlist]
    refine ⟨h.nodup_sessionList, fun e he => ?_⟩
    obtain ⟨i, hi, -⟩ := mem_sessionList he
    obtain ⟨hlt, -, hopen⟩ := h.slot i _ hi
    have hph := hord e.holder hlt
    show (s.sessions e.holder).phase = .valid
    cases hp : (s.sessions e.holder).phase with
    | valid => rfl
    | unsubscribed => exact absurd hp hph
    | closed => exact absurd hp hopen
  | @registerTable t₀ hcreating =>
    refine ⟨fun t ht => ?_, fun t ht => by cases ht⟩
    rcases List.mem_append.1 ht with ht | ht
    · exact htidy.tables t ht
    · rw [List.mem_singleton.1 ht]
      exact htidy.pending t₀ hcreating
  | @unsubscribeAll o _ _ hidle =>
    refine ⟨fun t ht => ?_, fun t ht => ?_⟩
    · obtain ⟨t', ht', rfl⟩ := mem_unsubscribeAll ht
      obtain ⟨hnd, hvalid⟩ := htidy.tables t' ht'
      refine ⟨hnd.sublist (List.eraseP_sublist.map _), fun e he => ?_⟩
      have hin := List.mem_of_mem_eraseP he
      have hne : e.holder ≠ o := by
        rintro rfl
        exact sid_ne_of_mem_eraseP hnd he (h.tables t' ht' e hin).2
      simp only [Function.update_of_ne hne]
      exact hvalid e hin
    · simp only [hidle] at ht
      cases ht
  | @freeSlot o _ hphase =>
    have hkeep : ∀ e : Subscriber, (s.sessions e.holder).phase = .valid →
        (Function.update s.sessions o { s.sessions o with phase := .closed } e.holder).phase = .valid := by
      intro e hv
      rw [Function.update_of_ne]
      · exact hv
      · rintro rfl
        rw [hphase] at hv
        cases hv
    exact ⟨fun t ht => (htidy.tables t ht).mono (fun e _ => hkeep e),
      fun t ht => (htidy.pending t ht).mono (fun e _ => hkeep e)⟩

theorem Admin.Inv.hygienic {s : Admin} (h : s.Inv) (htidy : s.Tidy) : s.Hygienic := by
  intro t ht
  obtain ⟨hnd, hvalid⟩ := htidy.tables t ht
  refine ⟨hnd, fun e he => ?_⟩
  obtain ⟨hlt, hid⟩ := h.tables t ht e he
  rw [hid]
  apply h.live e.holder hlt
  rw [hvalid e he]
  simp

/-- **Subscription hygiene in orderly runs**: the tables are hygienic in every state; no table lists a closed session, nor
its id while the slot is free; and a new session's id is in no table. -/
theorem subscription_hygiene {s : Admin} (hs : Steps.Reaches sessionStep Orderly Admin.new s) :
    s.Hygienic ∧
    (∀ o, o < s.createdCount → (s.sessions o).phase = .closed → ∀ t ∈ s.tables, ∀ e ∈ t.2,
      e.holder ≠ o ∧ (s.reg (s.sessions o).id = none → e.sid ≠ (s.sessions o).id)) ∧
    (∀ i s', s.claimed = some i → sessionStep s .register = some s' →
      ∀ t ∈ s'.tables, i ∉ t.2.map Subscriber.sid) := by
  obtain ⟨h, htidy⟩ : s.Inv ∧ s.Tidy :=
    hs.invariant (P := fun s => s.Inv ∧ s.Tidy) ⟨Admin.new_inv, Admin.new_tidy⟩
      (fun h hord hst => ⟨sessionStep_inv h.1 hst, sessionStep_tidy h.1 h.2 hord hst⟩)
  have hyg := h.hygienic htidy
  have hfree : ∀ i, s.reg i = none → ∀ t ∈ s.tables, ∀ e ∈ t.2, e.sid ≠ i := by
    rintro i hi t ht e he rfl
    have hreg := (hyg t ht).2 e he
    rw [hi] at hreg
    cases hreg
  refine ⟨hyg, fun o _ hclosed t ht e he => ⟨?_, fun hreg => hfree _ hreg t ht e he⟩, fun i s' hi hst t ht hmem => ?_⟩
  · rintro rfl
    have hvalid := (htidy.tables t ht).2 e he
    rw [hclosed] at hvalid
    cases hvalid
  · simp only [sessionStep, hi, Option.some.injEq] at hst
    subst hst
    obtain ⟨e, he, hsid⟩ := List.mem_map.1 hmem
    exact hfree i (h.claimed i hi).2.2 t ht e he hsid

def sampleTable : Bytes := ascii "t"

def sampleLogon : TxMessage := ⟨Id.msgLogon, []⟩

/-- A session logs on, a table is created, the session closes and the next one takes its turn. -/
def sampleOrderly : List SessionAct :=
  [.findSlot, .register, .onMsg 0 sampleLogon, .listSessions sampleTable, .registerTable, .findSlot, .register,
    .onMsg 1 ⟨Id.msgLogon, []⟩, .unsubscribeAll 0, .freeSlot 0]

theorem subscription_hygiene_sample :
    ∃ s, Steps.runIf sessionStep Orderly Admin.new sampleOrderly = some s ∧ s.tables = [(sampleTable, [⟨2, 1⟩])] ∧
      s.Hygienic := by
  have hrun : (Steps.runIf sessionStep Orderly Admin.new sampleOrderly).map Admin.tables =
      some [(sampleTable, [⟨2, 1⟩])] := by decide +kernel
  obtain ⟨s, hs, ht⟩ := Option.map_eq_some_iff.1 hrun
  exact ⟨s, hs, ht, (subscription_hygiene (Steps.reaches_of_runIf sampleOrderly hs)).1⟩

/-- A table is created before the session's logon is handled. -/
def sampleDuplicate : List SessionAct :=
  [.findSlot, .register, .listSessions sampleTable, .registerTable, .onMsg 0 sampleLogon]

/-- A table is created between the two halves of `session_closed`. -/
def sampleStale : List SessionAct :=
  [.findSlot, .register, .unsubscribeAll 0, .listSessions sampleTable, .registerTable, .freeSlot 0]

/-- The first table lists id 1 twice; after the session closed it still lists it once, and so does the second table. -/
theorem subscription_unhygienic :
    (∃ s, Steps.run sessionStep Admin.new sampleDuplicate = some s ∧ ¬ s.Hygienic) ∧
    (∃ s, Steps.run sessionStep Admin.new (sampleDuplicate ++ [.unsubscribeAll 0, .freeSlot 0]) = some s ∧
      s.reg 1 = none ∧ s.tables = [(sampleTable, [⟨1, 0⟩])]) ∧
    (∃ s, Steps.run sessionStep Admin.new sampleStale = some s ∧ s.reg 1 = none ∧
      s.tables = [(sampleTable, [⟨1, 0⟩])]) := by
  have hdup : (Steps.run sessionStep Admin.new sampleDuplicate).map Admin.tables =
      some [(sampleTable, [⟨1, 0⟩, ⟨1, 0⟩])] := by decide +kernel
  have hclose : (Steps.run sessionStep Admin.new (sampleDuplicate ++ [.unsubscribeAll 0, .freeSlot 0])).map
      (fun s => (s.reg 1, s.tables)) = some (none, [(sampleTable, [⟨1, 0⟩])]) := by decide +kernel
  have hstale : (Steps.run sessionStep Admin.new sampleStale).map (fun s => (s.reg 1, s.tables)) =
      some (none, [(sampleTable, [⟨1, 0⟩])]) := by decide +kernel
  obtain ⟨s₁, hs₁, ht₁⟩ := Option.map_eq_some_iff.1 hdup
  obtain ⟨s₂, hs₂, ht₂⟩ := Option.map_eq_some_iff.1 hclose
  obtain ⟨s₃, hs₃, ht₃⟩ := Option.map_eq_some_iff.1 hstale
  rw [Prod.mk.injEq] at ht₂ ht₃
  refine ⟨⟨s₁, hs₁, fun hyg => ?_⟩, ⟨s₂, hs₂, ht₂⟩, ⟨s₃, hs₃, ht₃⟩⟩
  have hnd := (hyg (sampleTable, [⟨1, 0⟩, ⟨1, 0⟩]) (by rw [ht₁]; exact List.mem_singleton_self _)).1
  revert hnd
  decide

end Exio
