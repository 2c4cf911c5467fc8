import Exio.Steps
import Exio.ClientOutput
/-!
# ReactorNotif — waking the reactor

The reactor thread sleeps in `poll` on the sockets of its clients and on a pipe.  Another thread that wants it to wake up
pushes a message to the notification queue, which writes a byte to the pipe (`ReactorNotifQ::push_msg`); the reactor takes
all messages and drains the pipe in one critical section (`pull`).  A thread that queues output first appends to the
client's queue and then pushes an `eNoEvent`, which is dropped when a message is pending anyway.

A client is a `Peer`: its outbound queue, whether its socket is open, and whether `POLLOUT` was asked for in the current
poll set.  Clients are named by their position in `peers`; `m_clients` is the list of those registered.  The invariant
(`Notif.Inv`) is carried through every step of every thread (`notifStep_inv`).
-/
namespace Exio

inductive MsgType where
  | eNoEvent
  | eClose
  | eAdd
  | eAttn
  | eDelete
  | eTerminate
deriving DecidableEq

structure ReactorMsg where
  type : MsgType
  ptr  : Option Nat
deriving DecidableEq

/-! ## The notification queue -/

/-- `ReactorNotifQ`: the messages and the number of bytes in the pipe. -/
structure ReactorNotifQ where
  pending : List ReactorMsg
  pipe    : Nat
deriving DecidableEq

/-- `push_msg`, with a pipe that holds `cap` bytes: a write to a full pipe fails. -/
def ReactorNotifQ.pushMsg (cap : Nat) (q : ReactorNotifQ) (m : ReactorMsg) : ReactorNotifQ :=
  if m.type = .eNoEvent ∧ q.pending ≠ [] then q
  else ⟨q.pending ++ [m], if q.pipe < cap then q.pipe + 1 else q.pipe⟩

/-- `pull`: the messages taken, and the queue with its pipe drained. -/
def ReactorNotifQ.pull (q : ReactorNotifQ) : List ReactorMsg × ReactorNotifQ := (q.pending, ⟨[], 0⟩)

/-! ## The reactor and its callers -/

structure Peer where
  out       : Outbound
  open_     : Bool
  requested : Bool
deriving DecidableEq

def Peer.new : Peer := ⟨Outbound.new, true, false⟩

/-- `Client::events()`: whether it asks for `POLLOUT`. -/
def Peer.pollout (p : Peer) : Bool := p.open_ && (decide (p.out.q.itemcount ≠ 0) || !p.out.q.items.isEmpty)

/-- Where the reactor thread is: computing the events of the clients in `todo`, in `poll`, handling the sockets' events
(`ready` when the pipe was reported), handling the messages it took, in the work scan and the destruction cycle, or gone. -/
inductive ReactorPhase where
  | build (todo : List Nat)
  | poll
  | io (ready : Bool)
  | handle
  | scan
  | stopped
deriving DecidableEq

/-- The reactor's shared state.  `between` counts the threads between the two steps of `Client::queue`; `pushed`,
`taken` and `handled` are histories. -/
structure Notif where
  notifq   : ReactorNotifQ
  peers    : List Peer
  clients  : List Nat
  phase    : ReactorPhase
  stopping : Bool
  between  : Nat
  nl       : List ReactorMsg
  pushed   : List ReactorMsg
  taken    : List ReactorMsg
  handled  : List ReactorMsg
deriving DecidableEq

def Notif.new : Notif := ⟨⟨[], 0⟩, [], [], .build [], false, 0, [], [], [], []⟩

inductive NotifAct where
  /- any thread -/
  | create
  | queue (i addr : Nat) (buf : Option Bytes) (closesocket : Bool)
  | invalidate
  | addClient (i : Nat)
  | requestAttn
  | terminate
  /- the reactor thread -/
  | events
  | enterPoll
  | pollReturn (ready : Bool)
  | output (i : Nat) (a : OutputAct)
  | close (i : Nat)
  | pull
  | skipPull
  | handleMsg
  | endHandle
  | delete (i : Nat)
  | loop
deriving DecidableEq

/-- A message other than `eNoEvent` is pushed. -/
def Notif.push (cap : Nat) (s : Notif) (m : ReactorMsg) : Notif :=
  { s with notifq := s.notifq.pushMsg cap m, pushed := s.pushed ++ [m] }

/-- Whether a `queue` call goes on to `reactor()->invalidate()`: it appended an item. -/
def invalidates (q : OutboundQueue) (addr : Nat) (buf : Option Bytes) (closesocket : Bool) : Bool :=
  decide ((q.queue addr buf closesocket).2 = 0) && (!(buf.getD []).isEmpty || closesocket)

/-- `handle_reactor_msg`; the types the reactor does not know are logged. -/
def handleReactorMsg (s : Notif) (m : ReactorMsg) : Notif :=
  match m.type with
  | .eAdd       => { s with clients := s.clients ++ m.ptr.toList }
  | .eTerminate => { s with stopping := true }
  | _           => s

/-- The steps of `handle_output`. -/
def OutputAct.isReactors : OutputAct → Bool
  | .queue _ _ _ => false
  | _            => true

/-- **One step of one thread.** -/
def notifStep (cap : Nat) (s : Notif) : NotifAct → Option Notif
  | .create => some { s with peers := s.peers ++ [Peer.new] }
  | .queue i addr buf closesocket =>
    match s.peers[i]? with
    | none   => none
    | some p =>
      match outStep p.out (.queue addr buf closesocket) with
      | none     => none
      | some out =>
        some { s with peers := s.peers.set i { p with out := out },
                      between := if invalidates p.out.q addr buf closesocket then s.between + 1 else s.between }
  | .invalidate =>
    if s.between = 0 then none
    else some { s with notifq := s.notifq.pushMsg cap ⟨.eNoEvent, none⟩, between := s.between - 1 }
  | .addClient i => if i < s.peers.length then some (s.push cap ⟨.eAdd, some i⟩) else none
  | .requestAttn => some (s.push cap ⟨.eAttn, none⟩)
  | .terminate => some ({ s with stopping := true }.push cap ⟨.eTerminate, none⟩)
  | .events =>
    match s.phase with
    | .build (i :: todo) =>
      match s.peers[i]? with
      | none   => none
      | some p => some { s with peers := s.peers.set i { p with requested := p.pollout }, phase := .build todo }
    | _ => none
  | .enterPoll => if s.phase = .build [] then some { s with phase := .poll } else none
  | .pollReturn ready =>
    if s.phase = .poll ∧ (ready = true → 0 < s.notifq.pipe) then some { s with phase := .io ready } else none
  | .output i a =>
    match s.phase, s.peers[i]? with
    | .io _, some p =>
      if a.isReactors ∧ p.open_ then
        match outStep p.out a with
        | none     => none
        | some out => some { s with peers := s.peers.set i { p with out := out } }
      else none
    | _, _ => none
  | .close i =>
    match s.phase, s.peers[i]? with
    | .io _, some p | .scan, some p => some { s with peers := s.peers.set i { p with open_ := false } }
    | _, _ => none
  | .pull =>
    if s.phase = .io true then
      some { s with phase := .handle, nl := s.notifq.pull.1, taken := s.taken ++ s.notifq.pull.1, notifq := s.notifq.pull.2 }
    else none
  | .skipPull => if s.phase = .io false then some { s with phase := .scan } else none
  | .handleMsg =>
    match s.phase, s.nl with
    | .handle, m :: nl => some (handleReactorMsg { s with nl := nl, handled := s.handled ++ [m] } m)
    | _, _ => none
  | .endHandle => if s.phase = .handle ∧ s.nl = [] then some { s with phase := .scan } else none
  | .delete i => if s.phase = .scan then some { s with clients := s.clients.filter (· ≠ i) } else none
  | .loop =>
    if s.phase = .scan then some { s with phase := if s.stopping then .stopped else .build s.clients } else none

/-! ## The queue's two operations -/

/-- The messages that must not be lost. -/
def real (ms : List ReactorMsg) : List ReactorMsg := ms.filter (fun m => m.type ≠ .eNoEvent)

theorem real_append (a b : List ReactorMsg) : real (a ++ b) = real a ++ real b := List.filter_append ..

theorem pushMsg_readable {cap : Nat} (hcap : 0 < cap) {q : ReactorNotifQ} (h : q.pending ≠ [] → 0 < q.pipe)
    (m : ReactorMsg) : 0 < (q.pushMsg cap m).pipe := by
  unfold ReactorNotifQ.pushMsg
  split
  · rename_i hc; exact h hc.2
  · simp only
    split <;> omega

theorem pushMsg_real (cap : Nat) (q : ReactorNotifQ) (m : ReactorMsg) :
    real (q.pushMsg cap m).pending = real q.pending ++ real [m] := by
  unfold ReactorNotifQ.pushMsg
  split
  · rename_i hc
    simp [real, hc.1]
  · exact real_append _ _

/-- A call that does not wake the reactor left the items as they were. -/
theorem items_of_not_invalidates {q : OutboundQueue} {addr : Nat} {buf : Option Bytes} {closesocket : Bool}
    (h : invalidates q addr buf closesocket = false) : (q.queue addr buf closesocket).1.items = q.items := by
  unfold invalidates at h
  rcases queue_cases q addr buf closesocket with ⟨-, hq⟩ | ⟨-, hq⟩ | ⟨-, -, hq⟩
  · rw [hq]
  · rw [hq]
  · rw [hq] at h ⊢
    simp only [decide_true, Bool.true_and, Bool.or_eq_false_iff, Bool.not_eq_false', List.isEmpty_iff] at h
    simp [dataItems, closeItems, h.1, h.2]

/-! ## The invariant -/

/-- The client has been asked for its events since the last `pull`. -/
def ReactorPhase.Examined : ReactorPhase → Nat → Prop
  | .build todo, i => i ∉ todo
  | .poll, _       => True
  | _, _           => False

/-- An open client with output that `poll` was not told about. -/
def Peer.Silent (p : Peer) : Prop := p.open_ = true ∧ p.out.q.items ≠ [] ∧ p.requested = false

/-- **What keeps a wakeup from being lost.** -/
structure Notif.Inv (s : Notif) : Prop where
  readable : s.notifq.pending ≠ [] → 0 < s.notifq.pipe
  wake     : ∀ i ∈ s.clients, s.phase.Examined i → ∀ p, s.peers[i]? = some p → p.Silent →
    0 < s.notifq.pipe ∨ 0 < s.between
  order    : real s.pushed = real (s.taken ++ s.notifq.pending)
  nl       : s.taken = s.handled ++ s.nl
  idle     : s.phase ≠ .handle → s.nl = []

theorem Notif.new_inv : Notif.new.Inv where
  readable := fun h => absurd rfl h
  wake := fun i hi => by cases hi
  order := rfl
  nl := rfl
  idle := fun _ => rfl

theorem silent_new (p : Peer) (h : p = Peer.new) : ¬ p.Silent := by
  rintro ⟨-, hi, -⟩
  rw [h] at hi
  exact hi rfl

/-- A push leaves the pipe readable, so that no client waits in silence. -/
theorem push_inv {cap : Nat} (hcap : 0 < cap) {s : Notif} (h : s.Inv) (m : ReactorMsg) {b : Nat} {pushed : List ReactorMsg}
    {stopping : Bool} (hp : real pushed = real s.pushed ++ real [m]) :
    ({ s with notifq := s.notifq.pushMsg cap m, between := b, pushed := pushed, stopping := stopping } : Notif).Inv where
  readable := fun _ => pushMsg_readable hcap h.readable m
  wake := fun _ _ _ _ _ _ => .inl (pushMsg_readable hcap h.readable m)
  order := by
    simp only
    rw [hp, h.order, real_append, real_append, pushMsg_real, List.append_assoc]
  nl := h.nl
  idle := h.idle

theorem queue_notif_inv {s : Notif} (h : s.Inv) {i addr : Nat} {buf : Option Bytes} {closesocket : Bool} {p : Peer}
    {out : Outbound} (hp : s.peers[i]? = some p) (hq : outStep p.out (.queue addr buf closesocket) = some out) :
    ({ s with peers := s.peers.set i { p with out := out },
              between := if invalidates p.out.q addr buf closesocket then s.between + 1 else s.between } : Notif).Inv := by
  refine { h with wake := fun j hj hex p' hp' hs => ?_ }
  simp only at hp' hex hj ⊢
  cases hinv : invalidates p.out.q addr buf closesocket with
  | true => exact .inr (Nat.succ_pos _)
  | false =>
    have hitems : out.q.items = p.out.q.items := by
      simp only [outStep] at hq
      split at hq
      · cases hq
      · cases hq
        exact items_of_not_invalidates hinv
    rw [List.getElem?_set] at hp'
    split at hp'
    · rename_i hij
      subst hij
      split at hp'
      · cases hp'
        obtain ⟨h1, h2, h3⟩ := hs
        exact h.wake i hj hex p hp ⟨h1, by rw [← hitems]; exact h2, h3⟩
      · cases hp'
    · exact h.wake j hj hex p' hp' hs

theorem events_inv {s : Notif} (h : s.Inv) {i : Nat} {todo : List Nat} {p : Peer} (hph : s.phase = .build (i :: todo)) :
    ({ s with peers := s.peers.set i { p with requested := p.pollout }, phase := .build todo } : Notif).Inv := by
  refine { h with wake := fun j hj hex p' hp' hs => ?_, idle := fun _ => h.idle (by rw [hph]; simp) }
  simp only [ReactorPhase.Examined] at hex
  simp only at hp' hj ⊢
  rw [List.getElem?_set] at hp'
  split at hp'
  · split at hp'
    · -- a client with output was asked for POLLOUT
      cases hp'
      obtain ⟨h1, h2, h3⟩ := hs
      simp only at h1 h2 h3
      unfold Peer.pollout at h3
      rw [h1, Bool.true_and, Bool.or_eq_false_iff] at h3
      exact absurd (by simpa using h3.2) h2
    · cases hp'
  · rename_i hij
    refine h.wake j hj ?_ p' hp' hs
    rw [hph]
    simp only [ReactorPhase.Examined, List.mem_cons, not_or]
    exact ⟨fun e => hij e.symm, hex⟩

/-- Outside the two phases in which `poll` is prepared or entered the wakeup condition is void. -/
theorem wake_of_not_examined {s : Notif} (h : ∀ i, ¬ s.phase.Examined i) : ∀ i ∈ s.clients, s.phase.Examined i →
    ∀ p, s.peers[i]? = some p → p.Silent → 0 < s.notifq.pipe ∨ 0 < s.between :=
  fun i _ hex => absurd hex (h i)

theorem handleReactorMsg_inv {s : Notif} (h : s.Inv) (hph : s.phase = .handle) (m : ReactorMsg) : (handleReactorMsg s m).Inv := by
  unfold handleReactorMsg
  split
  · exact { h with wake := wake_of_not_examined (fun i => by simp only [hph, ReactorPhase.Examined]; exact id) }
  · exact { h with }
  · exact h

/-- **Every step of every thread keeps the invariant.** -/
theorem notifStep_inv {cap : Nat} (hcap : 0 < cap) {s t : Notif} (h : s.Inv) : ∀ {a : NotifAct},
    notifStep cap s a = some t → t.Inv
  | .create, hs => by
    cases hs
    refine { h with wake := fun i hi hex p hp hsil => ?_ }
    simp only at hp hi hex
    rw [List.getElem?_append] at hp
    split at hp
    · exact h.wake i hi hex p hp hsil
    · exact absurd hsil (silent_new p (by
        have := List.mem_of_getElem? hp
        simpa using this))
  | .queue i addr buf closesocket, hs => by
    simp only [notifStep] at hs
    split at hs
    · cases hs
    rename_i p hp
    split at hs
    · cases hs
    rename_i out hq
    cases hs
    exact queue_notif_inv h hp hq
  | .invalidate, hs => by
    simp only [notifStep] at hs
    split at hs
    · cases hs
    · cases hs
      exact push_inv hcap h ⟨.eNoEvent, none⟩ (by simp [real])
  | .addClient i, hs => by
    simp only [notifStep] at hs
    split at hs
    · cases hs
      exact push_inv hcap h ⟨.eAdd, some i⟩ (real_append _ _)
    · cases hs
  | .requestAttn, hs => by
    cases hs
    exact push_inv hcap h ⟨.eAttn, none⟩ (real_append _ _)
  | .terminate, hs => by
    cases hs
    exact push_inv hcap h ⟨.eTerminate, none⟩ (real_append _ _)
  | .events, hs => by
    simp only [notifStep] at hs
    split at hs
    · rename_i i todo hph
      split at hs
      · cases hs
      · cases hs
        exact events_inv h hph
    · cases hs
  | .enterPoll, hs => by
    simp only [notifStep] at hs
    split at hs
    · rename_i hph
      cases hs
      refine { h with wake := fun i hi _ p hp hsil => h.wake i hi ?_ p hp hsil, idle := fun _ => h.idle (by rw [hph]; simp) }
      rw [hph]
      exact List.not_mem_nil
    · cases hs
  | .pollReturn ready, hs => by
    simp only [notifStep] at hs
    split at hs
    · rename_i hph
      cases hs
      exact { h with wake := wake_of_not_examined (fun i => id), idle := fun _ => h.idle (by rw [hph.1]; simp) }
    · cases hs
  | .output i a, hs => by
    simp only [notifStep] at hs
    split at hs
    · rename_i hph hp
      split at hs
      · split at hs
        · cases hs
        · cases hs
          exact { h with wake := wake_of_not_examined (fun i => by simp only [hph, ReactorPhase.Examined]; exact id) }
      · cases hs
    · cases hs
  | .close i, hs => by
    simp only [notifStep] at hs
    split at hs
    · rename_i hph hp
      cases hs
      exact { h with wake := wake_of_not_examined (fun i => by simp only [hph, ReactorPhase.Examined]; exact id) }
    · rename_i hph hp
      cases hs
      exact { h with wake := wake_of_not_examined (fun i => by simp only [hph, ReactorPhase.Examined]; exact id) }
    · cases hs
  | .pull, hs => by
    simp only [notifStep] at hs
    split at hs
    · rename_i hph
      cases hs
      refine ⟨fun hn => absurd rfl hn, wake_of_not_examined (fun i => id), ?_, ?_, fun hn => absurd rfl hn⟩
      · simp only [ReactorNotifQ.pull, List.append_nil]
        exact h.order
      · -- what was taken before has been handled
        simp only [ReactorNotifQ.pull]
        rw [h.nl, h.idle (by rw [hph]; simp), List.append_nil]
    · cases hs
  | .skipPull, hs => by
    simp only [notifStep] at hs
    split at hs
    · rename_i hph
      cases hs
      exact { h with wake := wake_of_not_examined (fun i => id), idle := fun _ => h.idle (by rw [hph]; simp) }
    · cases hs
  | .handleMsg, hs => by
    simp only [notifStep] at hs
    split at hs
    · rename_i m nl hph hnl
      cases hs
      refine handleReactorMsg_inv (s := { s with nl := nl, handled := s.handled ++ [m] })
        { h with nl := ?_, idle := fun hn => absurd hph hn } hph m
      simp only
      rw [h.nl, hnl, List.append_assoc, List.singleton_append]
    · cases hs
  | .endHandle, hs => by
    simp only [notifStep] at hs
    split at hs
    · rename_i hph
      cases hs
      exact { h with wake := wake_of_not_examined (fun i => id), idle := fun _ => hph.2 }
    · cases hs
  | .delete i, hs => by
    simp only [notifStep] at hs
    split at hs
    · rename_i hph
      cases hs
      exact { h with wake := wake_of_not_examined (fun i => by simp only [hph, ReactorPhase.Examined]; exact id) }
    · cases hs
  | .loop, hs => by
    simp only [notifStep] at hs
    split at hs
    · rename_i hph
      cases hs
      refine { h with wake := fun i hi hex => absurd hex ?_, idle := fun _ => h.idle (by rw [hph]; simp) }
      simp only
      split
      · exact id
      · exact fun hn => hn hi
    · cases hs

/-- **Reactor wakeups are never lost**, in every state of every interleaving: a pending message leaves the pipe readable;
in `poll`, output that `poll` was not told about has the pipe readable or a thread on its way to the push; and the
messages pushed are those taken and those pending, in order. -/
theorem reactor_wakeups {cap : Nat} (hcap : 0 < cap) {s : Notif}
    (hs : Steps.Reaches (notifStep cap) Steps.Always Notif.new s) :
    (s.notifq.pending ≠ [] → 0 < s.notifq.pipe) ∧
    (s.phase = .poll → ∀ i ∈ s.clients, ∀ p, s.peers[i]? = some p → p.open_ = true → p.out.q.items ≠ [] →
      p.requested = false → 0 < s.notifq.pipe ∨ 0 < s.between) ∧
    real s.pushed = real (s.taken ++ s.notifq.pending) ∧ s.taken = s.handled ++ s.nl := by
  have h : s.Inv := hs.invariant Notif.new_inv (fun h _ hst => notifStep_inv hcap h hst)
  refine ⟨h.readable, fun hph i hi p hp h1 h2 h3 => h.wake i hi ?_ p hp ⟨h1, h2, h3⟩, h.order, h.nl⟩
  rw [hph]
  trivial

/-- A client is added; while the reactor is in `poll` a thread appends output and has not yet pushed. -/
def sampleWakeup : List NotifAct :=
  [.create, .addClient 0, .enterPoll, .pollReturn true, .pull, .handleMsg, .endHandle, .loop, .events, .enterPoll,
    .queue 0 8 (some [1]) false]

theorem reactor_wakeups_sample :
    ∃ s p, Steps.run (notifStep 65536) Notif.new sampleWakeup = some s ∧ s.phase = .poll ∧ 0 ∈ s.clients ∧
      s.peers[0]? = some p ∧ p.out.q.items ≠ [] ∧ p.requested = false ∧ (0 < s.notifq.pipe ∨ 0 < s.between) := by
  refine ⟨_, _, rfl, by decide, by decide, rfl, by decide, by decide, ?_⟩
  exact (reactor_wakeups (show 0 < 65536 by decide) (Steps.reaches_of_run sampleWakeup rfl)).2.1 rfl 0 (by decide) _ rfl
    (by decide) (by decide) (by decide)

end Exio
