import Mathlib.Logic.Function.Basic
import Mathlib.Data.List.Nodup
import Exio.ReactorRun
/-!
# SessionLife — when sessions and clients are deleted

An `AdminSession` and the `Client` behind it are used by four kinds of threads.  The accept thread makes them
(`createNewSession`) and deletes sessions that have expired (`session_cleanup`).  A worker runs the client's `do_work`, with
callbacks into the session under the client's `m_cb_mtx`.  The reactor reads, closes and in the end deletes the client.  Any
thread may send to a session it finds in the registry.

`session_closed` puts the session on the list of the expired ones and returns into the session: the accept thread may find it
there and begin to delete it while a worker is still in its `process_close`.  The destructor calls `Client::release`, which
waits for `m_cb_mtx`, and that is what keeps the session alive until the worker has left it.  But it waits with the list's lock
in hand, which a worker of another session takes with `m_cb_mtx` in hand.

A step is one critical section, or a part of the code between two.  A session and its client are named by the number of
sessions made before.  Other locks are left out: they are held for one step only, or taken in one order (the monitor's, then
a table's, then the registry's).  So is the end of the server: `~Reactor` deletes the clients it still has without `release`.
-/
namespace Exio

/-! ## A session and its client -/

inductive Mem where
  | unborn
  | live
  | freed
deriving DecidableEq

inductive Chunk where
  | data
  | sentinel
deriving DecidableEq

/-- Where a client is with the workers. -/
inductive WorkPc where
  | idle
  | queued
  /- `do_work`: before it, at the copy loop, and at the loop that offers the buffer; `close` if the sentinel was met -/
  | running
  | copying
  | offering (close : Bool)
  | input (close : Bool)
  /- `process_close` and `session_closed` -/
  | closing
  | unsubscribed
  | unregistered
  | expired
  /- back in `do_work` -/
  | forgotten
  | clearing
  | worked
deriving DecidableEq

/-- `m_runstate`. -/
def WorkPc.runState : WorkPc → RunState
  | .idle => .N
  | .queued => .Q
  | _ => .R

/-- The worker holds `m_cb_mtx`. -/
def WorkPc.holdsCb : WorkPc → Bool
  | .input _ | .closing | .unsubscribed | .unregistered | .expired | .forgotten => true
  | _ => false

structure Pair where
  /- the `AdminSession` -/
  session    : Mem
  valid      : Bool
  listener   : Bool
  ioHandle   : Bool
  registered : Bool
  /- the `Client` -/
  client     : Mem
  cb         : Bool
  ioClosed   : Bool
  fifo       : List Chunk
  wantDelete : Bool
  work       : WorkPc
  /- the reactor: a message to add it, `m_clients`, `m_destroying` -/
  adding     : Bool
  added      : Bool
  destroying : Bool

def Pair.unborn : Pair where
  session    := .unborn
  valid      := false
  listener   := false
  ioHandle   := false
  registered := false
  client     := .unborn
  cb         := false
  ioClosed   := false
  fifo       := []
  wantDelete := false
  work       := .idle
  adding     := false
  added      := false
  destroying := false

inductive PairAct where
  /- the worker that has the client -/
  | begin
  | copy
  | offer
  | processInput
  | consumed
  | processClose
  | unsubscribeAll
  | resetSlot
  | forgetListener
  | disableCb
  | clearFifo
  /- the reactor -/
  | pullAdd
  | handleInput
  | handleClose
  | attend
  | destroy
  /- any thread, under the lock of the registry -/
  | sendOne
  | closeSession

/-- A step with one session or client, under no lock but `m_cb_mtx`. -/
def Pair.step (p : Pair) : PairAct → Option Pair
  | .begin          =>
    if p.work = .running then some (if p.cb then { p with work := .copying } else { p with fifo := [], work := .worked })
    else none
  | .copy           =>
    -- the copy loop takes the chunks up to the sentinel, and the sentinel with them
    if p.work = .copying then
      some { p with
        fifo := (p.fifo.dropWhile (· = .data)).drop 1
        work := .offering (decide (Chunk.sentinel ∈ p.fifo)) }
    else none
  | .offer          =>
    match p.work with
    | .offering close => if p.cb then some { p with work := .input close } else none
    | _ => none
  | .processInput   =>
    match p.work with
    | .input _ => some p
    | _ => none
  | .consumed       =>
    match p.work with
    | .input close => some { p with work := .offering close }
    | _ => none
  | .processClose   =>
    match p.work with
    | .offering true  => some (if p.cb then { p with valid := false, work := .closing } else { p with work := .clearing })
    | .offering false => some { p with work := .worked }
    | _ => none
  | .unsubscribeAll => if p.work = .closing then some { p with work := .unsubscribed } else none
  | .resetSlot      => if p.work = .unsubscribed then some { p with registered := false, work := .unregistered } else none
  | .forgetListener => if p.work = .expired then some { p with listener := false, work := .forgotten } else none
  | .disableCb      => if p.work = .forgotten then some { p with cb := false, work := .clearing } else none
  | .clearFifo      => if p.work = .clearing then some { p with fifo := [], work := .worked } else none
  | .pullAdd        => if p.adding then some { p with adding := false, added := true } else none
  | .handleInput    => if p.added ∧ p.ioClosed = false then some { p with fifo := p.fifo ++ [.data] } else none
  | .handleClose    =>
    if p.added then some (if p.ioClosed then p else { p with ioClosed := true, fifo := p.fifo ++ [.sentinel] }) else none
  | .attend         => if p.added then some (if p.wantDelete then { p with destroying := true } else p) else none
  | .destroy        =>
    if p.destroying ∧ p.ioClosed ∧ p.work = .idle then
      some { p with client := .freed, cb := false, fifo := [], added := false, destroying := false }
    else none
  | .sendOne        => some p
  | .closeSession   => some p

/-- The objects a step of a pair uses. -/
inductive Side where
  | session
  | client
deriving DecidableEq

def Pair.mem (p : Pair) : Side → Mem
  | .session => p.session
  | .client  => p.client

/-- What a step uses: the session where a callback goes into it or a thread finds it in the registry, the client else. -/
def Pair.uses (p : Pair) : PairAct → List Side
  | .offer | .processInput => [.client, .session]
  | .processClose => if p.work = .offering true ∧ p.cb then [.client, .session] else [.client]
  | .unsubscribeAll | .resetSlot | .forgetListener => [.session]
  | .pullAdd => []
  | .sendOne => if p.registered then .session :: (if p.valid && p.ioHandle then [.client] else []) else []
  | .closeSession => if p.registered then .session :: (if p.ioHandle then [.client] else []) else []
  | .begin | .copy | .consumed | .disableCb | .clearFifo => [.client]
  | .handleInput | .handleClose | .attend | .destroy => [.client]

/-! ## All sessions, and the accept thread -/

/-- Where the destructor of a session is: before `release` has `m_cb_mtx`, before it raises the flag, and at the end. -/
inductive DeletePc where
  | release
  | flag
  | free
deriving DecidableEq

inductive AcceptPc where
  | idle
  /- `createNewSession` -/
  | newClient (j : Nat)
  | ioInit (j : Nat)
  | addClient (j : Nat)
  | logon (j : Nat)
  /- `session_cleanup`, with the lock of the expired sessions -/
  | cleaning (todo later : List Nat)
  | deleting (j : Nat) (pc : DeletePc) (todo later : List Nat)

def AcceptPc.holdsExpired : AcceptPc → Bool
  | .cleaning .. | .deleting .. => true
  | _ => false

/-- `runq` is `m_runq`, and `pool` says which client each of the workers has. -/
structure Lives where
  pairs    : Nat → Pair
  created  : Nat
  expired  : List Nat
  accept   : AcceptPc
  nworkers : Nat
  runq     : List Nat
  pool     : Nat → Option Nat

def Lives.new (nworkers : Nat) : Lives := ⟨fun _ => .unborn, 0, [], .idle, nworkers, [], fun _ => none⟩

inductive LifeAct where
  | pair (j : Nat) (a : PairAct)
  /-- The worker that has the client puts the session on the list. -/
  | expire (j : Nat)
  /-- The reactor looks at the run state, and puts the client on the run queue. -/
  | scan (j : Nat)
  | takeWork (w : Nat)
  | updateRunState (w : Nat)
  /- the accept thread -/
  | createSession
  | newClient
  | ioInit
  | addClient
  | sendLogon
  | lockExpired
  | checkNext
  | release
  | raiseFlag
  | free
  | unlockExpired

/-- `safe_to_delete`. -/
def Pair.safeToDelete (p : Pair) : Bool := !p.valid && (!p.ioHandle || p.ioClosed)

namespace Lives

/-- One pair changes, and the accept thread goes on. -/
def set (s : Lives) (j : Nat) (p : Pair) (accept : AcceptPc) : Lives :=
  { s with pairs := Function.update s.pairs j p, accept := accept }

end Lives

/-- **One step of one thread.** -/
def lifeStep (s : Lives) : LifeAct → Option Lives
  | .pair j a => ((s.pairs j).step a).map fun p => s.set j p s.accept
  | .expire j =>
    if (s.pairs j).work = .unregistered ∧ s.accept.holdsExpired = false then
      some { s.set j { s.pairs j with work := .expired } s.accept with expired := s.expired ++ [j] }
    else none
  | .scan j =>
    if (s.pairs j).added then
      some (if (s.pairs j).work = .idle ∧ (s.pairs j).fifo ≠ [] then
        { s.set j { s.pairs j with work := .queued } s.accept with runq := s.runq ++ [j] } else s)
    else none
  | .takeWork w =>
    match s.pool w, s.runq with
    | none, j :: runq =>
      if w < s.nworkers then
        some { s.set j { s.pairs j with work := .running } s.accept with runq := runq, pool := Function.update s.pool w (some j) }
      else none
    | _, _ => none
  | .updateRunState w =>
    match s.pool w with
    | some j =>
      if (s.pairs j).work = .worked then
        some (if (s.pairs j).fifo = [] then
          { s.set j { s.pairs j with work := .idle } s.accept with pool := Function.update s.pool w none }
        else s.set j { s.pairs j with work := .running } s.accept)
      else none
    | none => none
  | .createSession =>
    match s.accept with
    | .idle =>
      some { s.set s.created { Pair.unborn with session := .live, valid := true, listener := true, registered := true }
          (.newClient s.created) with created := s.created + 1 }
    | _ => none
  | .newClient =>
    match s.accept with
    | .newClient j => some (s.set j { s.pairs j with client := .live, cb := true } (.ioInit j))
    | _ => none
  | .ioInit =>
    match s.accept with
    | .ioInit j => some (s.set j { s.pairs j with ioHandle := true } (.addClient j))
    | _ => none
  | .addClient =>
    match s.accept with
    | .addClient j => some (s.set j { s.pairs j with adding := true } (.logon j))
    | _ => none
  | .sendLogon =>
    match s.accept with
    | .logon _ => some { s with accept := .idle }
    | _ => none
  | .lockExpired =>
    match s.accept with
    | .idle => some { s with accept := .cleaning s.expired [] }
    | _ => none
  | .checkNext =>
    match s.accept with
    | .cleaning (j :: todo) later =>
      some { s with accept := if (s.pairs j).safeToDelete then .deleting j .release todo later else .cleaning todo (later ++ [j]) }
    | _ => none
  | .release =>
    match s.accept with
    | .deleting j .release todo later =>
      -- without a client there is nothing to release
      if (s.pairs j).ioHandle = false then some { s with accept := .deleting j .free todo later }
      else if (s.pairs j).work.holdsCb then none
      else some (s.set j { s.pairs j with cb := false } (.deleting j .flag todo later))
    | _ => none
  | .raiseFlag =>
    match s.accept with
    | .deleting j .flag todo later => some (s.set j { s.pairs j with wantDelete := true } (.deleting j .free todo later))
    | _ => none
  | .free =>
    match s.accept with
    | .deleting j .free todo later => some (s.set j { s.pairs j with session := .freed } (.cleaning todo later))
    | _ => none
  | .unlockExpired =>
    match s.accept with
    | .cleaning [] later => some { s with expired := later, accept := .idle }
    | _ => none

/-- The objects a step uses. -/
def Lives.uses (s : Lives) : LifeAct → List (Nat × Side)
  | .pair j a => ((s.pairs j).uses a).map fun o => (j, o)
  | .expire j => [(j, .session)]
  | .scan j => [(j, .client)]
  | .takeWork _ => (s.runq.take 1).map fun j => (j, .client)
  | .updateRunState w => (s.pool w).toList.map fun j => (j, .client)
  | .createSession | .addClient | .lockExpired | .unlockExpired => []
  | .newClient | .ioInit =>
    match s.accept with
    | .newClient j | .ioInit j => [(j, .session)]
    | _ => []
  | .sendLogon =>
    match s.accept with
    | .logon j => [(j, .session), (j, .client)]
    | _ => []
  | .checkNext =>
    match s.accept with
    | .cleaning (j :: _) _ => (j, .session) :: if (s.pairs j).valid = false && (s.pairs j).ioHandle then [(j, .client)] else []
    | _ => []
  | .release =>
    match s.accept with
    | .deleting j .release _ _ => (j, .session) :: if (s.pairs j).ioHandle then [(j, .client)] else []
    | _ => []
  | .raiseFlag =>
    match s.accept with
    | .deleting j .flag _ _ => [(j, .client)]
    | _ => []
  | .free =>
    match s.accept with
    | .deleting j .free _ _ => [(j, .session)]
    | _ => []

/-! ## What holds of a pair -/

/-- The worker has met the sentinel, and has not come to the end of `process_close`. -/
def WorkPc.closes : WorkPc → Bool
  | .offering close | .input close => close
  | .closing | .unsubscribed | .unregistered | .expired | .forgotten => true
  | _ => false

/-- Where a session stands with the accept thread.  It is `inUse` until a worker puts it on the list. -/
inductive Place where
  | unborn
  | made
  | joined
  | ready
  | inUse
  | listed
  | released
  | flagged
  | gone
deriving DecidableEq

/-- A session goes through the places in this order. -/
def Place.rank : Place → Nat
  | .unborn => 0 | .made => 1 | .joined => 2 | .ready => 3 | .inUse => 4
  | .listed => 5 | .released => 6 | .flagged => 7 | .gone => 8

/-- Where the accept thread, and no list, has the session. -/
def Place.inHand : Place → Bool
  | .made | .joined | .ready | .released | .flagged => true
  | _ => false

namespace Pair

def made : Pair := { Pair.unborn with session := .live, valid := true, listener := true, registered := true }

def joined : Pair := { made with client := .live, cb := true }

def ready : Pair := { joined with ioHandle := true }

/-- What holds of the client once the reactor may have it. -/
structure Client (p : Pair) : Prop where
  born       : p.client ≠ .unborn
  busy       : p.work ≠ .idle → p.client = .live
  known      : p.client = .live → p.adding ∨ p.added
  adding     : p.adding → p.client = .live ∧ p.added = false
  added      : p.added → p.client = .live
  destroying : p.destroying → p.added ∧ p.wantDelete
  sentinel   : Chunk.sentinel ∈ p.fifo → p.ioClosed
  closes     : p.work.closes → p.ioClosed

structure InUse (p : Pair) : Prop extends p.Client where
  session    : p.session = .live
  client     : p.client = .live
  ioHandle   : p.ioHandle
  wantDelete : p.wantDelete = false
  cb         : p.cb
  registered : p.registered = false ↔ p.work = .unregistered
  valid      : p.work = .closing ∨ p.work = .unsubscribed ∨ p.work = .unregistered → p.valid = false
  closed     : p.ioClosed → Chunk.sentinel ∈ p.fifo ∨ p.work.closes
  work       : p.work ≠ .expired ∧ p.work ≠ .forgotten ∧ p.work ≠ .clearing

/-- A worker may be left in the session, at the end of its `process_close`. -/
structure Listed (p : Pair) : Prop extends p.Client where
  session    : p.session = .live
  client     : p.client = .live
  ioHandle   : p.ioHandle
  wantDelete : p.wantDelete = false
  registered : p.registered = false
  valid      : p.valid = false
  ioClosed   : p.ioClosed
  cb         : p.cb → p.work = .expired ∨ p.work = .forgotten
  work       : p.work.holdsCb → p.cb

/-- No callback goes into the session any more. -/
structure Quiet (p : Pair) : Prop extends p.Client where
  registered : p.registered = false
  cb         : p.cb = false
  work       : p.work.holdsCb = false

/-- What holds of a pair, by its place. -/
def Ok (p : Pair) : Place → Prop
  | .unborn   => p = unborn
  | .made     => p = made
  | .joined   => p = joined
  | .ready    => p = ready
  | .inUse    => p.InUse
  | .listed   => p.Listed
  | .released => p.Quiet ∧ p.session = .live ∧ p.client = .live ∧ p.wantDelete = false
  | .flagged  => p.Quiet ∧ p.session = .live ∧ p.wantDelete
  | .gone     => p.Quiet ∧ p.session = .freed ∧ p.wantDelete

/-- A move of the worker that changes nothing but where it is. -/
inductive Next (cb : Bool) : WorkPc → WorkPc → Prop
  | take : Next cb .queued .running
  | begin (hcb : cb = true) : Next cb .running .copying
  | offer (close : Bool) (hcb : cb = true) : Next cb (.offering close) (.input close)
  | consumed (close : Bool) : Next cb (.input close) (.offering close)
  | noClose : Next cb (.offering false) .worked
  | noCallback (hcb : cb = false) : Next cb (.offering true) .clearing
  | unsubscribe : Next cb .closing .unsubscribed
  | again : Next cb .worked .running
  | rest : Next cb .worked .idle

theorem Next.busy {cb : Bool} {w w' : WorkPc} (h : Next cb w w') : w ≠ .idle := by
  cases h <;> simp

theorem Next.closes {cb : Bool} {w w' : WorkPc} (h : Next cb w w') (hw' : w'.closes) : w.closes := by
  cases h with
  | offer close hcb => exact hw'
  | consumed close => exact hw'
  | unsubscribe => rfl
  | _ => cases hw'

theorem Next.holdsCb {cb : Bool} {w w' : WorkPc} (h : Next cb w w') (hw' : w'.holdsCb) : cb = true ∨ w = .closing := by
  cases h with
  | offer close hcb => exact .inl hcb
  | unsubscribe => exact .inr rfl
  | _ => cases hw'

/-- As long as callbacks are enabled, the worker does not lose the close it has met. -/
theorem Next.of_enabled {w w' : WorkPc} (h : Next true w w') :
    (w.closes → w'.closes) ∧ (w' ≠ .expired ∧ w' ≠ .forgotten ∧ w' ≠ .clearing) ∧ (w ≠ .unregistered ∧ w' ≠ .unregistered) ∧
      (w' = .closing ∨ w' = .unsubscribed ∨ w' = .unregistered → w = .closing) := by
  cases h with
  | noCallback hcb => cases hcb
  | _ => simp [WorkPc.closes]

/-- What a step does to a pair. -/
inductive Move (p : Pair) : Pair → Prop
  | same : Move p p
  | works (w : WorkPc) (hw : Next p.cb p.work w) : Move p { p with work := w }
  | clears (hw : p.work = .running ∧ p.cb = false ∨ p.work = .clearing) : Move p { p with fifo := [], work := .worked }
  | copy (hw : p.work = .copying) :
    Move p { p with fifo := (p.fifo.dropWhile (· = .data)).drop 1, work := .offering (decide (Chunk.sentinel ∈ p.fifo)) }
  | invalidate (hw : p.work = .offering true) (hcb : p.cb) : Move p { p with valid := false, work := .closing }
  | reset (hw : p.work = .unsubscribed) : Move p { p with registered := false, work := .unregistered }
  | forget (hw : p.work = .expired) : Move p { p with listener := false, work := .forgotten }
  | disable (hw : p.work = .forgotten) : Move p { p with cb := false, work := .clearing }
  | add (h : p.adding) : Move p { p with adding := false, added := true }
  | input (ha : p.added) (ho : p.ioClosed = false) : Move p { p with fifo := p.fifo ++ [.data] }
  | close (ha : p.added) (ho : p.ioClosed = false) : Move p { p with ioClosed := true, fifo := p.fifo ++ [.sentinel] }
  | scan (ha : p.added) (hw : p.work = .idle) : Move p { p with work := .queued }
  | attend (ha : p.added) (hw : p.wantDelete) : Move p { p with destroying := true }
  | destroy (hd : p.destroying) (ho : p.ioClosed) (hw : p.work = .idle) :
    Move p { p with client := .freed, cb := false, fifo := [], added := false, destroying := false }

theorem works_of {p : Pair} {w w' : WorkPc} (hw : p.work = w) (hn : Next p.cb w w') : p.Move { p with work := w' } :=
  .works w' (hw ▸ hn)

theorem step_move {p q : Pair} {a : PairAct} (h : p.step a = some q) : p.Move q := by
  cases a <;> simp only [Pair.step] at h
  case begin =>
    obtain ⟨hw, ⟨⟩⟩ := Option.ite_none_right_eq_some.1 h
    split
    · case isTrue hcb => exact works_of hw (.begin hcb)
    · case isFalse hcb => exact .clears (.inl ⟨hw, Bool.eq_false_iff.2 hcb⟩)
  case copy =>
    obtain ⟨hw, ⟨⟩⟩ := Option.ite_none_right_eq_some.1 h
    exact .copy hw
  case offer =>
    split at h
    · case h_1 close hw =>
      obtain ⟨hcb, ⟨⟩⟩ := Option.ite_none_right_eq_some.1 h
      exact works_of hw (.offer close hcb)
    · cases h
  case processInput =>
    split at h
    · cases h
      exact .same
    · cases h
  case consumed =>
    split at h
    · case h_1 close hw =>
      cases h
      exact works_of hw (.consumed close)
    · cases h
  case processClose =>
    split at h
    · case h_1 hw =>
      cases h
      split
      · case isTrue hcb => exact .invalidate hw hcb
      · case isFalse hcb => exact works_of hw (.noCallback (Bool.eq_false_iff.2 hcb))
    · case h_2 hw =>
      cases h
      exact works_of hw .noClose
    · cases h
  case unsubscribeAll =>
    obtain ⟨hw, ⟨⟩⟩ := Option.ite_none_right_eq_some.1 h
    exact works_of hw .unsubscribe
  case resetSlot =>
    obtain ⟨hw, ⟨⟩⟩ := Option.ite_none_right_eq_some.1 h
    exact .reset hw
  case forgetListener =>
    obtain ⟨hw, ⟨⟩⟩ := Option.ite_none_right_eq_some.1 h
    exact .forget hw
  case disableCb =>
    obtain ⟨hw, ⟨⟩⟩ := Option.ite_none_right_eq_some.1 h
    exact .disable hw
  case clearFifo =>
    obtain ⟨hw, ⟨⟩⟩ := Option.ite_none_right_eq_some.1 h
    exact .clears (.inr hw)
  case pullAdd =>
    obtain ⟨hadd, ⟨⟩⟩ := Option.ite_none_right_eq_some.1 h
    exact .add hadd
  case handleInput =>
    obtain ⟨⟨hadd, hopen⟩, ⟨⟩⟩ := Option.ite_none_right_eq_some.1 h
    exact .input hadd hopen
  case handleClose =>
    obtain ⟨hadd, ⟨⟩⟩ := Option.ite_none_right_eq_some.1 h
    split
    · exact .same
    · case isFalse hopen => exact .close hadd (Bool.eq_false_iff.2 hopen)
  case attend =>
    obtain ⟨hadd, ⟨⟩⟩ := Option.ite_none_right_eq_some.1 h
    split
    · case isTrue hwant => exact .attend hadd hwant
    · exact .same
  case destroy =>
    obtain ⟨⟨hdes, hclosed, hidle⟩, ⟨⟩⟩ := Option.ite_none_right_eq_some.1 h
    exact .destroy hdes hclosed hidle
  case sendOne =>
    cases h
    exact .same
  case closeSession =>
    cases h
    exact .same

/-- The steps of a worker within its loop, and those of other threads, leave the run state alone. -/
theorem step_runState {p q : Pair} {a : PairAct} (h : p.step a = some q) : q.work.runState = p.work.runState := by
  cases a <;> simp only [Pair.step] at h <;> grind [WorkPc.runState]

theorem copied_subset (fifo : List Chunk) : ∀ c ∈ (fifo.dropWhile (· = .data)).drop 1, c ∈ fifo :=
  fun _ hc => (List.dropWhile_suffix _).subset (List.mem_of_mem_drop hc)

theorem Client.move {p q : Pair} (h : p.Client) (hq : p.Move q) : q.Client := by
  cases hq with
  | same => exact h
  | works w hw => exact { h with busy := fun _ => h.busy hw.busy, closes := fun hcl => h.closes (hw.closes hcl) }
  | clears hw =>
    have hbusy : p.work ≠ .idle := by rcases hw with ⟨hw, -⟩ | hw <;> simp [hw]
    exact { h with busy := fun _ => h.busy hbusy, sentinel := by simp, closes := by simp [WorkPc.closes] }
  | copy hw =>
    exact { h with
      busy := fun _ => h.busy (by simp [hw])
      sentinel := fun hmem => h.sentinel (copied_subset _ _ hmem)
      closes := fun hcl => h.sentinel (of_decide_eq_true hcl) }
  | invalidate hw hcb =>
    exact { h with busy := fun _ => h.busy (by simp [hw]), closes := fun _ => h.closes (by rw [hw]; rfl) }
  | reset hw => exact { h with busy := fun _ => h.busy (by simp [hw]), closes := fun _ => h.closes (by rw [hw]; rfl) }
  | forget hw => exact { h with busy := fun _ => h.busy (by simp [hw]), closes := fun _ => h.closes (by rw [hw]; rfl) }
  | disable hw => exact { h with busy := fun _ => h.busy (by simp [hw]), closes := by simp [WorkPc.closes] }
  | add hadd =>
    exact { h with
      known := fun _ => .inr rfl
      adding := by simp
      added := fun _ => (h.adding hadd).1
      destroying := fun hd => ⟨rfl, (h.destroying hd).2⟩ }
  | input hadd hopen => exact { h with sentinel := fun hmem => h.sentinel (by simpa using hmem) }
  | close hadd hopen => exact { h with sentinel := fun _ => rfl, closes := fun _ => rfl }
  | scan hadd hw => exact { h with busy := fun _ => h.added hadd, closes := by simp [WorkPc.closes] }
  | attend hadd hwant => exact { h with destroying := fun _ => ⟨hadd, hwant⟩ }
  | destroy hdes hclosed hidle =>
    have hadded : p.added = true := (h.destroying hdes).1
    exact { h with
      born := by simp
      busy := fun hbusy => absurd hidle hbusy
      known := by simp
      adding := fun hadd => absurd (h.adding hadd).2 (by simp [hadded])
      added := by simp
      destroying := by simp
      sentinel := by simp }

theorem sentinel_copied {fifo : List Chunk} (h : Chunk.sentinel ∈ fifo) : (WorkPc.offering (decide (Chunk.sentinel ∈ fifo))).closes := by
  simpa [WorkPc.closes] using h

theorem InUse.move {p q : Pair} (h : p.InUse) (hq : p.Move q) : q.InUse := by
  have hc := h.toClient.move hq
  have hcb := h.cb
  have hreg : ∀ w, p.work ≠ .unregistered → w ≠ .unregistered → (p.registered = false ↔ w = WorkPc.unregistered) :=
    fun w hne hne' => iff_of_false (fun hno => hne (h.registered.1 hno)) hne'
  cases hq with
  | same => exact h
  | works w hw =>
    obtain ⟨hcl, hwork, hne, hval⟩ := (hcb ▸ hw).of_enabled
    exact { h with
      toClient := hc
      registered := hreg w hne.1 hne.2
      valid := fun hw' => h.valid (.inl (hval hw'))
      closed := fun ho => (h.closed ho).imp_right hcl
      work := hwork }
  | clears hw =>
    rcases hw with ⟨-, hno⟩ | hw
    · simp [hno] at hcb
    · exact absurd hw h.work.2.2
  | copy hw =>
    have hnot : p.work.closes = false := by rw [hw]; rfl
    exact { h with
      toClient := hc
      registered := hreg _ (by simp [hw]) (by simp)
      valid := by simp
      closed := fun ho => .inr (sentinel_copied ((h.closed ho).resolve_right (by simp [hnot])))
      work := by simp }
  | invalidate hw _ =>
    exact { h with
      toClient := hc
      registered := hreg _ (by simp [hw]) (by simp)
      valid := fun _ => rfl
      closed := fun _ => .inr rfl
      work := by simp }
  | reset hw =>
    exact { h with
      toClient := hc
      registered := iff_of_true rfl rfl
      valid := fun _ => h.valid (.inr (.inl hw))
      closed := fun _ => .inr rfl
      work := by simp }
  | forget hw => exact absurd hw h.work.1
  | disable hw => exact absurd hw h.work.2.1
  | add _ => exact { h with toClient := hc }
  | input _ hopen => exact { h with toClient := hc, closed := fun ho => by simp [hopen] at ho }
  | close _ _ => exact { h with toClient := hc, closed := fun _ => .inl (by simp) }
  | scan _ hw =>
    have hnot : p.work.closes = false := by rw [hw]; rfl
    exact { h with
      toClient := hc
      registered := hreg _ (by simp [hw]) (by simp)
      valid := by simp
      closed := fun ho => .inl ((h.closed ho).resolve_right (by simp [hnot]))
      work := by simp }
  | attend _ hwant => simp [h.wantDelete] at hwant
  | destroy hdes _ _ => simpa [h.wantDelete] using (h.destroying hdes).2

theorem inUse_ready : ({ ready with adding := true } : Pair).InUse := by
  constructor <;> simp [ready, joined, made, unborn, WorkPc.closes]
  exact ⟨by simp, by simp, by simp, by simp, by simp, by simp, by simp, by simp [WorkPc.closes]⟩

/-- A worker in the session is at the end of its `process_close`. -/
theorem Listed.leaving {p : Pair} (h : p.Listed) (hw : p.work.holdsCb) : p.work = .expired ∨ p.work = .forgotten :=
  h.cb (h.work hw)

theorem Listed.move {p q : Pair} (h : p.Listed) (hq : p.Move q) : q.Listed := by
  have hc := h.toClient.move hq
  have hnot : ∀ w, p.work = w → w.holdsCb = false → p.cb = false := fun w hw hno =>
    Bool.eq_false_iff.2 fun hcb => by rcases h.cb hcb with he | he <;> simp [← hw, he, WorkPc.holdsCb] at hno
  cases hq with
  | same => exact h
  | works w hw =>
    have hno : p.cb = false := Bool.eq_false_iff.2 fun hcb => by rcases h.cb hcb with he | he <;> rw [he] at hw <;> cases hw
    exact { h with
      toClient := hc
      cb := fun hcb => by simp [hno] at hcb
      work := fun hw' => (hw.holdsCb hw').elim id fun he => h.work (by rw [he]; rfl) }
  | clears hw =>
    have hno : p.cb = false := hw.elim (·.2) fun hw => hnot _ hw rfl
    exact { h with toClient := hc, cb := fun hcb => by simp [hno] at hcb, work := by simp [WorkPc.holdsCb] }
  | copy hw =>
    exact { h with toClient := hc, cb := fun hcb => by simp [hnot _ hw rfl] at hcb, work := by simp [WorkPc.holdsCb] }
  | invalidate hw hcb => simp [hnot _ hw rfl] at hcb
  | reset hw => rcases h.leaving (by rw [hw]; rfl) with he | he <;> simp [hw] at he
  | forget hw =>
    exact { h with toClient := hc, cb := fun _ => .inr rfl, work := fun _ => h.work (by rw [hw]; rfl) }
  | disable hw => exact { h with toClient := hc, cb := by simp, work := by simp [WorkPc.holdsCb] }
  | add _ => exact { h with toClient := hc }
  | input _ _ => exact { h with toClient := hc }
  | close _ _ => exact { h with toClient := hc, ioClosed := rfl }
  | scan _ hw =>
    exact { h with toClient := hc, cb := fun hcb => by simp [hnot _ hw rfl] at hcb, work := by simp [WorkPc.holdsCb] }
  | attend _ hwant => simp [h.wantDelete] at hwant
  | destroy hdes _ _ => simpa [h.wantDelete] using (h.destroying hdes).2

theorem Quiet.move {p q : Pair} (h : p.Quiet) (hq : p.Move q) : q.Quiet ∧ q.session = p.session ∧ q.wantDelete = p.wantDelete := by
  have hc := h.toClient.move hq
  have hcb := h.cb
  have hout : ∀ w, p.work = w → w.holdsCb = false := fun w hw => hw ▸ h.work
  cases hq with
  | same => exact ⟨h, rfl, rfl⟩
  | works w hw =>
    have hno : w.holdsCb = false := Bool.eq_false_iff.2 fun hw' => (hw.holdsCb hw').elim (by simp [hcb]) fun he =>
      nomatch hout _ he
    exact ⟨{ h with toClient := hc, work := hno }, rfl, rfl⟩
  | clears _ => exact ⟨{ h with toClient := hc, work := rfl }, rfl, rfl⟩
  | copy _ => exact ⟨{ h with toClient := hc, work := rfl }, rfl, rfl⟩
  | invalidate _ hcb' => simp [hcb] at hcb'
  | reset hw => cases hout _ hw
  | forget hw => cases hout _ hw
  | disable hw => cases hout _ hw
  | add _ => exact ⟨{ h with toClient := hc }, rfl, rfl⟩
  | input _ _ => exact ⟨{ h with toClient := hc }, rfl, rfl⟩
  | close _ _ => exact ⟨{ h with toClient := hc }, rfl, rfl⟩
  | scan _ _ => exact ⟨{ h with toClient := hc, work := rfl }, rfl, rfl⟩
  | attend _ _ => exact ⟨{ h with toClient := hc }, rfl, rfl⟩
  | destroy _ _ _ => exact ⟨{ h with toClient := hc, cb := rfl }, rfl, rfl⟩

/-- A client is freed only when the reactor was asked to. -/
theorem Move.client {p q : Pair} (h : p.Client) (hq : p.Move q) (hlive : p.client = .live) (hwant : p.wantDelete = false) :
    q.client = .live := by
  cases hq with
  | destroy hdes _ _ => simpa [hwant] using (h.destroying hdes).2
  | _ => exact hlive

/-- Before the client is in the reactor's hands nothing moves. -/
theorem Move.eq_of_idle {p q : Pair} (hq : p.Move q) (hidle : p.work = .idle) (hadding : p.adding = false)
    (hadded : p.added = false) (hdes : p.destroying = false) : q = p := by
  cases hq with
  | same => rfl
  | works w hw => exact absurd hidle hw.busy
  | clears hw => rcases hw with ⟨hw, -⟩ | hw <;> simp [hw] at hidle
  | _ => simp_all

/-- **A step of a thread with one pair keeps the pair in its place.** -/
theorem Ok.move {p q : Pair} {pl : Place} (h : p.Ok pl) (hq : p.Move q) : q.Ok pl := by
  cases pl with
  | unborn => exact hq.eq_of_idle (by rw [h]; rfl) (by rw [h]; rfl) (by rw [h]; rfl) (by rw [h]; rfl) ▸ h
  | made => exact hq.eq_of_idle (by rw [h]; rfl) (by rw [h]; rfl) (by rw [h]; rfl) (by rw [h]; rfl) ▸ h
  | joined => exact hq.eq_of_idle (by rw [h]; rfl) (by rw [h]; rfl) (by rw [h]; rfl) (by rw [h]; rfl) ▸ h
  | ready => exact hq.eq_of_idle (by rw [h]; rfl) (by rw [h]; rfl) (by rw [h]; rfl) (by rw [h]; rfl) ▸ h
  | inUse => exact InUse.move h hq
  | listed => exact Listed.move h hq
  | released =>
    obtain ⟨hquiet, hs, hlive, hwant⟩ := h
    obtain ⟨hquiet', hs', hwant'⟩ := hquiet.move hq
    exact ⟨hquiet', hs'.trans hs, hq.client hquiet.toClient hlive hwant, hwant'.trans hwant⟩
  | flagged =>
    obtain ⟨hquiet, hs, hwant⟩ := h
    obtain ⟨hquiet', hs', hwant'⟩ := hquiet.move hq
    exact ⟨hquiet', hs'.trans hs, hwant'.trans hwant⟩
  | gone =>
    obtain ⟨hquiet, hs, hwant⟩ := h
    obtain ⟨hquiet', hs', hwant'⟩ := hquiet.move hq
    exact ⟨hquiet', hs'.trans hs, hwant'.trans hwant⟩

theorem InUse.expired {p : Pair} (h : p.InUse) (hw : p.work = .unregistered) : ({ p with work := .expired } : Pair).Listed :=
  have hclosed : p.ioClosed := h.closes (by rw [hw]; rfl)
  { h with
    busy := fun _ => h.client
    closes := fun _ => hclosed
    registered := h.registered.2 hw
    valid := h.valid (.inr (.inr hw))
    ioClosed := hclosed
    cb := fun _ => .inl rfl
    work := fun _ => h.cb }

/-- What is on the list can be deleted at once. -/
theorem Listed.safeToDelete {p : Pair} (h : p.Listed) : p.safeToDelete = true := by
  simp [Pair.safeToDelete, h.valid, h.ioClosed]

/-- Once `m_cb_mtx` was free, no callback is left and none will come. -/
theorem Listed.released {p : Pair} (h : p.Listed) (hw : p.work.holdsCb = false) : ({ p with cb := false } : Pair).Ok .released :=
  ⟨{ h with cb := rfl, work := hw }, h.session, h.client, h.wantDelete⟩

theorem Quiet.wanted {p : Pair} (h : p.Quiet) : ({ p with wantDelete := true } : Pair).Quiet :=
  { h with destroying := fun hd => ⟨(h.destroying hd).1, rfl⟩ }

theorem Ok.cb_of_destroying {p : Pair} {pl : Place} (h : p.Ok pl) (hdes : p.destroying) : p.cb = false := by
  cases pl with
  | unborn | made | joined | ready =>
    rw [h] at hdes
    cases hdes
  | inUse => simpa [InUse.wantDelete h] using ((InUse.toClient h).destroying hdes).2
  | listed => simpa [Listed.wantDelete h] using ((Listed.toClient h).destroying hdes).2
  | released | flagged | gone => exact h.1.cb

/-- What the threads rely on: the objects that a thread can come to are there. -/
structure Alive (p : Pair) : Prop where
  busy       : p.work ≠ .idle → p.client = .live
  added      : p.added → p.client = .live
  destroying : p.destroying → p.client = .live
  cb         : p.cb → p.session = .live
  holdsCb    : p.work.holdsCb → p.session = .live
  registered : p.registered → p.session = .live ∧ (p.ioHandle → p.client = .live)

theorem Client.alive {p : Pair} (h : p.Client) (hcb : p.cb ∨ p.work.holdsCb → p.session = .live)
    (hreg : p.registered → p.session = .live ∧ (p.ioHandle → p.client = .live)) : p.Alive where
  busy       := h.busy
  added      := h.added
  destroying := fun hd => h.added (h.destroying hd).1
  cb         := fun h => hcb (.inl h)
  holdsCb    := fun h => hcb (.inr h)
  registered := hreg

theorem Quiet.alive {p : Pair} (h : p.Quiet) : p.Alive :=
  h.toClient.alive (by simp [h.cb, h.work]) (by simp [h.registered])

theorem Ok.alive {p : Pair} {pl : Place} (h : p.Ok pl) : p.Alive := by
  cases pl with
  | unborn =>
    obtain rfl : p = unborn := h
    constructor <;> simp [unborn, WorkPc.holdsCb]
  | made =>
    obtain rfl : p = made := h
    constructor <;> simp [made, unborn, WorkPc.holdsCb]
  | joined =>
    obtain rfl : p = joined := h
    constructor <;> simp [joined, made, unborn, WorkPc.holdsCb]
  | ready =>
    obtain rfl : p = ready := h
    constructor <;> simp [ready, joined, made, unborn, WorkPc.holdsCb]
  | inUse => exact Client.alive (InUse.toClient h) (fun _ => InUse.session h) fun _ => ⟨InUse.session h, fun _ => InUse.client h⟩
  | listed => exact Client.alive (Listed.toClient h) (fun _ => Listed.session h) fun _ => ⟨Listed.session h, fun _ => Listed.client h⟩
  | released => exact h.1.alive
  | flagged => exact h.1.alive
  | gone => exact h.1.alive

theorem mem_client {p : Pair} (h : p.client = .live) : ∀ o ∈ [Side.client], p.mem o = .live :=
  List.forall_mem_singleton.2 h

theorem mem_session {p : Pair} (h : p.session = .live) : ∀ o ∈ [Side.session], p.mem o = .live :=
  List.forall_mem_singleton.2 h

theorem mem_both {p : Pair} (hc : p.client = .live) (hs : p.session = .live) : ∀ o ∈ [Side.client, .session], p.mem o = .live :=
  List.forall_mem_cons.2 ⟨hc, mem_session hs⟩

/-- Who finds the session in the registry finds it, and the client behind it. -/
theorem Alive.found {p : Pair} (h : p.Alive) {io : Bool} (hio : io → p.ioHandle) :
    ∀ o ∈ if p.registered then Side.session :: (if io then [.client] else []) else [], p.mem o = .live := by
  split
  · case isTrue hreg =>
    obtain ⟨hs, hc⟩ := h.registered hreg
    refine List.forall_mem_cons.2 ⟨hs, ?_⟩
    split
    · case isTrue h' => exact mem_client (hc (hio h'))
    · exact List.forall_mem_nil _
  · exact List.forall_mem_nil _

/-- A step with a pair uses only what is there. -/
theorem Alive.uses {p q : Pair} {a : PairAct} (h : p.Alive) (hq : p.step a = some q) : ∀ o ∈ p.uses a, p.mem o = .live := by
  have hbusy : ∀ w, p.work = w → w ≠ .idle → p.client = .live := fun w hw hne => h.busy (hw ▸ hne)
  have hheld : ∀ w, p.work = w → w.holdsCb → p.session = .live := fun w hw hcb => h.holdsCb (hw ▸ hcb)
  cases a with
  | begin | copy | disableCb | clearFifo =>
    obtain ⟨hw, -⟩ := Option.ite_none_right_eq_some.1 hq
    exact mem_client (hbusy _ hw (by simp))
  | unsubscribeAll | resetSlot | forgetListener =>
    obtain ⟨hw, -⟩ := Option.ite_none_right_eq_some.1 hq
    exact mem_session (hheld _ hw rfl)
  | handleInput =>
    obtain ⟨⟨hadd, -⟩, -⟩ := Option.ite_none_right_eq_some.1 hq
    exact mem_client (h.added hadd)
  | handleClose | attend =>
    obtain ⟨hadd, -⟩ := Option.ite_none_right_eq_some.1 hq
    exact mem_client (h.added hadd)
  | destroy =>
    obtain ⟨⟨hdes, -⟩, -⟩ := Option.ite_none_right_eq_some.1 hq
    exact mem_client (h.destroying hdes)
  | pullAdd => exact List.forall_mem_nil _
  | offer =>
    simp only [Pair.step] at hq
    split at hq
    · case h_1 close hw =>
      obtain ⟨hcb, -⟩ := Option.ite_none_right_eq_some.1 hq
      exact mem_both (hbusy _ hw (by simp)) (h.cb hcb)
    · cases hq
  | processInput =>
    simp only [Pair.step] at hq
    split at hq
    · case h_1 close hw => exact mem_both (hbusy _ hw (by simp)) (hheld _ hw rfl)
    · cases hq
  | consumed =>
    simp only [Pair.step] at hq
    split at hq
    · case h_1 close hw => exact mem_client (hbusy _ hw (by simp))
    · cases hq
  | processClose =>
    have hlive : p.client = .live := h.busy fun hidle => by simp [Pair.step, hidle] at hq
    simp only [Pair.uses]
    split
    · case isTrue hcb => exact mem_both hlive (h.cb hcb.2)
    · exact mem_client hlive
  | sendOne => exact h.found fun hio => (Bool.and_eq_true_iff.1 hio).2
  | closeSession => exact h.found id

end Pair

end Exio
