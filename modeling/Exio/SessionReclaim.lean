import Mathlib.Logic.Relation
import Exio.SessionSafe
/-!
# SessionReclaim — the threads do not block each other, and what is closed can be deleted

The accept thread waits for a worker with the lock of the expired sessions in hand, and a worker waits for that lock with
`m_cb_mtx` in hand.  The two locks are taken in both orders, but not for the same session: the worker that the accept thread
waits for has put its session on the list already, and takes no lock before it gives `m_cb_mtx` back.

So from any state the accept thread can be brought to the end of what it is doing (`accept_run`), a worker to the end of its
work (`worker_finish`), a session whose connection was closed to the list (`to_list`), and from there both objects to their
end.
-/
namespace Exio

/-! ## Who waits for whom -/

/-- A thread that takes the two locks: the accept thread, or the worker that has the client. -/
inductive LifeThread where
  | accept
  | worker (j : Nat)

def PairAct.ofWorker : PairAct → Bool
  | .begin | .copy | .offer | .processInput | .consumed | .processClose | .unsubscribeAll | .resetSlot | .forgetListener
  | .disableCb | .clearFifo => true
  | _ => false

theorem Place.inUse_of_rank {pl : Place} (h : 4 ≤ pl.rank) (h' : ¬ 5 ≤ pl.rank) : pl = .inUse := by
  cases pl <;> simp [Place.rank] at h h' ⊢

theorem Pair.Ok.rank_of_ioClosed {p : Pair} {pl : Place} (h : p.Ok pl) (hclosed : p.ioClosed) : 4 ≤ pl.rank := by
  cases pl with
  | unborn | made | joined | ready =>
    rw [h] at hclosed
    cases hclosed
  | _ => simp [Place.rank]

theorem WorkPc.idle_of_runState {w : WorkPc} (h : w.runState = .N) : w = .idle := by
  cases w <;> first | rfl | cases h

namespace Lives

/-- The thread a step belongs to; none for the reactor, for a worker at the run queue and for a thread that sends. -/
def actor (s : Lives) : LifeAct → Option LifeThread
  | .pair j a => if a.ofWorker then some (.worker j) else none
  | .expire j => some (.worker j)
  | .updateRunState w => (s.pool w).map .worker
  | .scan _ | .takeWork _ => none
  | _ => some .accept

/-- The thread is in the middle of its work. -/
def AtWork (s : Lives) : LifeThread → Prop
  | .accept => s.accept ≠ .idle
  | .worker j => s.runState j = .R

def CanMove (s : Lives) (th : LifeThread) : Prop := ∃ a t, s.actor a = some th ∧ lifeStep s a = some t

/-- A thread waits for the one that has the lock it needs next. -/
inductive Awaits (s : Lives) : LifeThread → LifeThread → Prop
  | list {j : Nat} (hw : (s.pairs j).work = .unregistered) (hheld : s.accept.holdsExpired) : Awaits s (.worker j) .accept
  | callback {j : Nat} {todo later : List Nat} (hpc : s.accept = .deleting j .release todo later)
    (hheld : (s.pairs j).work.holdsCb) : Awaits s .accept (.worker j)

end Lives

/-- What is left for a worker to do with the client, if nothing more comes in.  A round of `do_work` takes something from the
fifo, or it is the last one. -/
def Pair.workLeft (p : Pair) : Nat :=
  30 * p.fifo.length +
    match p.work with
    | .idle | .queued => 0
    | .running => if p.fifo = [] then 25 else 12
    | .copying => if p.fifo = [] then 24 else 11
    | .input _ => 23
    | .offering _ => 22
    | .closing => 21
    | .unsubscribed => 20
    | .unregistered => 19
    | .expired => 18
    | .forgotten => 17
    | .clearing => 16
    | .worked => 15

namespace Pair

theorem length_copied {fifo : List Chunk} (h : fifo ≠ []) : ((fifo.dropWhile (· = .data)).drop 1).length + 1 ≤ fifo.length := by
  have hsub := (List.dropWhile_suffix (fun c : Chunk => decide (c = .data)) (l := fifo)).length_le
  have hpos := List.length_pos_of_ne_nil h
  rw [List.length_drop]
  omega

/-- A worker goes on with the client, but for the list and for the end of a round. -/
theorem work_step {p : Pair} (hrun : p.work.runState = .R) (hlist : p.work ≠ .unregistered) (hend : p.work ≠ .worked) :
    ∃ a q, a.ofWorker ∧ p.step a = some q ∧ q.workLeft < p.workLeft := by
  cases hw : p.work with
  | idle | queued => simp [hw, WorkPc.runState] at hrun
  | unregistered => exact absurd hw hlist
  | worked => exact absurd hw hend
  | running =>
    have hone := List.length_pos_iff (l := p.fifo)
    cases hcb : p.cb with
    | true => exact ⟨.begin, { p with work := .copying }, rfl, by simp [Pair.step, hw, hcb], by simp only [workLeft, hw]; split <;> omega⟩
    | false =>
      refine ⟨.begin, { p with fifo := [], work := .worked }, rfl, by simp [Pair.step, hw, hcb], ?_⟩
      simp only [workLeft, hw, List.length_nil]
      split
      · omega
      · case isFalse hne =>
        have := hone.2 hne
        omega
  | copying =>
    refine ⟨.copy, _, rfl, by simp only [Pair.step, hw, if_true]; rfl, ?_⟩
    simp only [workLeft, hw]
    split
    · case isTrue hnil => simp [hnil]
    · case isFalse hne =>
      have := length_copied hne
      omega
  | offering close =>
    cases close with
    | false => exact ⟨.processClose, { p with work := .worked }, rfl, by simp [Pair.step, hw], by simp [workLeft, hw]⟩
    | true =>
      cases hcb : p.cb with
      | true =>
        exact ⟨.processClose, { p with valid := false, work := .closing }, rfl, by simp [Pair.step, hw, hcb], by simp [workLeft, hw]⟩
      | false => exact ⟨.processClose, { p with work := .clearing }, rfl, by simp [Pair.step, hw, hcb], by simp [workLeft, hw]⟩
  | input close => exact ⟨.consumed, { p with work := .offering close }, rfl, by simp [Pair.step, hw], by simp [workLeft, hw]⟩
  | closing => exact ⟨.unsubscribeAll, { p with work := .unsubscribed }, rfl, by simp [Pair.step, hw], by simp [workLeft, hw]⟩
  | unsubscribed =>
    exact ⟨.resetSlot, { p with registered := false, work := .unregistered }, rfl, by simp [Pair.step, hw], by simp [workLeft, hw]⟩
  | expired =>
    exact ⟨.forgetListener, { p with listener := false, work := .forgotten }, rfl, by simp [Pair.step, hw], by simp [workLeft, hw]⟩
  | forgotten =>
    exact ⟨.disableCb, { p with cb := false, work := .clearing }, rfl, by simp [Pair.step, hw], by simp [workLeft, hw]⟩
  | clearing =>
    refine ⟨.clearFifo, { p with fifo := [], work := .worked }, rfl, by simp [Pair.step, hw], ?_⟩
    simp only [workLeft, hw, List.length_nil]
    omega

end Pair

namespace Lives

/-- A worker can go on, but for the list. -/
theorem Inv.worker_moves {s : Lives} {place : Nat → Place} (h : s.Inv place) {j : Nat} (hrun : s.runState j = .R) :
    s.CanMove (.worker j) ∨ s.Awaits (.worker j) .accept := by
  by_cases hlist : (s.pairs j).work = .unregistered
  · cases hheld : s.accept.holdsExpired with
    | true => exact .inr (.list hlist hheld)
    | false => exact .inl ⟨_, _, rfl, Goes.step (.expire hlist hheld)⟩
  · by_cases hend : (s.pairs j).work = .worked
    · obtain ⟨w, -, hw⟩ := h.pool.worker j hrun
      have hactor : s.actor (.updateRunState w) = some (.worker j) := by simp [actor, hw]
      by_cases hfifo : (s.pairs j).fifo = []
      · exact .inl ⟨_, _, hactor, Goes.step (.rest hw hend hfifo)⟩
      · exact .inl ⟨_, _, hactor, Goes.step (.again hw hend hfifo)⟩
    · obtain ⟨a, p, ha, hp, -⟩ := Pair.work_step hrun hlist hend
      exact .inl ⟨.pair j a, _, by simp [actor, ha], Goes.step (.pair hp)⟩

/-- The accept thread can go on, but for a session that a worker is about to leave. -/
theorem accept_moves {s : Lives} (hpc : s.accept ≠ .idle) :
    s.CanMove .accept ∨ ∃ j todo later, s.accept = .deleting j .release todo later ∧ (s.pairs j).work.holdsCb := by
  match hacc : s.accept with
  | .idle => exact absurd hacc hpc
  | .newClient j => exact .inl ⟨_, _, rfl, Goes.step (.newClient hacc)⟩
  | .ioInit j => exact .inl ⟨_, _, rfl, Goes.step (.ioInit hacc)⟩
  | .addClient j => exact .inl ⟨_, _, rfl, Goes.step (.addClient hacc)⟩
  | .logon j => exact .inl ⟨_, _, rfl, Goes.step (.sendLogon hacc)⟩
  | .cleaning [] later => exact .inl ⟨_, _, rfl, Goes.step (.unlockExpired hacc)⟩
  | .cleaning (j :: todo) later => exact .inl ⟨_, _, rfl, Goes.step (.checkNext hacc)⟩
  | .deleting j .flag todo later => exact .inl ⟨_, _, rfl, Goes.step (.raiseFlag hacc)⟩
  | .deleting j .free todo later => exact .inl ⟨_, _, rfl, Goes.step (.free hacc)⟩
  | .deleting j .release todo later =>
    cases hheld : (s.pairs j).work.holdsCb with
    | true => exact .inr ⟨j, todo, later, rfl, hheld⟩
    | false =>
      cases hio : (s.pairs j).ioHandle with
      | true => exact .inl ⟨_, _, rfl, Goes.step (.release hacc hio hheld)⟩
      | false => exact .inl ⟨_, _, rfl, Goes.step (.noClient hacc hio)⟩

/-- Who the accept thread waits for can go on. -/
theorem Inv.accept_or_worker {s : Lives} {place : Nat → Place} (h : s.Inv place) (hpc : s.accept ≠ .idle) :
    s.CanMove .accept ∨ ∃ j, s.Awaits .accept (.worker j) ∧ s.CanMove (.worker j) := by
  rcases accept_moves hpc with hmove | ⟨j, todo, later, hacc, hheld⟩
  · exact .inl hmove
  · have hj : place j = .listed := by
      have hagree := h.accept
      rw [hacc] at hagree
      exact hagree.1
    refine .inr ⟨j, .callback hacc hheld, ?_⟩
    have hleave : (s.pairs j).work = .expired ∨ (s.pairs j).work = .forgotten := Pair.Listed.leaving (h.ok_of hj) hheld
    have hrun : s.runState j = .R := by rcases hleave with hw | hw <;> rw [runState, hw] <;> rfl
    refine (h.worker_moves hrun).resolve_right fun hwait => ?_
    cases hwait with
    | list hw => rcases hleave with hl | hl <;> simp [hw] at hl

end Lives

/-- **No deadlock.**  A thread that is in the middle of its work can go on, or it waits for one that can: the chain of the
threads that wait for each other's lock has an end, although the two locks are taken in both orders. -/
theorem life_no_deadlock {nworkers : Nat} {s : Lives} {th : LifeThread}
    (hreach : Steps.Reaches lifeStep Steps.Always (Lives.new nworkers) s) (hwork : s.AtWork th) :
    ∃ th', Relation.ReflTransGen s.Awaits th th' ∧ s.CanMove th' := by
  obtain ⟨place, h⟩ := lives_inv hreach
  have haccept : s.accept ≠ .idle → ∃ th', Relation.ReflTransGen s.Awaits .accept th' ∧ s.CanMove th' := by
    intro hpc
    rcases h.accept_or_worker hpc with hmove | ⟨j, hwait, hmove⟩
    · exact ⟨.accept, .refl, hmove⟩
    · exact ⟨.worker j, .single hwait, hmove⟩
  match th with
  | .accept => exact haccept hwork
  | .worker j =>
    rcases h.worker_moves hwork with hmove | hwait
    · exact ⟨.worker j, .refl, hmove⟩
    · have hpc : s.accept ≠ .idle := fun hidle => by
        cases hwait with
        | list _ hheld => simp [hidle, AcceptPc.holdsExpired] at hheld
      obtain ⟨th', hchain, hmove⟩ := haccept hpc
      exact ⟨th', .head hwait hchain, hmove⟩

/-- Two sessions are closed, by two workers.  The accept thread finds the first one on the list while its worker is still in
it, and the second worker finds the list locked. -/
def sampleWaits : List LifeAct :=
  [.createSession, .newClient, .ioInit, .addClient, .sendLogon, .createSession, .newClient, .ioInit, .addClient, .sendLogon,
    .pair 0 .pullAdd, .pair 1 .pullAdd, .pair 0 .handleClose, .pair 1 .handleClose, .scan 0, .scan 1, .takeWork 0, .takeWork 1,
    .pair 0 .begin, .pair 0 .copy, .pair 0 .processClose, .pair 0 .unsubscribeAll, .pair 0 .resetSlot,
    .pair 1 .begin, .pair 1 .copy, .pair 1 .processClose, .pair 1 .unsubscribeAll, .pair 1 .resetSlot,
    .expire 0, .lockExpired, .checkNext]

def AcceptPc.isReleasing : AcceptPc → Option Nat
  | .deleting j .release _ _ => some j
  | _ => none

theorem AcceptPc.of_isReleasing {pc : AcceptPc} {j : Nat} (h : pc.isReleasing = some j) :
    ∃ todo later, pc = .deleting j .release todo later := by
  match pc with
  | .deleting i .release todo later =>
    obtain rfl : i = j := Option.some.inj h
    exact ⟨todo, later, rfl⟩

theorem life_no_deadlock_sample : ∃ s : Lives, Steps.Reaches lifeStep Steps.Always (Lives.new 2) s ∧
    s.Awaits (.worker 1) .accept ∧ s.Awaits .accept (.worker 0) ∧
    ∃ th', Relation.ReflTransGen s.Awaits (.worker 1) th' ∧ s.CanMove th' := by
  have hrun : (Steps.run lifeStep (Lives.new 2) sampleWaits).map
      (fun s => ((s.pairs 1).work, (s.pairs 0).work, s.accept.isReleasing)) = some (.unregistered, .expired, some 0) := by
    decide +kernel
  obtain ⟨s, hs, hfacts⟩ := Option.map_eq_some_iff.1 hrun
  simp only [Prod.mk.injEq] at hfacts
  obtain ⟨hw₁, hw₀, hpc⟩ := hfacts
  obtain ⟨todo, later, hpc⟩ := AcceptPc.of_isReleasing hpc
  have hreach := Steps.reaches_of_run _ hs
  refine ⟨s, hreach, .list hw₁ (by rw [hpc]; rfl), .callback hpc (by rw [hw₀]; rfl), life_no_deadlock hreach ?_⟩
  show (s.pairs 1).work.runState = .R
  rw [hw₁]
  rfl

/-! ## The accept thread comes to its end -/

/-- What is left for a worker that is about to leave a session. -/
def WorkPc.leaving : WorkPc → Nat
  | .expired => 2
  | .forgotten => 1
  | _ => 0

namespace Lives

/-- What is left for the accept thread to do. -/
def acceptLeft (s : Lives) : Nat :=
  match s.accept with
  | .idle => 0
  | .logon _ => 1
  | .addClient _ => 2
  | .ioInit _ => 3
  | .newClient _ => 4
  | .cleaning todo _ => 6 * todo.length + 1
  | .deleting j .release todo _ => 6 * todo.length + 4 + (s.pairs j).work.leaving
  | .deleting _ .flag todo _ => 6 * todo.length + 3
  | .deleting _ .free todo _ => 6 * todo.length + 2

/-- A run that brings the accept thread on leaves the workers where they are, but for those that are about to leave a
session. -/
structure Kept (s t : Lives) : Prop where
  work : ∀ i, (s.pairs i).work.leaving = 0 → (t.pairs i).work = (s.pairs i).work
  runq : t.runq = s.runq
  pool : t.pool = s.pool

theorem Kept.refl (s : Lives) : s.Kept s := ⟨fun _ _ => rfl, rfl, rfl⟩

theorem Kept.trans {s t u : Lives} (h : s.Kept t) (h' : t.Kept u) : s.Kept u where
  work i hi := by
    have ht := h.work i hi
    rw [h'.work i (by rw [ht, hi]), ht]
  runq := h'.runq.trans h.runq
  pool := h'.pool.trans h.pool

theorem kept_set {s : Lives} {j : Nat} {p : Pair} {pc : AcceptPc} (h : (s.pairs j).work.leaving = 0 → p.work = (s.pairs j).work) :
    s.Kept (s.set j p pc) := by
  refine ⟨fun i hi => ?_, rfl, rfl⟩
  by_cases hij : i = j
  · subst hij
    rw [set_pairs_self, h hi]
  · rw [set_pairs_of_ne s hij]

/-- One step nearer. -/
theorem Inv.accept_step {s : Lives} {place : Nat → Place} (h : s.Inv place) (hpc : s.accept ≠ .idle) :
    ∃ a t, lifeStep s a = some t ∧ s.Kept t ∧ t.acceptLeft < s.acceptLeft ∧
      (s.accept.holdsExpired → t.accept.holdsExpired ∨ t.accept = .idle ∧ t.expired = []) := by
  have hagree := h.accept
  match hacc : s.accept with
  | .idle => exact absurd hacc hpc
  | .newClient j => exact ⟨_, _, Goes.step (.newClient hacc), kept_set fun _ => rfl, by simp [acceptLeft, hacc], fun hno => nomatch hno⟩
  | .ioInit j => exact ⟨_, _, Goes.step (.ioInit hacc), kept_set fun _ => rfl, by simp [acceptLeft, hacc], fun hno => nomatch hno⟩
  | .addClient j => exact ⟨_, _, Goes.step (.addClient hacc), kept_set fun _ => rfl, by simp [acceptLeft, hacc], fun hno => nomatch hno⟩
  | .logon j => exact ⟨_, _, Goes.step (.sendLogon hacc), ⟨fun _ _ => rfl, rfl, rfl⟩, by simp [acceptLeft, hacc], fun hno => nomatch hno⟩
  | .cleaning [] later =>
    rw [hacc] at hagree
    exact ⟨_, _, Goes.step (.unlockExpired hacc), ⟨fun _ _ => rfl, rfl, rfl⟩, by simp [acceptLeft, hacc], fun _ => .inr ⟨rfl, hagree⟩⟩
  | .cleaning (j :: todo) later =>
    have hj : place j = .listed := (h.listed j).2 (by simp [waiting, hacc])
    have hp : (s.pairs j).Listed := h.ok_of hj
    have hle : (s.pairs j).work.leaving ≤ 2 := by cases (s.pairs j).work <;> simp [WorkPc.leaving]
    refine ⟨_, _, Goes.step (.checkNext hacc), ⟨fun _ _ => rfl, rfl, rfl⟩, ?_, fun _ => .inl ?_⟩
    · simp only [acceptLeft, hacc, hp.safeToDelete, if_true, List.length_cons]
      omega
    · simp [hp.safeToDelete, AcceptPc.holdsExpired]
  | .deleting j .flag todo later =>
    exact ⟨_, _, Goes.step (.raiseFlag hacc), kept_set fun _ => rfl, by simp [acceptLeft, hacc], fun _ => .inl rfl⟩
  | .deleting j .free todo later =>
    exact ⟨_, _, Goes.step (.free hacc), kept_set fun _ => rfl, by simp [acceptLeft, hacc], fun _ => .inl rfl⟩
  | .deleting j .release todo later =>
    have hj : place j = .listed := by
      rw [hacc] at hagree
      exact hagree.1
    have hp : (s.pairs j).Listed := h.ok_of hj
    cases hheld : (s.pairs j).work.holdsCb with
    | false =>
      refine ⟨_, _, Goes.step (.release hacc hp.ioHandle hheld), kept_set fun _ => rfl, ?_, fun _ => .inl rfl⟩
      simp only [acceptLeft, hacc, set_accept]
      omega
    | true =>
      -- the worker goes on instead
      rcases hp.leaving hheld with hw | hw
      · have hstep : (s.pairs j).step .forgetListener = some { s.pairs j with listener := false, work := .forgotten } := if_pos hw
        exact ⟨_, _, Goes.step (.pair hstep), kept_set fun hno => by simp [hw, WorkPc.leaving] at hno,
          by simp [acceptLeft, hacc, hw, WorkPc.leaving], fun _ => .inl (by simp [hacc, AcceptPc.holdsExpired])⟩
      · have hstep : (s.pairs j).step .disableCb = some { s.pairs j with cb := false, work := .clearing } := if_pos hw
        exact ⟨_, _, Goes.step (.pair hstep), kept_set fun hno => by simp [hw, WorkPc.leaving] at hno,
          by simp [acceptLeft, hacc, hw, WorkPc.leaving], fun _ => .inl (by simp [hacc, AcceptPc.holdsExpired])⟩

/-- **The accept thread can be brought to the end of what it is doing**; if that is the cleanup, the list is empty then. -/
theorem Inv.accept_run {s : Lives} {place : Nat → Place} (h : s.Inv place) :
    ∃ t, Steps.Reaches lifeStep Steps.Always s t ∧ t.accept = .idle ∧ s.Kept t ∧ (s.accept.holdsExpired → t.expired = []) := by
  let P : Lives → Prop := fun t => (∃ place', t.Inv place') ∧ s.Kept t ∧
    (s.accept.holdsExpired → t.accept.holdsExpired ∨ t.accept = .idle ∧ t.expired = [])
  have hnear : ∀ {t : Lives}, P t → ¬ t.accept = .idle →
      ∃ u, Steps.Reaches lifeStep Steps.Always t u ∧ P u ∧ u.acceptLeft < t.acceptLeft := by
    rintro t ⟨⟨place', h'⟩, hkept, hlist⟩ hpc
    obtain ⟨a, u, hstep, hkept', hlt, hlist'⟩ := h'.accept_step hpc
    refine ⟨u, .one hstep, ⟨(lifeStep_inv h' hstep).imp fun _ h => h.1, hkept.trans hkept', fun hheld => ?_⟩, hlt⟩
    exact hlist' ((hlist hheld).resolve_right fun hno => hpc hno.1)
  obtain ⟨t, hrun, ⟨-, hkept, hlist⟩, hidle⟩ := Steps.descend acceptLeft hnear (s := s) ⟨⟨place, h⟩, .refl s, .inl⟩
  refine ⟨t, hrun, hidle, hkept, fun hheld => ?_⟩
  rcases hlist hheld with hheld' | hnil
  · simp [hidle, AcceptPc.holdsExpired] at hheld'
  · exact hnil.2

end Lives

/-! ## What no step takes back -/

theorem Pair.Move.ioClosed {p q : Pair} (h : p.Move q) (hclosed : p.ioClosed) : q.ioClosed := by
  cases h with
  | close _ _ => rfl
  | _ => exact hclosed

namespace Lives

theorem ioClosed_update {s : Lives} {j : Nat} {p : Pair} (hp : (s.pairs j).ioClosed → p.ioClosed) {i : Nat}
    (hi : (s.pairs i).ioClosed) : (Function.update s.pairs j p i).ioClosed := by
  by_cases hij : i = j
  · subst hij
    rw [Function.update_self]
    exact hp hi
  · rw [Function.update_of_ne hij]
    exact hi

/-- A connection that is closed stays so, and the workers are as many as before. -/
theorem Inv.stays {s t : Lives} {place : Nat → Place} {a : LifeAct} (h : s.Inv place) (hstep : lifeStep s a = some t) :
    t.nworkers = s.nworkers ∧ ∀ i, (s.pairs i).ioClosed → (t.pairs i).ioClosed := by
  cases lifeStep_goes hstep with
  | pair hp => exact ⟨rfl, fun _ => ioClosed_update (Pair.step_move hp).ioClosed⟩
  | createSession hpc =>
    refine ⟨rfl, fun _ => ioClosed_update fun hclosed => ?_⟩
    have hp : s.pairs s.created = .unborn := h.ok_of (h.fresh _ (Nat.le_refl _))
    rw [hp] at hclosed
    cases hclosed
  | noWork | sendLogon | lockExpired | checkNext | noClient | unlockExpired => exact ⟨rfl, fun _ => id⟩
  | _ =>
    refine ⟨rfl, fun _ => ioClosed_update ?_⟩
    exact id

theorem Inv.stays_run {s t : Lives} {place : Nat → Place} (h : s.Inv place) (hrun : Steps.Reaches lifeStep Steps.Always s t) :
    t.nworkers = s.nworkers ∧ ∀ i, (s.pairs i).ioClosed → (t.pairs i).ioClosed := by
  induction hrun with
  | refl => exact ⟨rfl, fun _ => id⟩
  | @step t u a hrun _ hstep ih =>
    obtain ⟨place', h', -⟩ := h.reaches hrun
    obtain ⟨hn, hclosed⟩ := h'.stays hstep
    exact ⟨hn.trans ih.1, fun i hi => hclosed i (ih.2 i hi)⟩

/-! ## A worker comes to its end -/

/-- Only the worker that has the client `i` has moved. -/
structure Alone (s : Lives) (i : Nat) (t : Lives) : Prop where
  accept : t.accept = s.accept
  others : ∀ j, j ≠ i → t.pairs j = s.pairs j
  runq   : t.runq = s.runq
  pool   : ∀ w, t.pool w = s.pool w ∨ t.pool w = none

theorem Alone.refl (s : Lives) (i : Nat) : s.Alone i s := ⟨rfl, fun _ _ => rfl, rfl, fun _ => .inl rfl⟩

theorem Alone.trans {s t u : Lives} {i : Nat} (h : s.Alone i t) (h' : t.Alone i u) : s.Alone i u where
  accept := h'.accept.trans h.accept
  others j hj := (h'.others j hj).trans (h.others j hj)
  runq := h'.runq.trans h.runq
  pool w := by
    rcases h'.pool w with hw | hw
    · rw [hw]
      exact h.pool w
    · exact .inr hw

theorem alone_set {s : Lives} {i : Nat} {p : Pair} : s.Alone i (s.set i p s.accept) :=
  ⟨rfl, fun _ hj => set_pairs_of_ne s hj _ _, rfl, fun _ => .inl rfl⟩

/-- One step nearer.  The worker gives the client up only at the end of a round that leaves nothing. -/
theorem Inv.worker_step {s : Lives} {place : Nat → Place} {i : Nat} (h : s.Inv place) (hidle : s.accept = .idle)
    (hrun : s.runState i = .R) : ∃ a t, lifeStep s a = some t ∧ s.Alone i t ∧ (t.pairs i).workLeft < (s.pairs i).workLeft ∧
      (t.runState i = .R ∨ t.runState i = .N ∧ (s.pairs i).work = .worked ∧ (s.pairs i).fifo = []) := by
  by_cases hlist : (s.pairs i).work = .unregistered
  · have hfree : s.accept.holdsExpired = false := by rw [hidle]; rfl
    refine ⟨_, _, Goes.step (.expire hlist hfree), ⟨rfl, fun _ hj => set_pairs_of_ne s hj _ s.accept, rfl, fun _ => .inl rfl⟩, ?_, .inl ?_⟩
    · simp [Pair.workLeft, hlist]
    · simp [runState, WorkPc.runState]
  · by_cases hend : (s.pairs i).work = .worked
    · obtain ⟨w, -, hw⟩ := h.pool.worker i hrun
      by_cases hfifo : (s.pairs i).fifo = []
      · refine ⟨_, _, Goes.step (.rest hw hend hfifo), ⟨rfl, fun _ hj => set_pairs_of_ne s hj _ s.accept, rfl, fun w' => ?_⟩, ?_,
          .inr ⟨by simp [runState, WorkPc.runState], hend, hfifo⟩⟩
        · by_cases hw' : w' = w
          · exact .inr (by rw [hw']; exact Function.update_self ..)
          · exact .inl (Function.update_of_ne hw' ..)
        · simp [Pair.workLeft, hend, hfifo]
      · refine ⟨_, _, Goes.step (.again hw hend hfifo), alone_set, ?_, .inl ?_⟩
        · simp [Pair.workLeft, hend, hfifo]
        · simp [runState, WorkPc.runState]
    · obtain ⟨a, p, -, hp, hlt⟩ := Pair.work_step hrun hlist hend
      refine ⟨_, _, Goes.step (.pair hp), alone_set, by simpa using hlt, .inl ?_⟩
      rw [runState, set_pairs_self, Pair.step_runState hp]
      exact hrun

/-- **A worker can be brought to the end of its work**, and is then free. -/
theorem Inv.worker_finish {s : Lives} {place : Nat → Place} {i : Nat} (h : s.Inv place) (hidle : s.accept = .idle)
    (hrun : s.runState i = .R) :
    ∃ t, Steps.Reaches lifeStep Steps.Always s t ∧ s.Alone i t ∧ t.runState i = .N ∧ ∀ w, s.pool w = some i → t.pool w = none := by
  let P : Lives → Prop := fun t => (∃ place', t.Inv place') ∧ s.Alone i t ∧ (t.runState i = .R ∨ t.runState i = .N)
  have hnear : ∀ {t : Lives}, P t → ¬ t.runState i = .N →
      ∃ u, Steps.Reaches lifeStep Steps.Always t u ∧ P u ∧ (u.pairs i).workLeft < (t.pairs i).workLeft := by
    rintro t ⟨⟨place', h'⟩, halone, hstate⟩ hno
    obtain ⟨a, u, hstep, halone', hlt, hstate'⟩ := h'.worker_step (halone.accept.trans hidle) (hstate.resolve_right hno)
    exact ⟨u, .one hstep, ⟨(lifeStep_inv h' hstep).imp fun _ h => h.1, halone.trans halone', hstate'.imp_right (·.1)⟩, hlt⟩
  obtain ⟨t, hreach, ⟨⟨place', h'⟩, halone, -⟩, hN⟩ := Steps.descend (fun t => (t.pairs i).workLeft) hnear (s := s)
    ⟨⟨place, h⟩, .refl s i, .inl hrun⟩
  refine ⟨t, hreach, halone, hN, fun w hw => (halone.pool w).resolve_left fun hsame => ?_⟩
  have hR := h'.pool.runs w i (hsame.trans hw)
  simp [hN] at hR

/-- The first worker takes the client at the front. -/
theorem takeWork_step {s : Lives} {f : Nat} {runq : List Nat} (hno : s.pool 0 = none) (hq : s.runq = f :: runq) (hn : 0 < s.nworkers) :
    ∃ t, lifeStep s (.takeWork 0) = some t ∧ t.accept = s.accept ∧ t.runq = runq ∧ t.pool 0 = some f ∧ t.runState f = .R ∧
      ∀ j, j ≠ f → t.runState j = s.runState j := by
  refine ⟨_, Goes.step (.takeWork hno hq hn), rfl, rfl, ?_, ?_, fun j hj => ?_⟩
  · change Function.update s.pool 0 (some f) 0 = some f
    rw [Function.update_self]
  · simp [runState, WorkPc.runState]
  · simp only [runState]
    rw [set_pairs_of_ne s hj]

/-- **A client on the run queue can be brought to a worker**: those before it are worked off. -/
theorem Inv.taken {s : Lives} {place : Nat → Place} {j : Nat} (h : s.Inv place) (hidle : s.accept = .idle) (hn : 0 < s.nworkers)
    (hrun : s.runState j = .Q) : ∃ t, Steps.Reaches lifeStep Steps.Always s t ∧ t.accept = .idle ∧ t.runState j = .R := by
  let P : Lives → Prop := fun t => (∃ place', t.Inv place') ∧ t.accept = .idle ∧ 0 < t.nworkers ∧ (t.runState j = .Q ∨ t.runState j = .R)
  let μ : Lives → Nat := fun t =>
    if t.runState j = .R then 0 else 1 + 2 * t.runq.idxOf j + if t.pool 0 = none then 0 else 1
  have hnear : ∀ {t : Lives}, P t → ¬ t.runState j = .R → ∃ u, Steps.Reaches lifeStep Steps.Always t u ∧ P u ∧ μ u < μ t := by
    rintro t ⟨⟨place', h'⟩, hpc, hpos, hstate⟩ hno
    have hQ : t.runState j = .Q := hstate.resolve_right hno
    cases hpool : t.pool 0 with
    | some i =>
      -- the first worker is busy: let it finish
      have hR : t.runState i = .R := h'.pool.runs 0 i hpool
      have hij : j ≠ i := fun hij => by simp [hij, hR] at hQ
      obtain ⟨u, hreach, halone, -, hfree⟩ := h'.worker_finish hpc hR
      obtain ⟨place'', h'', -⟩ := h'.reaches hreach
      have hQ' : u.runState j = .Q := by rw [runState, halone.others j hij]; exact hQ
      refine ⟨u, hreach, ⟨⟨_, h''⟩, halone.accept.trans hpc, (h'.stays_run hreach).1 ▸ hpos, .inl hQ'⟩, ?_⟩
      simp [μ, hQ, hQ', hpool, hfree 0 hpool, halone.runq]
    | none =>
      cases hq : t.runq with
      | nil => simpa [hq] using (h'.pool.queued j).1 hQ
      | cons f runq =>
        obtain ⟨u, hstep, hpc', hrunq, hfirst, hself, hother⟩ := takeWork_step hpool hq hpos
        have hinv := (lifeStep_inv h' hstep).imp fun _ h => h.1
        have hpos' : 0 < u.nworkers := (h'.stays hstep).1 ▸ hpos
        by_cases hfj : f = j
        · have hR' : u.runState j = .R := hfj ▸ hself
          exact ⟨u, .one hstep, ⟨hinv, hpc'.trans hpc, hpos', .inr hR'⟩, by simp [μ, hQ, hR']⟩
        · have hQ' : u.runState j = .Q := (hother j (Ne.symm hfj)).trans hQ
          have hidx : t.runq.idxOf j = runq.idxOf j + 1 := by rw [hq]; exact List.idxOf_cons_ne _ hfj
          refine ⟨u, .one hstep, ⟨hinv, hpc'.trans hpc, hpos', .inl hQ'⟩, ?_⟩
          simp only [μ, hQ, hQ', hpool, hfirst, hrunq, hidx, reduceCtorEq, if_true, if_false]
          omega
  obtain ⟨t, hreach, ⟨-, hpc, -, -⟩, hR⟩ := Steps.descend μ hnear (s := s) ⟨⟨place, h⟩, hidle, hn, .inl hrun⟩
  exact ⟨t, hreach, hpc, hR⟩

/-! ## A closed session is reclaimed -/

/-- The session has come to the place of the given rank, and there are workers. -/
def Past (s : Lives) (j rank : Nat) : Prop := ∃ place, s.Inv place ∧ rank ≤ (place j).rank ∧ 0 < s.nworkers

theorem Past.reaches {s t : Lives} {j rank : Nat} (h : s.Past j rank) (hrun : Steps.Reaches lifeStep Steps.Always s t) :
    t.Past j rank := by
  obtain ⟨place, h, hrank, hn⟩ := h
  obtain ⟨place', h', hfwd⟩ := h.reaches hrun
  exact ⟨place', h', Nat.le_trans hrank (hfwd j), (h.stays_run hrun).1 ▸ hn⟩

/-- The session is in use, or past it, and its connection was closed. -/
def Closed (s : Lives) (j : Nat) : Prop := s.Past j 4 ∧ (s.pairs j).ioClosed

theorem Closed.reaches {s t : Lives} {j : Nat} (h : s.Closed j) (hrun : Steps.Reaches lifeStep Steps.Always s t) : t.Closed j := by
  have ⟨⟨_, hinv, _⟩, hclosed⟩ := h
  exact ⟨h.1.reaches hrun, (hinv.stays_run hrun).2 j hclosed⟩

/-- What has not come to the list is in use. -/
theorem Closed.inUse {s : Lives} {j : Nat} (h : s.Closed j) (hno : ¬ s.Past j 5) :
    ∃ place, s.Inv place ∧ place j = .inUse ∧ 0 < s.nworkers ∧ (s.pairs j).InUse ∧ (s.pairs j).ioClosed := by
  obtain ⟨⟨place, hinv, hrank, hn⟩, hclosed⟩ := h
  have hj : place j = .inUse := Place.inUse_of_rank hrank fun hle => hno ⟨place, hinv, hle, hn⟩
  exact ⟨place, hinv, hj, hn, hinv.ok_of hj, hclosed⟩

/-- A worker that has a client of a closed connection goes on to the list. -/
theorem Closed.worker_to_list {s : Lives} {j : Nat} (h : s.Closed j) (hidle : s.accept = .idle) (hrun : s.runState j = .R) :
    ∃ t, Steps.Reaches lifeStep Steps.Always s t ∧ t.Past j 5 := by
  let P : Lives → Prop := fun t => t.Closed j ∧ t.accept = .idle ∧ t.runState j = .R
  have hnear : ∀ {t : Lives}, P t → ¬ t.Past j 5 →
      ∃ u, Steps.Reaches lifeStep Steps.Always t u ∧ P u ∧ (u.pairs j).workLeft < (t.pairs j).workLeft := by
    rintro t ⟨hclosed, hpc, hR⟩ hno
    obtain ⟨place, hinv, hj, hn, hp, hio⟩ := hclosed.inUse hno
    obtain ⟨a, u, hstep, halone, hlt, hstate⟩ := hinv.worker_step hpc hR
    refine ⟨u, .one hstep, ⟨hclosed.reaches (.one hstep), halone.accept.trans hpc, hstate.resolve_right ?_⟩, hlt⟩
    -- the sentinel is still in the fifo, so this is not the last round
    rintro ⟨-, hw, hfifo⟩
    rcases hp.closed hio with hmem | hcl
    · simp [hfifo] at hmem
    · simp [hw, WorkPc.closes] at hcl
  obtain ⟨t, hreach, -, hgoal⟩ := Steps.descend (fun t => (t.pairs j).workLeft) hnear (s := s) ⟨h, hidle, hrun⟩
  exact ⟨t, hreach, hgoal⟩

/-- The reactor puts a client of a closed connection on the run queue. -/
theorem to_queue {s : Lives} {j : Nat} (hidle : s.accept = .idle) (hp : (s.pairs j).InUse) (hclosed : (s.pairs j).ioClosed)
    (hrun : s.runState j = .N) : ∃ t, Steps.Reaches lifeStep Steps.Always s t ∧ t.accept = .idle ∧ t.runState j = .Q := by
  have hw : (s.pairs j).work = .idle := WorkPc.idle_of_runState hrun
  have hmem : Chunk.sentinel ∈ (s.pairs j).fifo := (hp.closed hclosed).resolve_right (by simp [hw, WorkPc.closes])
  have hscan : ∀ {t : Lives}, t.accept = .idle → (t.pairs j).work = .idle → Chunk.sentinel ∈ (t.pairs j).fifo → (t.pairs j).added →
      ∃ u, Steps.Reaches lifeStep Steps.Always t u ∧ u.accept = .idle ∧ u.runState j = .Q := by
    intro t hpc hwork hfifo hadd
    refine ⟨_, .one (Goes.step (.scan hadd hwork (List.ne_nil_of_mem hfifo))), hpc, ?_⟩
    simp [runState, WorkPc.runState]
  rcases hp.known hp.client with hadding | hadd
  · have hpull : (s.pairs j).step .pullAdd = some { s.pairs j with adding := false, added := true } := if_pos hadding
    have hstep := Goes.step (.pair hpull)
    obtain ⟨u, hreach, hgoal⟩ := hscan (t := s.set j { s.pairs j with adding := false, added := true } s.accept) hidle
      (by simpa using hw) (by simpa using hmem) (by simp)
    exact ⟨u, Steps.Reaches.trans (.one hstep) hreach, hgoal⟩
  · exact hscan hidle hw hmem hadd

/-- **A session whose connection was closed can be brought to the list.** -/
theorem Closed.to_list {s : Lives} {j : Nat} (h : s.Closed j) : ∃ t, Steps.Reaches lifeStep Steps.Always s t ∧ t.Past j 5 := by
  -- in three parts, each from the next on: a worker has the client, it is queued, it is not
  have hrunning : ∀ {t : Lives}, t.Closed j → t.accept = .idle → t.runState j = .R →
      ∃ u, Steps.Reaches lifeStep Steps.Always t u ∧ u.Past j 5 := fun hc hpc hR => hc.worker_to_list hpc hR
  have hqueued : ∀ {t : Lives}, t.Closed j → t.accept = .idle → t.runState j = .Q →
      ∃ u, Steps.Reaches lifeStep Steps.Always t u ∧ u.Past j 5 := by
    intro t hc hpc hQ
    have ⟨⟨_, hinv, _, hn⟩, _⟩ := hc
    obtain ⟨u, hreach, hpc', hR⟩ := hinv.taken hpc hn hQ
    obtain ⟨v, hreach', hgoal⟩ := hrunning (hc.reaches hreach) hpc' hR
    exact ⟨v, hreach.trans hreach', hgoal⟩
  have ⟨⟨_, hinv, _⟩, _⟩ := h
  obtain ⟨t, hreach, hpc, -⟩ := hinv.accept_run
  have hc := h.reaches hreach
  by_cases hpast : t.Past j 5
  · exact ⟨t, hreach, hpast⟩
  · obtain ⟨place, -, -, -, hp, hio⟩ := hc.inUse hpast
    have hgoal : ∃ u, Steps.Reaches lifeStep Steps.Always t u ∧ u.Past j 5 := by
      cases hstate : t.runState j with
      | R => exact hrunning hc hpc hstate
      | Q => exact hqueued hc hpc hstate
      | N =>
        obtain ⟨u, hreach', hpc', hQ⟩ := to_queue hpc hp hio hstate
        obtain ⟨v, hreach'', hgoal⟩ := hqueued (hc.reaches hreach') hpc' hQ
        exact ⟨v, hreach'.trans hreach'', hgoal⟩
    obtain ⟨u, hreach', hgoal⟩ := hgoal
    exact ⟨u, hreach.trans hreach', hgoal⟩

/-- **A session that has come to the list can be freed.** -/
theorem Past.free {s : Lives} {j : Nat} (h : s.Past j 5) :
    ∃ t, Steps.Reaches lifeStep Steps.Always s t ∧ t.accept = .idle ∧ t.Past j 8 := by
  have ⟨_, hinv, _⟩ := h
  obtain ⟨t, hreach, hpc, -⟩ := hinv.accept_run
  -- from its idle state the accept thread runs the cleanup once
  have hlock := Goes.step (.lockExpired hpc)
  have hreach₁ := hreach.trans (.one hlock)
  have ⟨_, hinv₁, _⟩ := h.reaches hreach₁
  obtain ⟨u, hreach₂, hpc', -, hnil⟩ := hinv₁.accept_run
  obtain ⟨place, hinv₂, hrank, hn⟩ := h.reaches (hreach₁.trans hreach₂)
  refine ⟨u, hreach₁.trans hreach₂, hpc', place, hinv₂, ?_, hn⟩
  have hnot : place j ≠ .listed := fun hj => by
    have hmem := (hinv₂.listed j).1 hj
    rw [waiting_eq (by rw [hpc']; rfl), hnil rfl] at hmem
    cases hmem
  have hhand : (place j).inHand = false := Bool.eq_false_iff.2 fun hj => by
    have hsome := hinv₂.hand j hj
    simp [hpc', AcceptPc.hand] at hsome
  cases hj : place j <;> simp [hj, Place.rank, Place.inHand] at hrank hnot hhand ⊢

theorem set_self (s : Lives) (j : Nat) : s.set j (s.pairs j) s.accept = s := by
  simp [set]

theorem set_set (s : Lives) (j : Nat) (p q : Pair) : (s.set j p s.accept).set j q s.accept = s.set j q s.accept := by
  simp [set]

/-- A run of one pair is a run. -/
theorem reaches_pair {s : Lives} {j : Nat} {q : Pair} (h : Steps.Reaches Pair.step Steps.Always (s.pairs j) q) :
    Steps.Reaches lifeStep Steps.Always s (s.set j q s.accept) := by
  induction h with
  | refl => exact (set_self s j).symm ▸ .refl
  | @step p q a _ _ hp ih =>
    have hstep : ((s.set j p s.accept).pairs j).step a = some q := by rw [set_pairs_self, hp]
    have hgoes := Goes.step (.pair hstep)
    rw [set_accept, set_set] at hgoes
    exact ih.trans (.one hgoes)

/-- A client whose session is gone comes to rest. -/
theorem Past.rest {s : Lives} {j : Nat} (h : s.Past j 8) (hidle : s.accept = .idle) :
    ∃ t, Steps.Reaches lifeStep Steps.Always s t ∧ t.runState j = .N := by
  have ⟨_, hinv, _, hn⟩ := h
  cases hstate : s.runState j with
  | N => exact ⟨s, .refl, hstate⟩
  | R =>
    obtain ⟨t, hreach, -, hN, -⟩ := hinv.worker_finish hidle hstate
    exact ⟨t, hreach, hN⟩
  | Q =>
    obtain ⟨t, hreach, hpc, hR⟩ := hinv.taken hidle hn hstate
    have ⟨_, hinv', _⟩ := h.reaches hreach
    obtain ⟨u, hreach', -, hN, -⟩ := hinv'.worker_finish hpc hR
    exact ⟨u, hreach.trans hreach', hN⟩

/-- What is past the last place is gone. -/
theorem Past.gone {s : Lives} {j : Nat} (h : s.Past j 8) : (s.pairs j).Quiet ∧ (s.pairs j).session = .freed ∧ (s.pairs j).wantDelete := by
  obtain ⟨place, hinv, hrank, -⟩ := h
  have hj : place j = .gone := by cases hj : place j <;> simp [hj, Place.rank] at hrank ⊢
  exact hinv.ok_of hj

end Lives

namespace Pair

/-- What is left for the reactor to do with a client at rest that is to be deleted. -/
def destroyLeft (p : Pair) : Nat :=
  if p.client = .freed then 0
  else 1 + (if p.adding then 1 else 0) + (if p.ioClosed then 0 else 1) + if p.destroying then 0 else 1

/-- **A client at rest whose session is gone can be deleted.** -/
theorem Quiet.destroyed {p : Pair} (h : p.Quiet) (hwant : p.wantDelete) (hidle : p.work = .idle) :
    ∃ q, Steps.Reaches Pair.step Steps.Always p q ∧ q.client = .freed := by
  let P : Pair → Prop := fun p => p.Quiet ∧ p.wantDelete ∧ p.work = .idle
  have hnear : ∀ {p : Pair}, P p → ¬ p.client = .freed →
      ∃ q, Steps.Reaches Pair.step Steps.Always p q ∧ P q ∧ q.destroyLeft < p.destroyLeft := by
    rintro p ⟨hquiet, hwant, hidle⟩ hno
    have hgo : ∀ {a : PairAct} {q : Pair}, p.step a = some q → q.work = .idle → q.destroyLeft < p.destroyLeft →
        ∃ q, Steps.Reaches Pair.step Steps.Always p q ∧ P q ∧ q.destroyLeft < p.destroyLeft := by
      intro a q hq hidle' hlt
      obtain ⟨hquiet', -, hwant'⟩ := hquiet.move (step_move hq)
      exact ⟨q, .one hq, ⟨hquiet', hwant'.trans hwant, hidle'⟩, hlt⟩
    have hlive : p.client = .live := by
      cases hc : p.client with
      | unborn => exact absurd hc hquiet.born
      | live => rfl
      | freed => exact absurd hc hno
    rcases hquiet.known hlive with hadding | hadd
    · exact hgo (a := .pullAdd) (if_pos hadding) hidle (by simp [destroyLeft, hlive, hadding])
    · have hadding : p.adding = false := Bool.eq_false_iff.2 fun ha => by simpa [hadd] using (hquiet.adding ha).2
      cases hclosed : p.ioClosed with
      | false =>
        refine hgo (a := .handleClose) (q := { p with ioClosed := true, fifo := p.fifo ++ [.sentinel] }) ?_ hidle ?_
        · simp [Pair.step, hadd, hclosed]
        · simp [destroyLeft, hlive, hclosed]
      | true =>
        cases hdes : p.destroying with
        | false =>
          refine hgo (a := .attend) (q := { p with destroying := true }) ?_ hidle ?_
          · simp [Pair.step, hadd, hwant]
          · simp [destroyLeft, hlive, hdes]
        | true =>
          refine hgo (a := .destroy) (if_pos ⟨hdes, hclosed, hidle⟩) hidle ?_
          simp [destroyLeft, hlive]
  obtain ⟨q, hreach, -, hfreed⟩ := Steps.descend destroyLeft hnear (s := p) ⟨h, hwant, hidle⟩
  exact ⟨q, hreach, hfreed⟩

end Pair

/-- **Nothing leaks.**  Whatever the threads are doing, once a connection was closed the session and its client can be brought
to their end, with one worker or more: no state is reached from which a closed session could not be reclaimed. -/
theorem life_reclaims {nworkers : Nat} {s : Lives} {j : Nat} (hreach : Steps.Reaches lifeStep Steps.Always (Lives.new nworkers) s)
    (hn : 0 < nworkers) (hclosed : (s.pairs j).ioClosed) :
    ∃ t, Steps.Reaches lifeStep Steps.Always s t ∧ (t.pairs j).session = .freed ∧ (t.pairs j).client = .freed := by
  obtain ⟨place, h⟩ := lives_inv hreach
  have hn' : 0 < s.nworkers := ((Lives.inv_new nworkers).stays_run hreach).1 ▸ hn
  have hc : s.Closed j := ⟨⟨place, h, Pair.Ok.rank_of_ioClosed (h.ok j) hclosed, hn'⟩, hclosed⟩
  obtain ⟨t₁, hreach₁, hlisted⟩ := hc.to_list
  obtain ⟨t₂, hreach₂, hidle, hgone⟩ := hlisted.free
  obtain ⟨t₃, hreach₃, hrest⟩ := hgone.rest hidle
  have hgone₃ := hgone.reaches hreach₃
  obtain ⟨hquiet, -, hwant⟩ := hgone₃.gone
  obtain ⟨q, hrun, hfreed⟩ := hquiet.destroyed hwant (WorkPc.idle_of_runState hrest)
  have hreach₄ := Lives.reaches_pair hrun
  refine ⟨_, ((hreach₁.trans hreach₂).trans hreach₃).trans hreach₄, (hgone₃.reaches hreach₄).gone.2.1, ?_⟩
  rw [Lives.set_pairs_self]
  exact hfreed

theorem life_reclaims_sample : ∃ s t : Lives, Steps.Reaches lifeStep Steps.Always (Lives.new 2) s ∧
    (s.pairs 1).work = .unregistered ∧ (s.pairs 1).session = .live ∧
    Steps.Reaches lifeStep Steps.Always s t ∧ (t.pairs 1).session = .freed ∧ (t.pairs 1).client = .freed := by
  have hrun : (Steps.run lifeStep (Lives.new 2) sampleWaits).map
      (fun s => ((s.pairs 1).work, (s.pairs 1).session, (s.pairs 1).ioClosed)) = some (.unregistered, .live, true) := by
    decide +kernel
  obtain ⟨s, hs, hfacts⟩ := Option.map_eq_some_iff.1 hrun
  simp only [Prod.mk.injEq] at hfacts
  obtain ⟨hw, hlive, hclosed⟩ := hfacts
  have hreach := Steps.reaches_of_run _ hs
  obtain ⟨t, hreach', hgoal⟩ := life_reclaims hreach (by decide) hclosed
  exact ⟨s, t, hreach, hw, hlive, hreach', hgoal⟩

end Exio
