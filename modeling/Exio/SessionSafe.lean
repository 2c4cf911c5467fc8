import Exio.SessionLife
/-!
# SessionSafe — no session or client is used after it was deleted

What one step of `SessionLife` keeps, for all sessions together, and what follows for whole runs: each step finds alive what
it uses.
-/
namespace Exio

namespace Lives

/-- What a step does, by thread. -/
inductive Goes (s : Lives) : LifeAct → Lives → Prop
  | pair {j : Nat} {a : PairAct} {p : Pair} (hp : (s.pairs j).step a = some p) : Goes s (.pair j a) (s.set j p s.accept)
  | expire {j : Nat} (hw : (s.pairs j).work = .unregistered) (hfree : s.accept.holdsExpired = false) :
    Goes s (.expire j) { s.set j { s.pairs j with work := .expired } s.accept with expired := s.expired ++ [j] }
  | noWork {j : Nat} (hadd : (s.pairs j).added) (hno : ¬ ((s.pairs j).work = .idle ∧ (s.pairs j).fifo ≠ [])) : Goes s (.scan j) s
  | scan {j : Nat} (hadd : (s.pairs j).added) (hw : (s.pairs j).work = .idle) (hfifo : (s.pairs j).fifo ≠ []) :
    Goes s (.scan j) { s.set j { s.pairs j with work := .queued } s.accept with runq := s.runq ++ [j] }
  | takeWork {w j : Nat} {runq : List Nat} (hno : s.pool w = none) (hq : s.runq = j :: runq) (hlt : w < s.nworkers) :
    Goes s (.takeWork w)
      { s.set j { s.pairs j with work := .running } s.accept with runq := runq, pool := Function.update s.pool w (some j) }
  | rest {w j : Nat} (hj : s.pool w = some j) (hw : (s.pairs j).work = .worked) (hfifo : (s.pairs j).fifo = []) :
    Goes s (.updateRunState w)
      { s.set j { s.pairs j with work := .idle } s.accept with pool := Function.update s.pool w none }
  | again {w j : Nat} (hj : s.pool w = some j) (hw : (s.pairs j).work = .worked) (hfifo : (s.pairs j).fifo ≠ []) :
    Goes s (.updateRunState w) (s.set j { s.pairs j with work := .running } s.accept)
  | createSession (hpc : s.accept = .idle) :
    Goes s .createSession { s.set s.created .made (.newClient s.created) with created := s.created + 1 }
  | newClient {j : Nat} (hpc : s.accept = .newClient j) :
    Goes s .newClient (s.set j { s.pairs j with client := .live, cb := true } (.ioInit j))
  | ioInit {j : Nat} (hpc : s.accept = .ioInit j) : Goes s .ioInit (s.set j { s.pairs j with ioHandle := true } (.addClient j))
  | addClient {j : Nat} (hpc : s.accept = .addClient j) :
    Goes s .addClient (s.set j { s.pairs j with adding := true } (.logon j))
  | sendLogon {j : Nat} (hpc : s.accept = .logon j) : Goes s .sendLogon { s with accept := .idle }
  | lockExpired (hpc : s.accept = .idle) : Goes s .lockExpired { s with accept := .cleaning s.expired [] }
  | checkNext {j : Nat} {todo later : List Nat} (hpc : s.accept = .cleaning (j :: todo) later) :
    Goes s .checkNext { s with
      accept := if (s.pairs j).safeToDelete then .deleting j .release todo later else .cleaning todo (later ++ [j]) }
  | noClient {j : Nat} {todo later : List Nat} (hpc : s.accept = .deleting j .release todo later)
    (hio : (s.pairs j).ioHandle = false) : Goes s .release { s with accept := .deleting j .free todo later }
  | release {j : Nat} {todo later : List Nat} (hpc : s.accept = .deleting j .release todo later) (hio : (s.pairs j).ioHandle)
    (hfree : (s.pairs j).work.holdsCb = false) :
    Goes s .release (s.set j { s.pairs j with cb := false } (.deleting j .flag todo later))
  | raiseFlag {j : Nat} {todo later : List Nat} (hpc : s.accept = .deleting j .flag todo later) :
    Goes s .raiseFlag (s.set j { s.pairs j with wantDelete := true } (.deleting j .free todo later))
  | free {j : Nat} {todo later : List Nat} (hpc : s.accept = .deleting j .free todo later) :
    Goes s .free (s.set j { s.pairs j with session := .freed } (.cleaning todo later))
  | unlockExpired {later : List Nat} (hpc : s.accept = .cleaning [] later) :
    Goes s .unlockExpired { s with expired := later, accept := .idle }

end Lives

theorem lifeStep_goes {s t : Lives} {a : LifeAct} (h : lifeStep s a = some t) : s.Goes a t := by
  cases a <;> simp only [lifeStep] at h
  case pair j a =>
    obtain ⟨p, hp, rfl⟩ := Option.map_eq_some_iff.1 h
    exact .pair hp
  case expire j =>
    obtain ⟨⟨hw, hfree⟩, ⟨⟩⟩ := Option.ite_none_right_eq_some.1 h
    exact .expire hw hfree
  case scan j =>
    obtain ⟨hadd, ⟨⟩⟩ := Option.ite_none_right_eq_some.1 h
    split
    · case isTrue hw => exact .scan hadd hw.1 hw.2
    · case isFalse hno => exact .noWork hadd hno
  case takeWork w =>
    split at h
    · case h_1 j runq hno hq =>
      obtain ⟨hlt, ⟨⟩⟩ := Option.ite_none_right_eq_some.1 h
      exact .takeWork hno hq hlt
    · cases h
  case updateRunState w =>
    split at h
    · case h_1 j hj =>
      obtain ⟨hw, ⟨⟩⟩ := Option.ite_none_right_eq_some.1 h
      split
      · case isTrue hfifo => exact .rest hj hw hfifo
      · case isFalse hfifo => exact .again hj hw hfifo
    · cases h
  case release =>
    split at h
    · case h_1 j todo later hpc =>
      split at h
      · case isTrue hio =>
        cases h
        exact .noClient hpc hio
      · case isFalse hio =>
        obtain ⟨hfree, ⟨⟩⟩ := Option.ite_none_left_eq_some.1 h
        exact .release hpc (Bool.eq_true_of_not_eq_false hio) (Bool.eq_false_iff.2 hfree)
    · cases h
  all_goals
    split at h
    · cases h
      constructor
      assumption
    · cases h

theorem Lives.Goes.step {s t : Lives} {a : LifeAct} (h : s.Goes a t) : lifeStep s a = some t := by
  cases h with
  | pair hp => simp [lifeStep, hp]
  | expire hw hfree => simp [lifeStep, hw, hfree]
  | noWork hadd hno => simp only [lifeStep, hadd, if_true, if_neg hno]
  | scan hadd hw hfifo => simp [lifeStep, hadd, hw, hfifo]
  | takeWork hno hq hlt => simp [lifeStep, hno, hq, hlt]
  | rest hj hw hfifo => simp [lifeStep, hj, hw, hfifo]
  | again hj hw hfifo => simp [lifeStep, hj, hw, hfifo]
  | noClient hpc hio => simp [lifeStep, hpc, hio]
  | release hpc hio hfree => simp [lifeStep, hpc, hio, hfree]
  | createSession hpc =>
    simp only [lifeStep, hpc]
    rfl
  | newClient hpc | ioInit hpc | addClient hpc | sendLogon hpc | lockExpired hpc | checkNext hpc | raiseFlag hpc | free hpc
  | unlockExpired hpc => simp only [lifeStep, hpc]

/-- Where the accept thread is, against the places. -/
def AcceptPc.Agrees (place : Nat → Place) : AcceptPc → Prop
  | .idle => True
  | .newClient j => place j = .made
  | .ioInit j => place j = .joined
  | .addClient j => place j = .ready
  | .logon j => place j = .inUse ∨ place j = .listed
  | .cleaning _ later => later = []
  | .deleting j .release _ later => place j = .listed ∧ later = []
  | .deleting j .flag _ later => place j = .released ∧ later = []
  | .deleting j .free _ later => place j = .flagged ∧ later = []

/-- The session the accept thread alone has. -/
def AcceptPc.hand : AcceptPc → Option Nat
  | .newClient j | .ioInit j | .addClient j | .deleting j .flag _ _ | .deleting j .free _ _ => some j
  | _ => none

/-- The accept thread holds no session that is in use, but for one it sends the logon to. -/
theorem AcceptPc.Agrees.expire {place : Nat → Place} {pc : AcceptPc} {j : Nat} (h : pc.Agrees place) (hj : place j = .inUse) :
    pc.Agrees (Function.update place j .listed) := by
  have hkeep : ∀ {i : Nat} {pl : Place}, pl ≠ .inUse → place i = pl → Function.update place j .listed i = pl := by
    intro i pl hne hi
    have hij : i ≠ j := fun hij => hne (by rw [← hi, hij, hj])
    rw [Function.update_of_ne hij, hi]
  match pc with
  | .idle | .cleaning _ _ => exact h
  | .newClient _ | .ioInit _ | .addClient _ => exact hkeep (by simp) h
  | .deleting _ .release _ _ | .deleting _ .flag _ _ | .deleting _ .free _ _ => exact h.imp_left (hkeep (by simp))
  | .logon i =>
    by_cases hij : i = j
    · exact .inr (by rw [hij, Function.update_self])
    · exact h.imp (fun hi => by rw [Function.update_of_ne hij, hi]) fun hi => by rw [Function.update_of_ne hij, hi]

/-- The run states are those of the run queue and of the workers: who is queued is on the queue, once, and who runs has one
worker. -/
structure PoolOk (nworkers : Nat) (runq : List Nat) (pool : Nat → Option Nat) (run : Nat → RunState) : Prop where
  queued : ∀ j, run j = .Q ↔ j ∈ runq
  nodup  : runq.Nodup
  runs   : ∀ w j, pool w = some j → run j = .R
  worker : ∀ j, run j = .R → ∃ w, w < nworkers ∧ pool w = some j
  one    : ∀ w w' j, pool w = some j → pool w' = some j → w = w'

theorem poolOk_empty (nworkers : Nat) : PoolOk nworkers [] (fun _ => none) fun _ => .N := by
  constructor <;> simp

section Pool

variable {nworkers : Nat} {runq : List Nat} {pool : Nat → Option Nat} {run : Nat → RunState} {w j : Nat}

theorem PoolOk.scan (h : PoolOk nworkers runq pool run) (hN : run j = .N) :
    PoolOk nworkers (runq ++ [j]) pool (Function.update run j .Q) := by
  have hout : j ∉ runq := fun hmem => by simpa [hN] using (h.queued j).2 hmem
  refine ⟨fun i => ?_, ?_, fun w i hi => ?_, fun i hi => ?_, h.one⟩
  · by_cases hij : i = j
    · simp [hij]
    · simpa [Function.update_of_ne hij, hij] using h.queued i
  · exact List.nodup_append.2 ⟨h.nodup, List.nodup_singleton j, by simpa using fun a ha (hj : a = j) => hout (hj ▸ ha)⟩
  · have hij : i ≠ j := fun hij => by simpa [hij, hN] using h.runs w i hi
    rw [Function.update_of_ne hij]
    exact h.runs w i hi
  · have hij : i ≠ j := fun hij => by simp [hij] at hi
    rw [Function.update_of_ne hij] at hi
    exact h.worker i hi

theorem PoolOk.takeWork (h : PoolOk nworkers (j :: runq) pool run) (hno : pool w = none) (hlt : w < nworkers) :
    PoolOk nworkers runq (Function.update pool w (some j)) (Function.update run j .R) := by
  have hQ : run j = .Q := (h.queued j).2 List.mem_cons_self
  obtain ⟨hout, hnodup⟩ := List.nodup_cons.1 h.nodup
  have hpool : ∀ {w' i}, Function.update pool w (some j) w' = some i → w' = w ∧ i = j ∨ pool w' = some i ∧ i ≠ j := by
    intro w' i hi
    by_cases hw : w' = w
    · rw [hw, Function.update_self] at hi
      exact .inl ⟨hw, (Option.some.inj hi).symm⟩
    · rw [Function.update_of_ne hw] at hi
      exact .inr ⟨hi, fun hij => by simpa [hij, hQ] using h.runs w' i hi⟩
  refine ⟨fun i => ?_, hnodup, fun w' i hi => ?_, fun i hi => ?_, fun w' w'' i hi hi' => ?_⟩
  · by_cases hij : i = j
    · simpa [hij] using hout
    · simpa [Function.update_of_ne hij, hij] using h.queued i
  · rcases hpool hi with ⟨-, hij⟩ | ⟨hi', hij⟩
    · rw [hij, Function.update_self]
    · rw [Function.update_of_ne hij]
      exact h.runs w' i hi'
  · by_cases hij : i = j
    · exact ⟨w, hlt, by rw [hij, Function.update_self]⟩
    · rw [Function.update_of_ne hij] at hi
      obtain ⟨w', hlt', hw'⟩ := h.worker i hi
      have hne : w' ≠ w := fun he => by simp [he, hno] at hw'
      exact ⟨w', hlt', by rwa [Function.update_of_ne hne]⟩
  · rcases hpool hi with ⟨hw, hij⟩ | ⟨hi₁, hij⟩
    · rcases hpool hi' with ⟨hw', -⟩ | ⟨-, hij'⟩
      · rw [hw, hw']
      · exact absurd hij hij'
    · rcases hpool hi' with ⟨-, hij'⟩ | ⟨hi₂, -⟩
      · exact absurd hij' hij
      · exact h.one _ _ _ hi₁ hi₂

theorem PoolOk.rest (h : PoolOk nworkers runq pool run) (hj : pool w = some j) :
    PoolOk nworkers runq (Function.update pool w none) (Function.update run j .N) := by
  have hR : run j = .R := h.runs w j hj
  have hpool : ∀ {w' i}, Function.update pool w none w' = some i → w' ≠ w ∧ pool w' = some i := by
    intro w' i hi
    have hw : w' ≠ w := fun hw => by simp [hw] at hi
    exact ⟨hw, by rwa [Function.update_of_ne hw] at hi⟩
  refine ⟨fun i => ?_, h.nodup, fun w' i hi => ?_, fun i hi => ?_, fun w' w'' i hi hi' => ?_⟩
  · by_cases hij : i = j
    · simpa [hij, hR] using h.queued j
    · simpa [Function.update_of_ne hij] using h.queued i
  · obtain ⟨hw, hi'⟩ := hpool hi
    have hij : i ≠ j := fun hij => hw (h.one w' w j (hij ▸ hi') hj)
    rw [Function.update_of_ne hij]
    exact h.runs w' i hi'
  · have hij : i ≠ j := fun hij => by simp [hij] at hi
    rw [Function.update_of_ne hij] at hi
    obtain ⟨w', hlt, hw'⟩ := h.worker i hi
    have hne : w' ≠ w := fun he => hij (Option.some.inj (by rw [← hw', he, hj]))
    exact ⟨w', hlt, by rwa [Function.update_of_ne hne]⟩
  · exact h.one _ _ _ (hpool hi).2 (hpool hi').2

end Pool

/-- No session goes back. -/
def Forward (place place' : Nat → Place) : Prop := ∀ j, (place j).rank ≤ (place' j).rank

theorem Forward.refl (place : Nat → Place) : Forward place place := fun _ => Nat.le_refl _

theorem Forward.trans {place place' place'' : Nat → Place} (h : Forward place place') (h' : Forward place' place'') :
    Forward place place'' := fun j => Nat.le_trans (h j) (h' j)

theorem Forward.update {place : Nat → Place} {j : Nat} {pl pl' : Place} (hj : place j = pl) (h : pl.rank ≤ pl'.rank) :
    Forward place (Function.update place j pl') := by
  intro i
  by_cases hij : i = j
  · rw [hij, Function.update_self, hj]
    exact h
  · exact Nat.le_of_eq (by rw [Function.update_of_ne hij])

namespace Lives

def runState (s : Lives) (j : Nat) : RunState := (s.pairs j).work.runState

/-- The sessions that wait to be deleted: while the accept thread is at it, those it has not come to. -/
def waiting (s : Lives) : List Nat :=
  match s.accept with
  | .cleaning todo later => todo ++ later
  | .deleting j .release todo later => j :: (todo ++ later)
  | .deleting _ _ todo later => todo ++ later
  | _ => s.expired

/-- Every session has a place that agrees with its pair, with the accept thread and with the list. -/
structure Inv (s : Lives) (place : Nat → Place) : Prop where
  ok     : ∀ j, (s.pairs j).Ok (place j)
  fresh  : ∀ j, s.created ≤ j → place j = .unborn
  accept : s.accept.Agrees place
  hand   : ∀ j, (place j).inHand → s.accept.hand = some j
  listed : ∀ j, place j = .listed ↔ j ∈ s.waiting
  nodup  : s.waiting.Nodup
  pool   : PoolOk s.nworkers s.runq s.pool s.runState

theorem inv_new (nworkers : Nat) : (Lives.new nworkers).Inv fun _ => .unborn where
  ok _      := rfl
  fresh _ _ := rfl
  accept    := trivial
  hand _ h  := nomatch h
  listed    := by simp [new, waiting]
  nodup     := by simp [new, waiting]
  pool      := poolOk_empty nworkers

@[simp] theorem set_accept (s : Lives) (j : Nat) (p : Pair) (pc : AcceptPc) : (s.set j p pc).accept = pc := rfl

@[simp] theorem set_expired (s : Lives) (j : Nat) (p : Pair) (pc : AcceptPc) : (s.set j p pc).expired = s.expired := rfl

@[simp] theorem set_pairs_self (s : Lives) (j : Nat) (p : Pair) (pc : AcceptPc) : (s.set j p pc).pairs j = p :=
  Function.update_self ..

theorem set_pairs_of_ne (s : Lives) {j i : Nat} (h : i ≠ j) (p : Pair) (pc : AcceptPc) : (s.set j p pc).pairs i = s.pairs i :=
  Function.update_of_ne h ..

theorem waiting_eq {s : Lives} (h : s.accept.holdsExpired = false) : s.waiting = s.expired := by
  unfold waiting
  split
  · case h_1 h' => simp [h', AcceptPc.holdsExpired] at h
  · case h_2 h' => simp [h', AcceptPc.holdsExpired] at h
  · case h_3 h' => simp [h', AcceptPc.holdsExpired] at h
  · rfl

theorem waiting_congr {s t : Lives} (hacc : t.accept = s.accept) (hexp : t.expired = s.expired) : t.waiting = s.waiting := by
  unfold waiting
  rw [hacc, hexp]

theorem runState_set (s : Lives) (j : Nat) (p : Pair) (pc : AcceptPc) :
    (s.set j p pc).runState = Function.update s.runState j p.work.runState := by
  funext i
  by_cases hij : i = j
  · subst hij
    simp [runState]
  · rw [Function.update_of_ne hij]
    simp [runState, set_pairs_of_ne s hij]

theorem ok_set {s : Lives} {place : Nat → Place} (h : ∀ i, (s.pairs i).Ok (place i)) {j : Nat} {p : Pair} (pl : Place)
    (hp : p.Ok pl) (pc : AcceptPc) (i : Nat) : ((s.set j p pc).pairs i).Ok (Function.update place j pl i) := by
  by_cases hij : i = j
  · subst hij
    simpa using hp
  · rw [set_pairs_of_ne s hij, Function.update_of_ne hij]
    exact h i

section Places

variable {s : Lives} {place : Nat → Place} {j : Nat}

theorem Inv.ok_of (h : s.Inv place) {pl : Place} (hj : place j = pl) : (s.pairs j).Ok pl := hj ▸ h.ok j

/-- A session that is not on the list is none of those that wait. -/
theorem Inv.not_waiting (h : s.Inv place) {pl : Place} (hj : place j = pl) (hne : pl ≠ .listed) : j ∉ s.waiting :=
  fun hmem => hne (hj ▸ (h.listed j).2 hmem)

theorem Inv.pool_set (h : s.Inv place) {p : Pair} (pc : AcceptPc) (hp : p.work.runState = (s.pairs j).work.runState) :
    PoolOk s.nworkers s.runq s.pool (s.set j p pc).runState := by
  have hsame : Function.update s.runState j p.work.runState = s.runState := by
    rw [hp]
    exact Function.update_eq_self j s.runState
  rw [runState_set, hsame]
  exact h.pool

theorem Inv.fresh_update (h : s.Inv place) (hborn : place j ≠ .unborn) {pl : Place} :
    ∀ i, s.created ≤ i → Function.update place j pl i = .unborn := by
  intro i hi
  have hij : i ≠ j := fun hij => hborn (h.fresh j (hij ▸ hi))
  rw [Function.update_of_ne hij]
  exact h.fresh i hi

/-- The accept thread takes the session `j` in hand, has it there or gives it away. -/
theorem Inv.hand_update (h : s.Inv place) (hhand : s.accept.hand = none ∨ s.accept.hand = some j) {pl : Place} (pc : AcceptPc)
    (hpl : pl.inHand → pc.hand = some j) : ∀ i, (Function.update place j pl i).inHand → pc.hand = some i := by
  intro i hi
  by_cases hij : i = j
  · subst hij
    rw [Function.update_self] at hi
    exact hpl hi
  · rw [Function.update_of_ne hij] at hi
    have hsome := h.hand i hi
    rcases hhand with hno | hone
    · simp [hno] at hsome
    · simp [hone, Ne.symm hij] at hsome

/-- A pair comes from one place to another, and the list loses it or never had it. -/
theorem Inv.put (h : s.Inv place) {p : Pair} {pl : Place} {pc : AcceptPc} (hborn : place j ≠ .unborn) (hok : p.Ok pl)
    (hne : pl ≠ .listed) (hpc : pc.Agrees (Function.update place j pl))
    (hhand : s.accept.hand = none ∨ s.accept.hand = some j) (hpl : pl.inHand → pc.hand = some j)
    (hwait : (s.set j p pc).waiting = s.waiting.erase j) (hwork : p.work = (s.pairs j).work) :
    (s.set j p pc).Inv (Function.update place j pl) where
  ok     := ok_set h.ok pl hok pc
  fresh  := h.fresh_update hborn
  accept := hpc
  hand   := h.hand_update hhand pc hpl
  listed i := by
    rw [hwait, h.nodup.mem_erase_iff]
    by_cases hij : i = j
    · subst hij
      simp [hne]
    · rw [Function.update_of_ne hij]
      simpa [hij] using h.listed i
  nodup := hwait ▸ h.nodup.erase j
  pool  := h.pool_set pc (by rw [hwork])

/-- The accept thread goes on, and no pair changes. -/
theorem Inv.onward (h : s.Inv place) {expired : List Nat} {pc : AcceptPc} (hpc : pc.Agrees place) (hhand : s.accept.hand = none)
    (heq : waiting { s with expired := expired, accept := pc } = s.waiting) :
    Inv { s with expired := expired, accept := pc } place where
  ok     := h.ok
  fresh  := h.fresh
  accept := hpc
  hand i hi := by simpa [hhand] using h.hand i hi
  listed := heq ▸ h.listed
  nodup  := heq ▸ h.nodup
  pool   := h.pool

/-- A step with one pair, and with the run queue and the workers. -/
theorem Inv.pair (h : s.Inv place) {p : Pair} (hp : (s.pairs j).Move p) {runq : List Nat} {pool : Nat → Option Nat}
    (hpool : PoolOk s.nworkers runq pool (Function.update s.runState j p.work.runState)) :
    Inv { s.set j p s.accept with runq := runq, pool := pool } place where
  ok     := Function.update_eq_self j place ▸ ok_set h.ok _ ((h.ok j).move hp) s.accept
  fresh  := h.fresh
  accept := h.accept
  hand   := h.hand
  listed := (waiting_congr (s := s) (t := s.set j p s.accept) rfl rfl) ▸ h.listed
  nodup  := (waiting_congr (s := s) (t := s.set j p s.accept) rfl rfl) ▸ h.nodup
  pool   := (runState_set s j p s.accept).symm ▸ hpool

theorem Inv.pair_local (h : s.Inv place) {p : Pair} (hp : (s.pairs j).Move p)
    (hrun : p.work.runState = (s.pairs j).work.runState) : (s.set j p s.accept).Inv place :=
  h.pair hp (runState_set s j p s.accept ▸ h.pool_set s.accept hrun)

/-- The client at the front of the run queue is queued. -/
theorem Inv.front (h : s.Inv place) {runq : List Nat} (hq : s.runq = j :: runq) : (s.pairs j).work = .queued := by
  have hQ : (s.pairs j).work.runState = .Q := (h.pool.queued j).2 (by simp [hq])
  cases hw : (s.pairs j).work <;> first | rfl | (rw [hw] at hQ; cases hQ)

/-- A worker that has come to the list is in a session that is not on it. -/
theorem Inv.inUse_of_unregistered (h : s.Inv place) (hw : (s.pairs j).work = .unregistered) : place j = .inUse := by
  have hok := h.ok j
  generalize place j = pl at hok
  have hheld : (s.pairs j).work.holdsCb := by rw [hw]; rfl
  cases pl with
  | inUse => rfl
  | unborn | made | joined | ready =>
    rw [hok] at hw
    cases hw
  | listed => rcases Pair.Listed.leaving hok hheld with he | he <;> simp [hw] at he
  | released | flagged | gone => simp [hok.1.work] at hheld

theorem Inv.expire (h : s.Inv place) (hw : (s.pairs j).work = .unregistered) (hfree : s.accept.holdsExpired = false) :
    Inv { s.set j { s.pairs j with work := .expired } s.accept with expired := s.expired ++ [j] } (Function.update place j .listed) := by
  have hj : place j = .inUse := h.inUse_of_unregistered hw
  have hout : j ∉ s.expired := waiting_eq hfree ▸ h.not_waiting hj (by simp)
  have hwait : waiting { s.set j { s.pairs j with work := .expired } s.accept with expired := s.expired ++ [j] } = s.expired ++ [j] :=
    waiting_eq hfree
  have hnodup : s.expired.Nodup := waiting_eq hfree ▸ h.nodup
  refine ⟨ok_set h.ok .listed (Pair.InUse.expired (h.ok_of hj) hw) s.accept, h.fresh_update (by simp [hj]), h.accept.expire hj,
    fun i hi => ?_, fun i => ?_, ?_,
    h.pool_set (p := { s.pairs j with work := .expired }) s.accept (by simp [hw, WorkPc.runState])⟩
  · by_cases hij : i = j
    · subst hij
      rw [Function.update_self] at hi
      cases hi
    · rw [Function.update_of_ne hij] at hi
      exact h.hand i hi
  · rw [hwait]
    by_cases hij : i = j
    · subst hij
      simp
    · rw [Function.update_of_ne hij, h.listed i, waiting_eq hfree]
      simp [hij]
  · rw [hwait]
    exact List.nodup_append.2 ⟨hnodup, List.nodup_singleton j, by simpa using fun a ha (hj : a = j) => hout (hj ▸ ha)⟩

theorem Inv.create (h : s.Inv place) (hidle : s.accept = .idle) :
    Inv { s.set s.created .made (.newClient s.created) with created := s.created + 1 } (Function.update place s.created .made) := by
  have hwait : s.waiting = s.expired := waiting_eq (by rw [hidle]; rfl)
  have hout : s.created ∉ s.expired := hwait ▸ h.not_waiting (h.fresh _ (Nat.le_refl _)) (by simp)
  refine ⟨ok_set h.ok .made rfl (.newClient s.created), fun i hi => ?_, by simp [AcceptPc.Agrees],
    h.hand_update (.inl (by rw [hidle]; rfl)) (.newClient s.created) fun _ => rfl, fun i => ?_, ?_,
    h.pool_set (p := .made) (.newClient s.created) ?_⟩
  · rw [Function.update_of_ne (Nat.ne_of_gt hi)]
    exact h.fresh i (Nat.le_of_succ_le hi)
  · change _ ↔ i ∈ s.expired
    by_cases hij : i = s.created
    · rw [hij]
      simp [hout]
    · rw [Function.update_of_ne hij, h.listed i, hwait]
  · exact (hwait ▸ h.nodup : s.expired.Nodup)
  · have hp : s.pairs s.created = .unborn := h.ok_of (h.fresh _ (Nat.le_refl _))
    rw [hp]
    rfl

/-- A session that `createNewSession` has in hand comes to its next place. -/
theorem Inv.making (h : s.Inv place) {p : Pair} {pl : Place} (pl' : Place) {pc : AcceptPc} (hj : place j = pl) (hpl : pl.inHand)
    (hpl' : pl'.rank ≤ 4 ∧ pl.rank ≤ pl'.rank) (hfree : s.accept.holdsExpired = false) (hok : p.Ok pl')
    (hpc : pc.Agrees (Function.update place j pl')) (hfree' : pc.holdsExpired = false) (hhand : pl'.inHand → pc.hand = some j)
    (hwork : p.work = (s.pairs j).work) :
    (s.set j p pc).Inv (Function.update place j pl') ∧ Forward place (Function.update place j pl') := by
  have hout : j ∉ s.waiting := h.not_waiting hj fun he => by simp [he, Place.inHand] at hpl
  refine ⟨h.put ?_ hok ?_ hpc (.inr (h.hand j (hj ▸ hpl))) hhand ?_ hwork, .update hj hpl'.2⟩
  · intro he
    simp [← hj, he, Place.inHand] at hpl
  · intro he
    simp [he, Place.rank] at hpl'
  · rw [List.erase_of_not_mem hout, waiting_eq hfree]
    exact waiting_eq hfree'

/-- `session_cleanup` has the session in hand and comes to the next place. -/
theorem Inv.deleting (h : s.Inv place) {p : Pair} {pl pl' : Place} {pc : AcceptPc} (hj : place j = pl)
    (hhand : s.accept.hand = none ∨ s.accept.hand = some j) (hpl : 4 < pl.rank ∧ pl.rank < pl'.rank) (hok : p.Ok pl')
    (hpc : pc.Agrees (Function.update place j pl')) (hhand' : pl'.inHand → pc.hand = some j)
    (hwait : (s.set j p pc).waiting = s.waiting.erase j) (hwork : p.work = (s.pairs j).work) :
    (s.set j p pc).Inv (Function.update place j pl') ∧ Forward place (Function.update place j pl') := by
  refine ⟨h.put ?_ hok ?_ hpc hhand hhand' hwait hwork, .update hj (Nat.le_of_lt hpl.2)⟩
  · intro he
    simp [← hj, he, Place.rank] at hpl
  · intro he
    simp [he, Place.rank] at hpl
    omega

end Places

end Lives

/-- **One step keeps every session in a place, and takes none back.** -/
theorem lifeStep_inv {s t : Lives} {place : Nat → Place} {a : LifeAct} (h : s.Inv place) (hstep : lifeStep s a = some t) :
    ∃ place', t.Inv place' ∧ Forward place place' := by
  have hacc := h.accept
  cases lifeStep_goes hstep with
  | pair hp => exact ⟨place, h.pair_local (Pair.step_move hp) (Pair.step_runState hp), .refl _⟩
  | noWork _ _ => exact ⟨place, h, .refl _⟩
  | scan hadd hw _ => exact ⟨place, h.pair (.scan hadd hw) (h.pool.scan (by rw [Lives.runState, hw]; rfl)), .refl _⟩
  | takeWork hno hq hlt => exact ⟨place, h.pair (Pair.works_of (h.front hq) .take) ((hq ▸ h.pool).takeWork hno hlt), .refl _⟩
  | rest hj hw _ => exact ⟨place, h.pair (Pair.works_of hw .rest) (h.pool.rest hj), .refl _⟩
  | again hj hw _ => exact ⟨place, h.pair_local (Pair.works_of hw .again) (by rw [hw]; rfl), .refl _⟩
  | expire hw hfree => exact ⟨_, h.expire hw hfree, .update (h.inUse_of_unregistered hw) (by decide)⟩
  | createSession hpc => exact ⟨_, h.create hpc, .update (h.fresh _ (Nat.le_refl _)) (by decide)⟩
  | @newClient j hpc =>
    have hj : place j = .made := by rwa [hpc] at hacc
    have hp : s.pairs j = .made := h.ok_of hj
    exact ⟨_, h.making .joined hj rfl (by decide) (by rw [hpc]; rfl) (by rw [hp]; rfl) (by simp [AcceptPc.Agrees]) rfl
      (fun _ => rfl) rfl⟩
  | @ioInit j hpc =>
    have hj : place j = .joined := by rwa [hpc] at hacc
    have hp : s.pairs j = .joined := h.ok_of hj
    exact ⟨_, h.making .ready hj rfl (by decide) (by rw [hpc]; rfl) (by rw [hp]; rfl) (by simp [AcceptPc.Agrees]) rfl
      (fun _ => rfl) rfl⟩
  | @addClient j hpc =>
    have hj : place j = .ready := by rwa [hpc] at hacc
    have hp : s.pairs j = .ready := h.ok_of hj
    exact ⟨_, h.making .inUse hj rfl (by decide) (by rw [hpc]; rfl) (by rw [hp]; exact Pair.inUse_ready)
      (by simp [AcceptPc.Agrees]) rfl (fun hno => nomatch hno) rfl⟩
  | sendLogon hpc =>
    exact ⟨_, h.onward trivial (by rw [hpc]; rfl) ((Lives.waiting_eq rfl).trans (Lives.waiting_eq (by rw [hpc]; rfl)).symm), .refl _⟩
  | lockExpired hpc =>
    refine ⟨_, h.onward rfl (by rw [hpc]; rfl) ?_, .refl _⟩
    rw [Lives.waiting_eq (s := s) (by rw [hpc]; rfl)]
    exact List.append_nil _
  | @checkNext j todo later hpc =>
    have hwait : s.waiting = j :: (todo ++ later) := by simp [Lives.waiting, hpc]
    have hj : place j = .listed := (h.listed j).2 (by simp [hwait])
    have hlater : later = [] := by rwa [hpc] at hacc
    rw [Pair.Listed.safeToDelete (h.ok_of hj)]
    exact ⟨_, h.onward ⟨hj, hlater⟩ (by rw [hpc]; rfl) hwait.symm, .refl _⟩
  | @noClient j todo later hpc hio =>
    rw [hpc] at hacc
    have hp : (s.pairs j).Listed := h.ok_of hacc.1
    simp [hp.ioHandle] at hio
  | @release j todo later hpc _ hfree =>
    have hwait : s.waiting = j :: (todo ++ later) := by simp [Lives.waiting, hpc]
    obtain ⟨hj, hlater⟩ : place j = .listed ∧ later = [] := by rwa [hpc] at hacc
    exact ⟨_, h.deleting hj (.inl (by rw [hpc]; rfl)) (by decide) (Pair.Listed.released (h.ok_of hj) hfree)
      (by simp [AcceptPc.Agrees, hlater]) (fun _ => rfl) (by rw [hwait, List.erase_cons_head]; rfl) rfl⟩
  | @raiseFlag j todo later hpc =>
    have hwait : s.waiting = todo ++ later := by simp [Lives.waiting, hpc]
    obtain ⟨hj, hlater⟩ : place j = .released ∧ later = [] := by rwa [hpc] at hacc
    obtain ⟨hquiet, hs, -, -⟩ := h.ok_of hj
    have hp : ({ s.pairs j with wantDelete := true } : Pair).Ok .flagged := ⟨hquiet.wanted, hs, rfl⟩
    exact ⟨_, h.deleting hj (.inr (by rw [hpc]; rfl)) (by decide) hp (by simp [AcceptPc.Agrees, hlater]) (fun _ => rfl)
      (by rw [List.erase_of_not_mem (h.not_waiting hj (by simp)), hwait]; rfl) rfl⟩
  | @free j todo later hpc =>
    have hwait : s.waiting = todo ++ later := by simp [Lives.waiting, hpc]
    obtain ⟨hj, hlater⟩ : place j = .flagged ∧ later = [] := by rwa [hpc] at hacc
    obtain ⟨hquiet, -, hwant⟩ := h.ok_of hj
    have hp : ({ s.pairs j with session := .freed } : Pair).Ok .gone := ⟨{ hquiet with }, rfl, hwant⟩
    exact ⟨_, h.deleting hj (.inr (by rw [hpc]; rfl)) (by decide) hp (by simp [AcceptPc.Agrees, hlater]) (fun hno => nomatch hno)
      (by rw [List.erase_of_not_mem (h.not_waiting hj (by simp)), hwait]; rfl) rfl⟩
  | unlockExpired hpc => exact ⟨_, h.onward trivial (by rw [hpc]; rfl) (by simp [Lives.waiting, hpc]), .refl _⟩

theorem Lives.Inv.reaches {s t : Lives} {place : Nat → Place} (h : s.Inv place) (hrun : Steps.Reaches lifeStep Steps.Always s t) :
    ∃ place', t.Inv place' ∧ Forward place place' :=
  hrun.invariant (P := fun t => ∃ place', t.Inv place' ∧ Forward place place') ⟨place, h, .refl _⟩
    fun ⟨_, h, hf⟩ _ hs => (lifeStep_inv h hs).imp fun _ h' => ⟨h'.1, hf.trans h'.2⟩

theorem lives_inv {nworkers : Nat} {s : Lives} (h : Steps.Reaches lifeStep Steps.Always (Lives.new nworkers) s) :
    ∃ place, s.Inv place :=
  ((Lives.inv_new nworkers).reaches h).imp fun _ h => h.1

namespace Lives

theorem Inv.listed_live {s : Lives} {place : Nat → Place} (h : s.Inv place) {j : Nat} (hj : place j = .listed) :
    (s.pairs j).session = .live ∧ (s.pairs j).client = .live :=
  have hp : (s.pairs j).Listed := h.ok_of hj
  ⟨hp.session, hp.client⟩

/-- What the accept thread uses is what it has in hand, or the next session on the list. -/
theorem Inv.uses {s t : Lives} {place : Nat → Place} {a : LifeAct} (h : s.Inv place) (hstep : lifeStep s a = some t) :
    ∀ o ∈ s.uses a, (s.pairs o.1).mem o.2 = .live := by
  have hacc := h.accept
  have hone : ∀ {j : Nat} {side : Side}, (s.pairs j).mem side = .live → ∀ o ∈ [(j, side)], (s.pairs o.1).mem o.2 = .live :=
    fun hlive => List.forall_mem_singleton.2 hlive
  have hopt : ∀ {j : Nat} {c : Bool}, (s.pairs j).session = .live ∧ (s.pairs j).client = .live →
      ∀ o ∈ (j, Side.session) :: if c then [(j, Side.client)] else [], (s.pairs o.1).mem o.2 = .live := by
    intro j c hlive
    refine List.forall_mem_cons.2 ⟨hlive.1, ?_⟩
    split
    · exact hone hlive.2
    · exact List.forall_mem_nil _
  cases lifeStep_goes hstep with
  | @pair j a p hp => exact List.forall_mem_map.2 ((h.ok j).alive.uses hp)
  | @expire j hw hfree => exact hone ((h.ok j).alive.holdsCb (by rw [hw]; rfl))
  | noWork hadd _ | scan hadd _ _ => exact hone ((h.ok _).alive.added hadd)
  | @takeWork w j runq hno hq hlt =>
    simp only [Lives.uses, hq]
    exact hone ((h.ok j).alive.busy (by simp [h.front hq]))
  | @rest w j hj hw _ | @again w j hj hw _ =>
    simp only [Lives.uses, hj]
    exact hone ((h.ok j).alive.busy (by simp [hw]))
  | createSession | addClient | lockExpired | unlockExpired => exact List.forall_mem_nil _
  | @newClient j hpc =>
    rw [hpc] at hacc
    have hp : s.pairs j = .made := h.ok_of hacc
    simp only [Lives.uses, hpc]
    exact hone (by rw [hp]; rfl)
  | @ioInit j hpc =>
    rw [hpc] at hacc
    have hp : s.pairs j = .joined := h.ok_of hacc
    simp only [Lives.uses, hpc]
    exact hone (by rw [hp]; rfl)
  | @sendLogon j hpc =>
    rw [hpc] at hacc
    have hlive : (s.pairs j).session = .live ∧ (s.pairs j).client = .live := by
      rcases hacc with hj | hj
      · have hp : (s.pairs j).InUse := h.ok_of hj
        exact ⟨hp.session, hp.client⟩
      · exact h.listed_live hj
    simp only [Lives.uses, hpc]
    exact List.forall_mem_cons.2 ⟨hlive.1, hone hlive.2⟩
  | @checkNext j todo later hpc =>
    simp only [Lives.uses, hpc]
    exact hopt (h.listed_live ((h.listed j).2 (by simp [waiting, hpc])))
  | noClient hpc _ | release hpc _ _ =>
    rw [hpc] at hacc
    simp only [Lives.uses, hpc]
    exact hopt (h.listed_live hacc.1)
  | raiseFlag hpc =>
    rw [hpc] at hacc
    obtain ⟨-, -, hclient, -⟩ := h.ok_of hacc.1
    simp only [Lives.uses, hpc]
    exact hone hclient
  | free hpc =>
    rw [hpc] at hacc
    obtain ⟨-, hsession, -⟩ := h.ok_of hacc.1
    simp only [Lives.uses, hpc]
    exact hone hsession

end Lives

/-- **No thread uses a session or a client that is not there.**  In whatever order the threads move, each step finds the
objects it uses made and not yet freed.  As `free` and `destroy` are such steps, nothing is freed twice. -/
theorem life_safe {nworkers : Nat} {s t : Lives} {a : LifeAct}
    (hreach : Steps.Reaches lifeStep Steps.Always (Lives.new nworkers) s) (hstep : lifeStep s a = some t) : ∀ o ∈ s.uses a, (s.pairs o.1).mem o.2 = .live := by
  obtain ⟨place, h⟩ := lives_inv hreach
  exact h.uses hstep

/-- A session is made, its peer goes, and the worker puts it on the list: the accept thread finds it there while the worker is
still in `process_close`, and has to wait. -/
def sampleExpiry : List LifeAct :=
  [.createSession, .newClient, .ioInit, .addClient, .pair 0 .pullAdd, .sendLogon, .pair 0 .handleInput, .pair 0 .handleClose,
    .scan 0, .takeWork 0, .pair 0 .begin, .pair 0 .copy, .pair 0 .offer, .pair 0 .consumed, .pair 0 .processClose,
    .pair 0 .unsubscribeAll, .pair 0 .resetSlot, .expire 0, .lockExpired, .checkNext]

theorem life_safe_sample : ∃ s : Lives, Steps.Reaches lifeStep Steps.Always (Lives.new 1) s ∧
    lifeStep s .release = none ∧ (s.pairs 0).session = .live ∧
    ∀ o ∈ s.uses (.pair 0 .forgetListener), (s.pairs o.1).mem o.2 = .live := by
  have hrun : (Steps.run lifeStep (Lives.new 1) sampleExpiry).map
      (fun s => ((lifeStep s .release).isNone, (s.pairs 0).session, (lifeStep s (.pair 0 .forgetListener)).isSome)) =
        some (true, .live, true) := by decide +kernel
  obtain ⟨s, hs, hfacts⟩ := Option.map_eq_some_iff.1 hrun
  simp only [Prod.mk.injEq] at hfacts
  obtain ⟨hwait, hlive, hsome⟩ := hfacts
  obtain ⟨t, ht⟩ := Option.isSome_iff_exists.1 hsome
  have hreach := Steps.reaches_of_run _ hs
  exact ⟨s, hreach, Option.isNone_iff_eq_none.1 hwait, hlive, life_safe hreach ht⟩

/-- **Two warnings are never given while the reactor runs**: the list of the sessions not ready to delete is empty, and a client
that is destroyed has its callbacks disabled. -/
theorem life_quiet {nworkers : Nat} {s : Lives} (hreach : Steps.Reaches lifeStep Steps.Always (Lives.new nworkers) s) :
    (∀ todo later, s.accept = .cleaning todo later → later = []) ∧ ∀ j, (s.pairs j).destroying → (s.pairs j).cb = false := by
  obtain ⟨place, h⟩ := lives_inv hreach
  refine ⟨fun todo later hpc => ?_, fun j hdes => (h.ok j).cb_of_destroying hdes⟩
  have hacc := h.accept
  rwa [hpc] at hacc

theorem life_quiet_sample : ∃ s : Lives, Steps.Reaches lifeStep Steps.Always (Lives.new 1) s ∧ (s.pairs 0).destroying ∧
    (∀ todo later, s.accept = .cleaning todo later → later = []) ∧ (s.pairs 0).cb = false := by
  have hrun : (Steps.run lifeStep (Lives.new 1) (sampleExpiry ++ [.pair 0 .forgetListener, .pair 0 .disableCb, .release,
      .raiseFlag, .free, .pair 0 .attend])).map (fun s => (s.pairs 0).destroying) = some true := by decide +kernel
  obtain ⟨s, hs, hdes⟩ := Option.map_eq_some_iff.1 hrun
  have hreach := Steps.reaches_of_run _ hs
  obtain ⟨hlater, hcb⟩ := life_quiet hreach
  exact ⟨s, hreach, hdes, hlater, hcb 0 hdes⟩

end Exio
