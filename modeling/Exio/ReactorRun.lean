import Mathlib.Logic.Function.Basic
import Mathlib.Data.List.Basic
import Exio.Steps
import Exio.ClientInput
/-!
# ReactorRun — the run state of a client, between the reactor and the workers

The reactor thread reads from sockets into the clients' fifos, then scans `m_clients` and puts the clients with work on
`m_runq`; worker threads take clients from there and run `do_work` (`Reactor::reactor_main_loop`, `worker_TEP_impl`).  A
client's run state says who has it: `N` nobody, `Q` the run queue, `R` a worker.  A client is deleted by the destruction
cycle, once its socket is closed and its run state is `N`.

A step is one critical section.  `update_run_state_for_reactor` and `update_run_state_for_worker` hold the client's
`m_runstate_mutex` while `has_work` takes and releases the fifo's mutex, so each of them is two steps and its thread holds
the lock in between; the fifo can change there, the run state cannot.  The reactor's `handle_close` in the destruction
cycle, a failing `grow` in `do_work` and the item that ends the workers are steps as well.

A client is a number and a number may be used again: `delete` leaves a new object there.
-/
namespace Exio

inductive RunState where
  | N
  | Q
  | R
deriving DecidableEq

structure RunClient where
  runstate : RunState
  datafifo : List Bytes
  ioClosed : Bool
  cb       : Bool
  attn     : Bool
  tdestroy : Int
deriving DecidableEq

def RunClient.new : RunClient := ⟨.N, [], false, true, false, 0⟩

def RunClient.hasWork (o : RunClient) : Bool := !o.datafifo.isEmpty

/-- `handle_close`: the sentinel goes to the fifo of an open client. -/
def RunClient.handleClose (o : RunClient) : RunClient :=
  if o.ioClosed = false then { o with ioClosed := true, datafifo := o.datafifo ++ [[]] } else o

/-- The time condition of `destroy_cycle`. -/
def RunClient.due (o : RunClient) (t : Int) : Prop := (t > o.tdestroy ∧ t - o.tdestroy ≥ 1) ∨ t < o.tdestroy

instance (o : RunClient) (t : Int) : Decidable (o.due t) := inferInstanceAs (Decidable (_ ∨ _))

/-- What the copy loop of `do_work` leaves of the fifo, and whether it met the sentinel. -/
def restChunks : List Bytes → List Bytes × Bool
  | []             => ([], false)
  | [] :: fifo     => (fifo, true)
  | (_ :: _) :: fifo => restChunks fifo

theorem copyChunks_rest : ∀ (rb : ReactorReadBuffer) (fifo : List Bytes) {r}, copyChunks rb fifo = some r →
    r.2 = restChunks fifo
  | _, [], _, h => by cases h; rfl
  | _, [] :: _, _, h => by cases h; rfl
  | rb, (c :: cs) :: fifo, r, h => by
    rw [copyChunks, Option.bind_eq_some_iff] at h
    obtain ⟨rb', -, h⟩ := h
    exact copyChunks_rest _ fifo h

/-! ## The threads -/

/-- Where a worker is: waiting at the run queue; with a client it popped; in its loop, at the check of the callback, at
the copy of the chunks, past it, at the clearing of the fifo, done with `do_work`, or holding the run state's mutex with
the answer of `has_work`; or gone. -/
inductive WorkerPc where
  | idle
  | popped (c : Nat)
  | work (c : Nat)
  | copy (c : Nat)
  | busy (c : Nat) (close : Bool)
  | clear (c : Nat)
  | worked (c : Nat)
  | update (c : Nat) (work : Bool)
  | exited
deriving DecidableEq

/-- The client a worker has between popping it and leaving its loop. -/
def WorkerPc.client : WorkerPc → Option Nat
  | .popped c | .work c | .copy c | .busy c _ | .clear c | .worked c | .update c _ => some c
  | .idle | .exited => none

/-- The client a worker has set to `R`. -/
def WorkerPc.running : WorkerPc → Option Nat
  | .work c | .copy c | .busy c _ | .clear c | .worked c | .update c _ => some c
  | .idle | .exited | .popped _ => none

/-- Where the reactor is: before the scan; in the scan, holding a client's run state mutex, or about to push it; in the
destruction cycle, at a client it may delete; deleting; or gone. -/
inductive ReactorPc where
  | io
  | scan (todo : List Nat)
  | update (c : Nat) (work : Bool) (todo : List Nat)
  | push (c : Nat) (todo : List Nat)
  | destroy (now : Int) (todo deletenow : List Nat)
  | check (now : Int) (c : Nat) (todo deletenow : List Nat)
  | reap (deletenow : List Nat)
  | stopped
deriving DecidableEq

/-- The shared state.  `quiet` is history: no fifo was added to since the last scan ended. -/
structure Run where
  objs        : Nat → RunClient
  runq        : List (Option Nat)
  workers     : List WorkerPc
  clients     : List Nat
  destroying  : List Nat
  lastCleanup : Int
  pc          : ReactorPc
  quiet       : Bool

def Run.new (nworkers : Nat) : Run :=
  ⟨fun _ => RunClient.new, [], List.replicate nworkers .idle, [], [], 0, .io, false⟩

def Run.setObj (s : Run) (c : Nat) (o : RunClient) : Run := { s with objs := Function.update s.objs c o }

def Run.setWorker (s : Run) (w : Nat) (pc : WorkerPc) : Run := { s with workers := s.workers.set w pc }

/-- Some thread holds the client's `m_runstate_mutex`. -/
def Run.locked (s : Run) (c : Nat) : Bool :=
  (match s.pc with | .update c' _ _ => c' == c | _ => false) ||
    s.workers.any (fun pc => match pc with | .update c' _ => c' == c | _ => false)

/-- The condition under which the destruction cycle looks at `m_destroying`. -/
def Run.cleanup (s : Run) (now : Int) : Prop :=
  s.destroying ≠ [] ∧ ((now > s.lastCleanup ∧ now - s.lastCleanup > 2) ∨ now < s.lastCleanup)

instance (s : Run) (now : Int) : Decidable (s.cleanup now) := inferInstanceAs (Decidable (_ ∧ _))

inductive RunAct where
  /- the reactor thread -/
  | handleInput (c : Nat) (chunk : Bytes)
  | handleClose (c : Nat)
  | add (c : Nat)
  | attendClients
  | startScan
  | lockReactor
  | updateForReactor
  | pushRunq
  | endScan (now : Int)
  | destroyCycle
  | getRunState
  | rebuild
  | delete (c : Nat)
  | loop
  | stop
  | endWorkers
  /- worker `w` -/
  | pop (w : Nat)
  | setRunState (w : Nat)
  | checkCb (w : Nat)
  | copyFifo (w : Nat) (throwAt : Option Nat)
  | process (w : Nat)
  | clearFifo (w : Nat)
  | lockWorker (w : Nat)
  | updateForWorker (w : Nat)
  /- any thread -/
  | disableCb (c : Nat)
  | wantDelete (c : Nat) (now : Int)
deriving DecidableEq

/-- **A step of the reactor thread.** -/
def reactorStep (s : Run) : RunAct → Option Run
  | .handleInput c chunk =>
    if s.pc = .io ∧ c ∈ s.clients ∧ (s.objs c).ioClosed = false ∧ chunk ≠ [] then
      some { s.setObj c { s.objs c with datafifo := (s.objs c).datafifo ++ [chunk] } with quiet := false }
    else none
  | .handleClose c =>
    if s.pc = .io ∧ c ∈ s.clients then
      some { s.setObj c (s.objs c).handleClose with quiet := s.quiet && (s.objs c).ioClosed }
    else none
  | .add c => if s.pc = .io then some { s with clients := s.clients ++ [c] } else none
  | .attendClients =>
    if s.pc = .io then
      some { s with destroying := (s.clients.filter (fun c => (s.objs c).attn)).foldl (fun d c => d.insert c) s.destroying }
    else none
  | .startScan => if s.pc = .io then some { s with pc := .scan s.clients } else none
  | .lockReactor =>
    match s.pc with
    | .scan (c :: todo) => if s.locked c then none else some { s with pc := .update c (s.objs c).hasWork todo }
    | _ => none
  | .updateForReactor =>
    match s.pc with
    | .update c work todo =>
      if work ∧ (s.objs c).runstate = .N then some { s.setObj c { s.objs c with runstate := .Q } with pc := .push c todo }
      else some { s with pc := .scan todo }
    | _ => none
  | .pushRunq =>
    match s.pc with
    | .push c todo => some { s with runq := s.runq ++ [some c], pc := .scan todo }
    | _ => none
  | .endScan now =>
    if s.pc = .scan [] then
      if s.cleanup now then some { s with lastCleanup := now, pc := .destroy now s.destroying [], quiet := true }
      else some { s with pc := .reap [], quiet := true }
    else none
  | .destroyCycle =>
    match s.pc with
    | .destroy now (c :: todo) deletenow =>
      if (s.objs c).due now then
        if (s.objs c).ioClosed = false then
          some { s.setObj c { (s.objs c).handleClose with tdestroy := now } with
                  pc := .destroy now todo deletenow, quiet := false }
        else some { s.setObj c { s.objs c with tdestroy := now } with pc := .check now c todo deletenow }
      else some { s with pc := .destroy now todo deletenow }
    | _ => none
  | .getRunState =>
    match s.pc with
    | .check now c todo deletenow =>
      if s.locked c then none
      else some { s with pc := .destroy now todo
                                (if (s.objs c).runstate = .N then deletenow.insert c else deletenow) }
    | _ => none
  | .rebuild =>
    match s.pc with
    | .destroy _ [] deletenow => some { s with clients := s.clients.filter (fun c => c ∉ deletenow), pc := .reap deletenow }
    | _ => none
  | .delete c =>
    match s.pc with
    | .reap (c' :: deletenow) =>
      if c' = c then
        some { s.setObj c .new with destroying := s.destroying.filter (fun d => d ≠ c), pc := .reap deletenow }
      else none
    | _ => none
  | .loop => if s.pc = .reap [] then some { s with pc := .io } else none
  | .stop => if s.pc = .reap [] then some { s with pc := .stopped } else none
  | .endWorkers => if s.pc = .stopped then some { s with runq := s.runq ++ [none] } else none
  | _ => none

/-- The reactor's steps one by one, with what is known where each is taken. -/
inductive ReactorStep (s : Run) : RunAct → Run → Prop
  | handleInput {c : Nat} {chunk : Bytes} (hpc : s.pc = .io) (hc : c ∈ s.clients) :
    ReactorStep s (.handleInput c chunk)
      { s.setObj c { s.objs c with datafifo := (s.objs c).datafifo ++ [chunk] } with quiet := false }
  | handleClose {c : Nat} (hpc : s.pc = .io) (hc : c ∈ s.clients) :
    ReactorStep s (.handleClose c) { s.setObj c (s.objs c).handleClose with quiet := s.quiet && (s.objs c).ioClosed }
  | add {c : Nat} (hpc : s.pc = .io) : ReactorStep s (.add c) { s with clients := s.clients ++ [c] }
  | attendClients (hpc : s.pc = .io) :
    ReactorStep s .attendClients
      { s with destroying := (s.clients.filter (fun c => (s.objs c).attn)).foldl (fun d c => d.insert c) s.destroying }
  | startScan (hpc : s.pc = .io) : ReactorStep s .startScan { s with pc := .scan s.clients }
  | lockReactor {c : Nat} {todo : List Nat} (hpc : s.pc = .scan (c :: todo)) (hfree : s.locked c = false) :
    ReactorStep s .lockReactor { s with pc := .update c (s.objs c).hasWork todo }
  | queue {c : Nat} {work : Bool} {todo : List Nat} (hpc : s.pc = .update c work todo)
    (hidle : (s.objs c).runstate = .N) :
    ReactorStep s .updateForReactor { s.setObj c { s.objs c with runstate := .Q } with pc := .push c todo }
  | skip {c : Nat} {work : Bool} {todo : List Nat} (hpc : s.pc = .update c work todo)
    (hno : ¬ (work = true ∧ (s.objs c).runstate = .N)) : ReactorStep s .updateForReactor { s with pc := .scan todo }
  | pushRunq {c : Nat} {todo : List Nat} (hpc : s.pc = .push c todo) :
    ReactorStep s .pushRunq { s with runq := s.runq ++ [some c], pc := .scan todo }
  | startCleanup {now : Int} (hpc : s.pc = .scan []) :
    ReactorStep s (.endScan now) { s with lastCleanup := now, pc := .destroy now s.destroying [], quiet := true }
  | noCleanup {now : Int} (hpc : s.pc = .scan []) :
    ReactorStep s (.endScan now) { s with pc := .reap [], quiet := true }
  | destroyOpen {now : Int} {c : Nat} {todo deletenow : List Nat} (hpc : s.pc = .destroy now (c :: todo) deletenow)
    (hopen : (s.objs c).ioClosed = false) :
    ReactorStep s .destroyCycle
      { s.setObj c { (s.objs c).handleClose with tdestroy := now } with pc := .destroy now todo deletenow, quiet := false }
  | destroyClosed {now : Int} {c : Nat} {todo deletenow : List Nat} (hpc : s.pc = .destroy now (c :: todo) deletenow)
    (hclosed : (s.objs c).ioClosed = true) :
    ReactorStep s .destroyCycle
      { s.setObj c { s.objs c with tdestroy := now } with pc := .check now c todo deletenow }
  | destroyLater {now : Int} {c : Nat} {todo deletenow : List Nat} (hpc : s.pc = .destroy now (c :: todo) deletenow) :
    ReactorStep s .destroyCycle { s with pc := .destroy now todo deletenow }
  | getRunState {now : Int} {c : Nat} {todo deletenow : List Nat} (hpc : s.pc = .check now c todo deletenow) :
    ReactorStep s .getRunState
      { s with pc := .destroy now todo (if (s.objs c).runstate = .N then deletenow.insert c else deletenow) }
  | rebuild {now : Int} {deletenow : List Nat} (hpc : s.pc = .destroy now [] deletenow) :
    ReactorStep s .rebuild { s with clients := s.clients.filter (fun c => c ∉ deletenow), pc := .reap deletenow }
  | delete {c : Nat} {deletenow : List Nat} (hpc : s.pc = .reap (c :: deletenow)) :
    ReactorStep s (.delete c)
      { s.setObj c .new with destroying := s.destroying.filter (fun d => d ≠ c), pc := .reap deletenow }
  | loop (hpc : s.pc = .reap []) : ReactorStep s .loop { s with pc := .io }
  | stop (hpc : s.pc = .reap []) : ReactorStep s .stop { s with pc := .stopped }
  | endWorkers (hpc : s.pc = .stopped) : ReactorStep s .endWorkers { s with runq := s.runq ++ [none] }

/-- **What a step of the reactor can do.** -/
theorem reactorStep_cases {s t : Run} {a : RunAct} (hs : reactorStep s a = some t) : ReactorStep s a t := by
  unfold reactorStep at hs
  split at hs
  · split at hs
    · rename_i hg
      cases hs
      exact .handleInput hg.1 hg.2.1
    · cases hs
  · split at hs
    · rename_i hg
      cases hs
      exact .handleClose hg.1 hg.2
    · cases hs
  · split at hs
    · rename_i hpc
      cases hs
      exact .add hpc
    · cases hs
  · split at hs
    · rename_i hpc
      cases hs
      exact .attendClients hpc
    · cases hs
  · split at hs
    · rename_i hpc
      cases hs
      exact .startScan hpc
    · cases hs
  · split at hs
    · rename_i hpc
      split at hs
      · cases hs
      · rename_i hlock
        cases hs
        exact .lockReactor hpc (Bool.eq_false_iff.2 hlock)
    · cases hs
  · split at hs
    · rename_i hpc
      split at hs
      · rename_i hg
        cases hs
        exact .queue hpc hg.2
      · rename_i hno
        cases hs
        exact .skip hpc hno
    · cases hs
  · split at hs
    · rename_i hpc
      cases hs
      exact .pushRunq hpc
    · cases hs
  · split at hs
    · rename_i hpc
      split at hs
      · cases hs
        exact .startCleanup hpc
      · cases hs
        exact .noCleanup hpc
    · cases hs
  · split at hs
    · rename_i hpc
      split at hs
      · split at hs
        · rename_i hopen
          cases hs
          exact .destroyOpen hpc hopen
        · rename_i hclosed
          cases hs
          exact .destroyClosed hpc (Bool.eq_true_of_not_eq_false hclosed)
      · cases hs
        exact .destroyLater hpc
    · cases hs
  · split at hs
    · rename_i hpc
      split at hs
      · cases hs
      · cases hs
        exact .getRunState hpc
    · cases hs
  · split at hs
    · rename_i hpc
      cases hs
      exact .rebuild hpc
    · cases hs
  · split at hs
    · rename_i hpc
      split at hs
      · rename_i hcc
        subst hcc
        cases hs
        exact .delete hpc
      · cases hs
    · cases hs
  · split at hs
    · rename_i hpc
      cases hs
      exact .loop hpc
    · cases hs
  · split at hs
    · rename_i hpc
      cases hs
      exact .stop hpc
    · cases hs
  · split at hs
    · rename_i hpc
      cases hs
      exact .endWorkers hpc
    · cases hs
  · cases hs

/-- **A step of worker `w`, which is at `pc`.** -/
def workerStep (s : Run) (w : Nat) : WorkerPc → RunAct → Option Run
  | .idle, .pop _ =>
    match s.runq with
    | []             => none
    | none :: _      => some (s.setWorker w .exited)
    | some c :: runq => some { s.setWorker w (.popped c) with runq := runq }
  | .popped c, .setRunState _ =>
    if s.locked c then none else some ((s.setObj c { s.objs c with runstate := .R }).setWorker w (.work c))
  | .work c, .checkCb _ =>
    if (s.objs c).cb then some (s.setWorker w (.copy c))
    else some ((s.setObj c { s.objs c with datafifo := [] }).setWorker w (.worked c))
  | .copy c, .copyFifo _ none =>
    some ((s.setObj c { s.objs c with datafifo := (restChunks (s.objs c).datafifo).1 }).setWorker w
      (.busy c (restChunks (s.objs c).datafifo).2))
  | .copy c, .copyFifo _ (some k) =>
    -- `grow` throws at chunk `k`, the chunks before it are copied
    if k < (s.objs c).datafifo.length ∧ [] ∉ (s.objs c).datafifo.take (k + 1) then
      some ((s.setObj c { s.objs c with datafifo := (s.objs c).datafifo.drop k }).setWorker w (.worked c))
    else none
  | .busy c true, .process _ => some ((s.setObj c { s.objs c with cb := false }).setWorker w (.clear c))
  | .busy c false, .process _ => some (s.setWorker w (.worked c))
  | .clear c, .clearFifo _ => some ((s.setObj c { s.objs c with datafifo := [] }).setWorker w (.worked c))
  | .worked c, .lockWorker _ => if s.locked c then none else some (s.setWorker w (.update c (s.objs c).hasWork))
  | .update c work, .updateForWorker _ =>
    let o := if work = false then { s.objs c with runstate := .N } else s.objs c
    some ((s.setObj c o).setWorker w (if o.runstate = .R then .work c else .idle))
  | _, _ => none

/-- The worker an action is of. -/
def RunAct.worker : RunAct → Option Nat
  | .pop w | .setRunState w | .checkCb w | .copyFifo w _ | .process w | .clearFifo w | .lockWorker w
  | .updateForWorker w => some w
  | _ => none

/-- **One step of one thread.**  `release` is the two steps any thread can take. -/
def runStep (s : Run) (a : RunAct) : Option Run :=
  match a.worker, a with
  | some w, a               => (s.workers[w]?).bind fun pc => workerStep s w pc a
  | none, .disableCb c      => some (s.setObj c { s.objs c with cb := false })
  | none, .wantDelete c now => some (s.setObj c { s.objs c with attn := true, tdestroy := now })
  | none, a                 => reactorStep s a

/-- **How often a client is out**: its places in the run queue and the workers that have it. -/
def Run.count (s : Run) (c : Nat) : Nat := s.runq.count (some c) + s.workers.countP (fun pc => pc.client = some c)

theorem Run.setObj_self (s : Run) (c : Nat) : s.setObj c (s.objs c) = s := by
  unfold Run.setObj
  rw [Function.update_eq_self]

theorem Run.objs_setObj (s : Run) (c : Nat) (o : RunClient) (c' : Nat) :
    (s.setObj c o).objs c' = if c' = c then o else s.objs c' :=
  Function.update_apply ..

theorem Run.objs_setObj_self (s : Run) (c : Nat) (o : RunClient) : (s.setObj c o).objs c = o := Function.update_self ..

theorem Run.objs_setObj_of_ne {s : Run} {c c' : Nat} (h : c' ≠ c) (o : RunClient) : (s.setObj c' o).objs c = s.objs c :=
  Function.update_of_ne (Ne.symm h) ..

/-- A worker that moves takes its client along in the count. -/
theorem Run.count_setWorker {s : Run} {w : Nat} {pc : WorkerPc} (hw : s.workers[w]? = some pc) (pc' : WorkerPc) (c : Nat) :
    (s.setWorker w pc').count c + (if pc.client = some c then 1 else 0) =
      s.count c + (if pc'.client = some c then 1 else 0) := by
  obtain ⟨hlt, rfl⟩ := List.getElem?_eq_some_iff.1 hw
  have hle : (if s.workers[w].client = some c then 1 else 0) ≤ s.workers.countP (fun pc => pc.client = some c) := by
    split
    · rename_i hc
      exact List.countP_pos_iff.2 ⟨_, List.getElem_mem hlt, by simpa using hc⟩
    · exact Nat.zero_le _
  unfold Run.count Run.setWorker
  simp only
  rw [List.countP_set hlt]
  simp only [decide_eq_true_eq]
  omega

/-! ## The invariant -/

/-- **The client is attended to**: with work it is out, and no worker is about to put it to `N` with work. -/
def Run.Attended (s : Run) (c : Nat) : Prop :=
  ((s.objs c).datafifo ≠ [] → (s.objs c).runstate ≠ .N) ∧ (.update c false ∈ s.workers → (s.objs c).datafifo = [])

/-- What the destruction cycle found of the clients it deletes. -/
def Run.Doomed (s : Run) (deletenow : List Nat) : Prop :=
  deletenow.Nodup ∧ ∀ c ∈ deletenow, (s.objs c).runstate = .N ∧ (s.objs c).ioClosed = true

/-- What the reactor knows where it is. -/
def Run.PcOk (s : Run) : ReactorPc → Prop
  | .io | .stopped => True
  | .scan todo | .push _ todo => ∀ c, c ∉ todo → s.Attended c
  | .update c work todo =>
    (∀ c', c' ≠ c → c' ∉ todo → s.Attended c') ∧ (work = false → (s.objs c).datafifo = []) ∧
      ∀ work', .update c work' ∉ s.workers
  | .destroy _ todo deletenow => (∀ c ∈ todo, c ∈ s.destroying) ∧ s.Doomed deletenow
  | .check _ c todo deletenow =>
    (s.objs c).ioClosed = true ∧ (∀ c ∈ todo, c ∈ s.destroying) ∧ s.Doomed deletenow
  | .reap deletenow => s.Doomed deletenow

/-- The client that is `Q` and not yet on the run queue. -/
def ReactorPc.pending : ReactorPc → Nat → Nat
  | .push c' _, c => if c' = c then 1 else 0
  | _, _          => 0

/-- The clients that are no longer in `m_clients` and not yet deleted. -/
def ReactorPc.reaping : ReactorPc → List Nat
  | .reap deletenow => deletenow
  | _               => []

structure Run.Inv (s : Run) : Prop where
  count   : ∀ c, s.pc.pending c + s.count c = if (s.objs c).runstate = .N then 0 else 1
  running : ∀ pc ∈ s.workers, ∀ c, pc.running = some c → (s.objs c).runstate = .R
  home    : ∀ c, (s.objs c).datafifo ≠ [] ∨ c ∈ s.destroying → c ∈ s.clients ∨ c ∈ s.pc.reaping
  quiet   : s.quiet = true → ∀ c, s.Attended c
  pcOk    : s.PcOk s.pc

theorem Run.new_inv (n : Nat) : (Run.new n).Inv where
  count c := by simp [Run.new, Run.count, ReactorPc.pending, RunClient.new, List.countP_replicate, WorkerPc.client]
  running pc hpc c hc := by
    rw [List.eq_of_mem_replicate hpc] at hc
    cases hc
  home c h := by rcases h with h | h <;> simp [Run.new, RunClient.new] at h
  quiet h := by cases h
  pcOk := trivial

theorem Run.not_mem_of_not_locked {s : Run} {c : Nat} (h : s.locked c = false) (work : Bool) : .update c work ∉ s.workers := by
  intro hm
  unfold Run.locked at h
  rw [Bool.or_eq_false_iff, List.any_eq_false] at h
  exact h.2 _ hm (by simp)

theorem Run.pc_ne_of_not_locked {s : Run} {c : Nat} (h : s.locked c = false) (work : Bool) (todo : List Nat) :
    s.pc ≠ .update c work todo := by
  intro hpc
  unfold Run.locked at h
  rw [hpc] at h
  simp at h

/-- What a step of another thread leaves of the reactor's knowledge. -/
theorem Run.PcOk.mono {s t : Run} {pc : ReactorPc} (h : s.PcOk pc) (hatt : ∀ c, s.Attended c → t.Attended c)
    (hfifo : ∀ c, (s.objs c).datafifo = [] → (t.objs c).datafifo = [])
    (hN : ∀ c, (s.objs c).runstate = .N → (t.objs c).runstate = .N)
    (hclosed : ∀ c, (s.objs c).ioClosed = true → (t.objs c).ioClosed = true) (hd : t.destroying = s.destroying)
    (hlock : ∀ c work todo, pc = .update c work todo → ∀ work', .update c work' ∈ t.workers → .update c work' ∈ s.workers) :
    t.PcOk pc := by
  have hdoom : ∀ deletenow, s.Doomed deletenow → t.Doomed deletenow :=
    fun _ hdl => ⟨hdl.1, fun c hc => ⟨hN c (hdl.2 c hc).1, hclosed c (hdl.2 c hc).2⟩⟩
  cases pc with
  | io | stopped => trivial
  | scan todo | push c todo => exact fun c hc => hatt c (h c hc)
  | update c work todo =>
    obtain ⟨h1, h2, h3⟩ := h
    exact ⟨fun c' hne hc' => hatt c' (h1 c' hne hc'), fun hwk => hfifo c (h2 hwk),
      fun work' hm => h3 work' (hlock c work todo rfl work' hm)⟩
  | destroy now todo deletenow =>
    unfold Run.PcOk
    rw [hd]
    exact ⟨h.1, hdoom _ h.2⟩
  | check now c todo deletenow =>
    unfold Run.PcOk
    rw [hd]
    exact ⟨hclosed c h.1, h.2.1, hdoom _ h.2.2⟩
  | reap deletenow => exact hdoom _ h

/-! ## The workers keep the invariant -/

/-- A client that a worker has is not `N`. -/
theorem Run.Inv.holder {s : Run} (h : s.Inv) {w : Nat} {pc : WorkerPc} (hw : s.workers[w]? = some pc) {c : Nat}
    (hc : pc.client = some c) : s.pc.pending c + s.count c = 1 ∧ (s.objs c).runstate ≠ .N := by
  have hcount := h.count c
  have hidle := Run.count_setWorker hw .idle c
  rw [if_pos hc, if_neg (by simp [WorkerPc.client])] at hidle
  by_cases hN : (s.objs c).runstate = .N
  · rw [if_pos hN] at hcount
    omega
  · rw [if_neg hN] at hcount
    exact ⟨hcount, hN⟩

/-- **A worker that keeps its client**, leaves it in `R` and does not add to its fifo. -/
theorem Run.Inv.hold {s : Run} (h : s.Inv) {w : Nat} {pc pc' : WorkerPc} (hw : s.workers[w]? = some pc) {c : Nat}
    {o : RunClient} (hc : pc.client = some c) (hc' : pc'.client = some c) (hR : o.runstate = .R)
    (hclosed : o.ioClosed = (s.objs c).ioClosed) (hfifo : (s.objs c).datafifo = [] → o.datafifo = [])
    (hup : ∀ work, pc' = .update c work → s.locked c = false ∧ (work = false → o.datafifo = [])) :
    ((s.setObj c o).setWorker w pc').Inv := by
  have hobj := s.objs_setObj c o
  have hmem : ∀ c' work, .update c' work ∈ s.workers.set w pc' →
      .update c' work ∈ s.workers ∨ c' = c ∧ pc' = .update c work := by
    intro c' work hm
    rcases List.mem_or_eq_of_mem_set hm with hm | rfl
    · exact .inl hm
    · cases hc'
      exact .inr ⟨rfl, rfl⟩
  have hatt : ∀ c', s.Attended c' → ((s.setObj c o).setWorker w pc').Attended c' := by
    intro c' ha
    unfold Run.Attended Run.setWorker
    simp only
    rw [hobj]
    by_cases hcc : c' = c
    · subst hcc
      rw [if_pos rfl]
      refine ⟨fun _ => by rw [hR]; simp, fun hm => ?_⟩
      rcases hmem _ _ hm with hm | ⟨-, hpc⟩
      · exact hfifo (ha.2 hm)
      · exact (hup false hpc).2 rfl
    · rw [if_neg hcc]
      refine ⟨ha.1, fun hm => ?_⟩
      rcases hmem _ _ hm with hm | ⟨hcc', -⟩
      · exact ha.2 hm
      · exact absurd hcc' hcc
  have hN : ∀ c', (s.objs c').runstate = .N → c' ≠ c := by
    rintro c' hN rfl
    exact (h.holder hw hc).2 hN
  have hfifo' : ∀ c', (s.objs c').datafifo = [] → ((s.setObj c o).objs c').datafifo = [] := by
    intro c' hn
    rw [hobj]
    split
    · rename_i hcc
      subst hcc
      exact hfifo hn
    · exact hn
  refine ⟨fun c' => ?_, fun pc₁ hpc₁ c' hr => ?_, fun c' hh => ?_, fun hq c' => hatt c' (h.quiet hq c'), ?_⟩
  · have hcount := h.count c'
    have hset := Run.count_setWorker hw pc' c'
    rw [hc, hc'] at hset
    have hcnt : ((s.setObj c o).setWorker w pc').count c' = s.count c' := Nat.add_right_cancel hset
    rw [hcnt]
    refine hcount.trans ?_
    show _ = if ((s.setObj c o).objs c').runstate = .N then 0 else 1
    rw [hobj]
    by_cases hcc : c' = c
    · subst hcc
      rw [if_pos rfl, hR, if_neg (h.holder hw hc).2]
      simp
    · rw [if_neg hcc]
  · show ((s.setObj c o).objs c').runstate = .R
    rw [hobj]
    by_cases hcc : c' = c
    · rw [if_pos hcc, hR]
    · rw [if_neg hcc]
      rcases List.mem_or_eq_of_mem_set hpc₁ with hm | rfl
      · exact h.running pc₁ hm c' hr
      · cases pc₁ <;> simp [WorkerPc.running, WorkerPc.client] at hr hc' <;> exact absurd (hr.symm.trans hc') hcc
  · refine h.home c' (hh.imp_left fun hne hn => hne (hfifo' c' hn))
  · refine h.pcOk.mono hatt hfifo' (fun c' hn => ?_) (fun c' hcl => ?_) rfl (fun c' work todo hpc work' hm => ?_)
    · show ((s.setObj c o).objs c').runstate = .N
      rw [hobj, if_neg (hN c' hn)]
      exact hn
    · show ((s.setObj c o).objs c').ioClosed = true
      rw [hobj]
      split
      · rename_i hcc
        subst hcc
        rw [hclosed, hcl]
      · exact hcl
    · rcases hmem _ _ hm with hm | ⟨rfl, hpc'⟩
      · exact hm
      · exact absurd hpc (Run.pc_ne_of_not_locked (hup work' hpc').1 work todo)

/-- A worker outside its loop moves: to a client it popped, or out. -/
theorem Run.Inv.move {s : Run} (h : s.Inv) {w : Nat} {pc' : WorkerPc} {q : List (Option Nat)}
    (hrun : pc'.running = none) (hcount : ∀ c, ({ s.setWorker w pc' with runq := q } : Run).count c = s.count c) :
    ({ s.setWorker w pc' with runq := q } : Run).Inv := by
  have hmem : ∀ c work, .update c work ∈ s.workers.set w pc' → .update c work ∈ s.workers := by
    intro c work hm
    rcases List.mem_or_eq_of_mem_set hm with hm | rfl
    · exact hm
    · cases hrun
  have hatt : ∀ c, s.Attended c → ({ s.setWorker w pc' with runq := q } : Run).Attended c :=
    fun c ha => ⟨ha.1, fun hm => ha.2 (hmem c false hm)⟩
  refine ⟨fun c => ?_, fun pc₁ hpc₁ c hr => ?_, h.home, fun hq c => hatt c (h.quiet hq c), ?_⟩
  · rw [hcount]
    exact h.count c
  · rcases List.mem_or_eq_of_mem_set hpc₁ with hm | rfl
    · exact h.running pc₁ hm c hr
    · rw [hrun] at hr
      cases hr
  · exact h.pcOk.mono hatt (fun _ => id) (fun _ => id) (fun _ => id) rfl (fun c _ _ _ work' => hmem c work')

/-- **A worker that found no work leaves**, and its client is `N`. -/
theorem Run.Inv.leave {s : Run} (h : s.Inv) {w c : Nat} (hw : s.workers[w]? = some (.update c false)) :
    ((s.setObj c { s.objs c with runstate := .N }).setWorker w .idle).Inv := by
  have hobj := s.objs_setObj c { s.objs c with runstate := .N }
  have hmem : ∀ c' work, .update c' work ∈ s.workers.set w .idle → .update c' work ∈ s.workers := by
    intro c' work hm
    rcases List.mem_or_eq_of_mem_set hm with hm | hm
    · exact hm
    · cases hm
  have hin : .update c false ∈ s.workers := List.mem_of_getElem? hw
  have hfifo : ∀ c', ((s.setObj c { s.objs c with runstate := .N }).objs c').datafifo = (s.objs c').datafifo := by
    intro c'
    rw [hobj]
    split
    · rename_i hcc
      rw [hcc]
    · rfl
  have hatt : ∀ c', s.Attended c' →
      ((s.setObj c { s.objs c with runstate := .N }).setWorker w .idle).Attended c' := by
    intro c' ha
    refine ⟨fun hne => ?_, fun hm => (hfifo c').trans (ha.2 (hmem c' false hm))⟩
    show ((s.setObj c { s.objs c with runstate := .N }).objs c').runstate ≠ .N
    rw [hobj]
    split
    · rename_i hcc
      subst hcc
      exact absurd ((hfifo c').trans (ha.2 hin)) hne
    · exact ha.1 (by rw [← hfifo c']; exact hne)
  have hcount : ∀ c', s.pc.pending c' + ((s.setObj c { s.objs c with runstate := .N }).setWorker w .idle).count c' =
      if ((s.setObj c { s.objs c with runstate := .N }).objs c').runstate = .N then 0 else 1 := by
    intro c'
    have hset := Run.count_setWorker hw .idle c'
    have hcnt : ((s.setObj c { s.objs c with runstate := .N }).setWorker w .idle).count c' =
      (s.setWorker w .idle).count c' := rfl
    simp only [WorkerPc.client, reduceCtorEq, if_false, Nat.add_zero, Option.some.injEq] at hset
    rw [hobj, hcnt]
    by_cases hcc : c' = c
    · subst hcc
      have := (h.holder hw rfl).1
      simp only [if_true] at hset ⊢
      omega
    · rw [if_neg (Ne.symm hcc), Nat.add_zero] at hset
      rw [if_neg hcc, hset]
      exact h.count c'
  refine ⟨hcount, fun pc₁ hpc₁ c' hr => ?_, fun c' hh => ?_, fun hq c' => hatt c' (h.quiet hq c'), ?_⟩
  · show ((s.setObj c { s.objs c with runstate := .N }).objs c').runstate = .R
    obtain ⟨i, hi⟩ := List.mem_iff_getElem?.1 hpc₁
    by_cases hcc : c' = c
    · -- no other worker has the client
      subst hcc
      have hcl : pc₁.client = some c' := by cases pc₁ <;> simp_all [WorkerPc.running, WorkerPc.client]
      have hpos := Run.count_setWorker hi .idle c'
      have hzero := hcount c'
      rw [hobj] at hzero
      rw [if_pos hcl] at hpos
      simp only [if_true, WorkerPc.client, reduceCtorEq, if_false] at hzero hpos
      omega
    · rw [hobj, if_neg hcc]
      rcases List.mem_or_eq_of_mem_set hpc₁ with hm | rfl
      · exact h.running pc₁ hm c' hr
      · cases hr
  · refine h.home c' (hh.imp_left fun hne => ?_)
    rw [← hfifo c']
    exact hne
  · refine h.pcOk.mono hatt (fun c' hn => (hfifo c').trans hn) (fun c' hn => ?_) (fun c' hcl => ?_) rfl
      (fun c' _ _ _ work' => hmem c' work')
    · show ((s.setObj c { s.objs c with runstate := .N }).objs c').runstate = .N
      rw [hobj]
      split
      · rfl
      · exact hn
    · show ((s.setObj c { s.objs c with runstate := .N }).objs c').ioClosed = true
      rw [hobj]
      split
      · rename_i hcc
        rw [← hcc]
        exact hcl
      · exact hcl

theorem restChunks_nil {fifo : List Bytes} (h : fifo = []) : (restChunks fifo).1 = [] := by
  subst h
  rfl

theorem workerStep_inv {s t : Run} {w : Nat} {pc : WorkerPc} {a : RunAct} (h : s.Inv) (hw : s.workers[w]? = some pc)
    (hs : workerStep s w pc a = some t) : t.Inv := by
  have hin := List.mem_of_getElem? hw
  have hset : ∀ c pc', s.setWorker w pc' = (s.setObj c (s.objs c)).setWorker w pc' := fun c pc' => by rw [s.setObj_self]
  unfold workerStep at hs
  split at hs
  · split at hs
    · cases hs
    · cases hs
      refine Run.Inv.move (q := s.runq) h rfl (fun c => ?_)
      have hcnt := Run.count_setWorker hw .exited c
      simp only [WorkerPc.client, reduceCtorEq, if_false, Nat.add_zero] at hcnt
      exact hcnt
    · rename_i c runq hq
      cases hs
      refine h.move rfl (fun c' => ?_)
      have hcnt := Run.count_setWorker hw (.popped c) c'
      unfold Run.count Run.setWorker at hcnt ⊢
      rw [hq, List.count_cons] at hcnt ⊢
      by_cases hcc : c = c'
      · simp [hcc, WorkerPc.client] at hcnt ⊢
        omega
      · simp [hcc, WorkerPc.client] at hcnt ⊢
        omega
  · split at hs
    · cases hs
    · cases hs
      exact h.hold hw rfl rfl rfl rfl id (fun _ hpc => by cases hpc)
  · rename_i c _
    split at hs
    · cases hs
      rw [hset c]
      exact h.hold hw rfl rfl (h.running _ hin _ rfl) rfl id (fun _ hpc => by cases hpc)
    · cases hs
      exact h.hold hw rfl rfl (h.running _ hin _ rfl) rfl (fun _ => rfl) (fun _ hpc => by cases hpc)
  · cases hs
    exact h.hold hw rfl rfl (h.running _ hin _ rfl) rfl restChunks_nil (fun _ hpc => by cases hpc)
  · split at hs
    · cases hs
      exact h.hold hw rfl rfl (h.running _ hin _ rfl) rfl (fun hn => by simp [hn]) (fun _ hpc => by cases hpc)
    · cases hs
  · cases hs
    exact h.hold hw rfl rfl (h.running _ hin _ rfl) rfl id (fun _ hpc => by cases hpc)
  · rename_i c _
    cases hs
    rw [hset c]
    exact h.hold hw rfl rfl (h.running _ hin _ rfl) rfl id (fun _ hpc => by cases hpc)
  · cases hs
    exact h.hold hw rfl rfl (h.running _ hin _ rfl) rfl (fun _ => rfl) (fun _ hpc => by cases hpc)
  · rename_i c _
    split at hs
    · cases hs
    · rename_i hlock
      cases hs
      rw [hset c]
      refine h.hold hw rfl rfl (h.running _ hin _ rfl) rfl id (fun work hpc => ⟨by simpa using hlock, fun hwk => ?_⟩)
      cases hpc
      simpa [RunClient.hasWork] using hwk
  · rename_i c work _
    cases hs
    have hR := h.running _ hin c rfl
    cases work with
    | true =>
      simp only [Bool.true_eq_false, if_false, hR, if_true]
      exact h.hold hw rfl rfl hR rfl id (fun _ hpc => by cases hpc)
    | false =>
      simp only [if_true, reduceCtorEq, if_false]
      exact h.leave hw
  · cases hs

/-! ## The reactor keeps the invariant -/

/-- A step that moves no client: the run states and who has a client are as before. -/
theorem Run.Inv.stay {s t : Run} (h : s.Inv) (hw : t.workers = s.workers)
    (hrs : ∀ c, (t.objs c).runstate = (s.objs c).runstate)
    (hout : ∀ c, t.pc.pending c + t.runq.count (some c) = s.pc.pending c + s.runq.count (some c))
    (hhome : ∀ c, (t.objs c).datafifo ≠ [] ∨ c ∈ t.destroying → c ∈ t.clients ∨ c ∈ t.pc.reaping)
    (hquiet : t.quiet = true → ∀ c, t.Attended c) (hpc : t.PcOk t.pc) : t.Inv := by
  refine ⟨fun c => ?_, fun pc hin c hr => ?_, hhome, hquiet, hpc⟩
  · have hcount := h.count c
    have hout' := hout c
    unfold Run.count at hcount ⊢
    rw [hw, hrs]
    omega
  · rw [hrs]
    rw [hw] at hin
    exact h.running pc hin c hr

/-- The reactor goes on, and no client is on its way to the run queue or out of `m_clients`. -/
theorem Run.Inv.goto {s : Run} (h : s.Inv) {pc : ReactorPc} (hpend : pc.pending = s.pc.pending)
    (hreap : pc.reaping = s.pc.reaping) (hok : ({ s with pc := pc } : Run).PcOk pc) : ({ s with pc := pc } : Run).Inv := by
  refine h.stay rfl (fun _ => rfl) (fun c => ?_) (fun c hh => ?_) h.quiet hok
  · show pc.pending c + _ = _
    rw [hpend]
  · show c ∈ s.clients ∨ c ∈ pc.reaping
    rw [hreap]
    exact h.home c hh

/-- The clients the destruction cycle found stay so while their run states do and no socket opens. -/
theorem Run.Doomed.mono {s t : Run} {deletenow : List Nat} (h : s.Doomed deletenow)
    (hrs : ∀ c, (t.objs c).runstate = (s.objs c).runstate)
    (hclosed : ∀ c, (s.objs c).ioClosed = true → (t.objs c).ioClosed = true) : t.Doomed deletenow :=
  ⟨h.1, fun c hc => ⟨(hrs c).trans (h.2 c hc).1, hclosed c (h.2 c hc).2⟩⟩

theorem Run.doomed_nil (s : Run) : s.Doomed [] := ⟨List.nodup_nil, fun _ hc => absurd hc List.not_mem_nil⟩

theorem Run.attended_of_nil {s : Run} {c : Nat} (h : (s.objs c).datafifo = []) : s.Attended c :=
  ⟨fun hne => absurd h hne, fun _ => h⟩

theorem RunClient.handleClose_runstate (o : RunClient) : o.handleClose.runstate = o.runstate := by
  unfold RunClient.handleClose
  split <;> rfl

theorem RunClient.handleClose_of_closed {o : RunClient} (h : o.ioClosed = true) : o.handleClose = o := by
  unfold RunClient.handleClose
  rw [if_neg (by simp [h])]

/-- A client's record changes in a field of which a function of it does not depend. -/
theorem Run.objs_setObj_congr {α : Type} (f : RunClient → α) {s : Run} {c : Nat} {o : RunClient} (h : f o = f (s.objs c))
    (c' : Nat) : f ((s.setObj c o).objs c') = f (s.objs c') := by
  rw [s.objs_setObj]
  split
  · rename_i hcc
    rw [hcc, h]
  · rfl

theorem Run.closed_setObj {s : Run} {c : Nat} {o : RunClient} (h : (s.objs c).ioClosed = true → o.ioClosed = true)
    (c' : Nat) (hc' : (s.objs c').ioClosed = true) : ((s.setObj c o).objs c').ioClosed = true := by
  rw [s.objs_setObj]
  split
  · rename_i hcc
    subst hcc
    exact h hc'
  · exact hc'

/-- The fifo of a registered client may grow. -/
theorem Run.Inv.home_setObj {s : Run} (h : s.Inv) {c : Nat} (hc : c ∈ s.clients) (o : RunClient) (c' : Nat)
    (hh : ((s.setObj c o).objs c').datafifo ≠ [] ∨ c' ∈ s.destroying) : c' ∈ s.clients ∨ c' ∈ s.pc.reaping := by
  by_cases hcc : c' = c
  · exact .inl (hcc ▸ hc)
  · rw [s.objs_setObj, if_neg hcc] at hh
    exact h.home c' hh

theorem mem_foldl_insert {c : Nat} : ∀ (l d : List Nat), c ∈ l.foldl (fun d c => d.insert c) d → c ∈ d ∨ c ∈ l
  | [], _, h => .inl h
  | x :: l, d, h => by
    rcases mem_foldl_insert l (d.insert x) h with h | h
    · rcases List.mem_insert_iff.1 h with rfl | h
      · exact .inr List.mem_cons_self
      · exact .inl h
    · exact .inr (List.mem_cons_of_mem _ h)

/-- Fields of a client that nobody else looks at change. -/
theorem Run.Inv.unseen {s : Run} (h : s.Inv) {c : Nat} {o : RunClient} (hrs : o.runstate = (s.objs c).runstate)
    (hfifo : o.datafifo = (s.objs c).datafifo) (hclosed : o.ioClosed = (s.objs c).ioClosed) : (s.setObj c o).Inv := by
  have hrs' := Run.objs_setObj_congr RunClient.runstate hrs
  have hfifo' := Run.objs_setObj_congr RunClient.datafifo hfifo
  have hclosed' := Run.objs_setObj_congr RunClient.ioClosed hclosed
  have hatt : ∀ c', s.Attended c' → (s.setObj c o).Attended c' := by
    intro c' ha
    unfold Run.Attended
    rw [hrs', hfifo']
    exact ha
  refine h.stay rfl hrs' (fun _ => rfl) (fun c' hh => ?_) (fun hq c' => hatt c' (h.quiet hq c')) ?_
  · rw [hfifo'] at hh
    exact h.home c' hh
  · exact h.pcOk.mono hatt (fun c' hn => (hfifo' c').trans hn) (fun c' hn => (hrs' c').trans hn)
      (fun c' hcl => (hclosed' c').trans hcl) rfl (fun _ _ _ _ _ => id)

/-- Data or the sentinel is added to the fifo of a registered client, outside the scan. -/
theorem Run.Inv.fill {s : Run} (h : s.Inv) {c : Nat} {o : RunClient} (hc : c ∈ s.clients)
    (hrs : o.runstate = (s.objs c).runstate) (hclosed : (s.objs c).ioClosed = true → o.ioClosed = true)
    {pc : ReactorPc} (hpend : ∀ c, pc.pending c = s.pc.pending c) (hreap : s.pc.reaping = [])
    (hpc : (∀ dl, s.Doomed dl → ({ s.setObj c o with pc := pc, quiet := false } : Run).Doomed dl) →
      ({ s.setObj c o with pc := pc, quiet := false } : Run).PcOk pc) :
    ({ s.setObj c o with pc := pc, quiet := false } : Run).Inv := by
  have hrs' := Run.objs_setObj_congr RunClient.runstate hrs
  refine h.stay rfl hrs' (fun c' => by rw [hpend]; rfl) (fun c' hh => .inl ?_) (fun hq => by cases hq) (hpc fun dl hdl => ?_)
  · have := h.home_setObj hc o c' hh
    rw [hreap] at this
    exact this.resolve_right (List.not_mem_nil)
  · exact hdl.mono hrs' (Run.closed_setObj hclosed)

/-- **The reactor queues a client**: it was `N`, so nobody had it. -/
theorem Run.Inv.enqueue {s : Run} (h : s.Inv) {c : Nat} {work : Bool} {todo : List Nat} (hpc : s.pc = .update c work todo)
    (hN : (s.objs c).runstate = .N) :
    ({ s.setObj c { s.objs c with runstate := .Q } with pc := .push c todo } : Run).Inv := by
  have hobj := s.objs_setObj c { s.objs c with runstate := .Q }
  have hfifo : ∀ c', ((s.setObj c { s.objs c with runstate := .Q }).objs c').datafifo = (s.objs c').datafifo :=
    Run.objs_setObj_congr RunClient.datafifo rfl
  have hpend : ∀ c', s.pc.pending c' = 0 := fun c' => by rw [hpc]; rfl
  obtain ⟨hother, -, hlock⟩ := hpc ▸ h.pcOk
  have hatt : ∀ c', (c' ≠ c → s.Attended c') →
      ({ s.setObj c { s.objs c with runstate := .Q } with pc := .push c todo } : Run).Attended c' := by
    intro c' ha
    unfold Run.Attended
    simp only
    rw [hobj]
    by_cases hcc : c' = c
    · subst hcc
      rw [if_pos rfl]
      exact ⟨fun _ => by simp, fun hm => absurd hm (hlock false)⟩
    · rw [if_neg hcc]
      exact ha hcc
  refine ⟨fun c' => ?_, fun pc hin c' hr => ?_, fun c' hh => ?_, fun hq c' => hatt c' fun _ => h.quiet hq c',
    fun c' hc' => hatt c' fun hcc => hother c' hcc hc'⟩
  · have hcount := h.count c'
    rw [hpend] at hcount
    show (if c = c' then 1 else 0) + s.count c' = if ((s.setObj c { s.objs c with runstate := .Q }).objs c').runstate = .N
      then 0 else 1
    rw [hobj]
    by_cases hcc : c' = c
    · subst hcc
      rw [if_pos hN] at hcount
      simp only [if_true, reduceCtorEq, if_false]
      omega
    · rw [if_neg (Ne.symm hcc), if_neg hcc]
      exact hcount
  · show ((s.setObj c { s.objs c with runstate := .Q }).objs c').runstate = .R
    have hR := h.running pc hin c' hr
    rw [hobj, if_neg]
    · exact hR
    · rintro rfl
      rw [hN] at hR
      cases hR
  · rw [hfifo] at hh
    have := h.home c' hh
    rw [hpc] at this
    exact this

/-- **The reactor deletes a client** that is `N` and closed; a new object may be there afterwards. -/
theorem Run.Inv.erase {s : Run} (h : s.Inv) {c : Nat} {deletenow : List Nat} (hpc : s.pc = .reap (c :: deletenow)) :
    ({ s.setObj c .new with destroying := s.destroying.filter (fun d => d ≠ c), pc := .reap deletenow } : Run).Inv := by
  have hobj := s.objs_setObj c .new
  have hpcOk := h.pcOk
  rw [hpc] at hpcOk
  obtain ⟨hnd, hdoom⟩ := hpcOk
  have hN := (hdoom c List.mem_cons_self).1
  have hrs : ∀ c', ((s.setObj c .new).objs c').runstate = (s.objs c').runstate :=
    Run.objs_setObj_congr RunClient.runstate hN.symm
  refine h.stay rfl hrs (fun c' => by rw [hpc]; rfl) (fun c' hh => ?_) (fun hq c' => ?_) ⟨hnd.of_cons, fun c' hc' => ?_⟩
  · by_cases hcc : c' = c
    · subst hcc
      rcases hh with hh | hh
      · have : ((s.setObj c' .new).objs c').datafifo = [] := by rw [hobj, if_pos rfl]; rfl
        exact absurd this hh
      · simp at hh
    · have hhome := h.home c' (by
        rcases hh with hh | hh
        · refine .inl fun hn => hh ?_
          show ((s.setObj c .new).objs c').datafifo = []
          rw [hobj, if_neg hcc]
          exact hn
        · exact .inr (List.mem_filter.1 hh).1)
      rw [hpc] at hhome
      exact hhome.imp_right fun hm => (List.mem_cons.1 hm).resolve_left hcc
  · by_cases hcc : c' = c
    · refine Run.attended_of_nil ?_
      show ((s.setObj c .new).objs c').datafifo = []
      rw [hobj, if_pos hcc]
      rfl
    · have ha := h.quiet hq c'
      unfold Run.Attended
      simp only
      rw [hobj, if_neg hcc]
      exact ha
  · have hne : c' ≠ c := fun hcc => (List.nodup_cons.1 hnd).1 (hcc ▸ hc')
    show ((s.setObj c .new).objs c').runstate = .N ∧ ((s.setObj c .new).objs c').ioClosed = true
    rw [hobj, if_neg hne]
    exact hdoom c' (List.mem_cons_of_mem _ hc')

/-- The invariant's part on the reactor's place, once that place is known. -/
theorem Run.Inv.pcOk_at {s : Run} (h : s.Inv) {pc : ReactorPc} (hpc : s.pc = pc) : s.PcOk pc := hpc ▸ h.pcOk

/-- Away from the reaping a client with work to do is registered. -/
theorem Run.Inv.home_of_reaping {s : Run} (h : s.Inv) (hreap : s.pc.reaping = []) {c : Nat}
    (hh : (s.objs c).datafifo ≠ [] ∨ c ∈ s.destroying) : c ∈ s.clients := by
  have hhome := h.home c hh
  rw [hreap] at hhome
  exact hhome.resolve_right List.not_mem_nil

theorem reactorStep_inv {s t : Run} (h : s.Inv) {a : RunAct} (hs : reactorStep s a = some t) : t.Inv := by
  cases reactorStep_cases hs with
  | @handleInput c chunk hpc hc =>
    refine h.fill (o := { s.objs c with datafifo := (s.objs c).datafifo ++ [chunk] }) hc rfl id (fun _ => rfl)
      (by rw [hpc]; rfl) (fun _ => ?_)
    show Run.PcOk _ s.pc
    rw [hpc]
    trivial
  | @handleClose c hpc hc =>
    by_cases hcl : (s.objs c).ioClosed = true
    · rw [hcl, Bool.and_true, RunClient.handleClose_of_closed hcl, s.setObj_self]
      exact h
    · rw [Bool.not_eq_true] at hcl
      rw [hcl, Bool.and_false]
      refine h.fill (o := (s.objs c).handleClose) hc (RunClient.handleClose_runstate _)
        (fun hc => by rw [hcl] at hc; cases hc) (fun _ => rfl) (by rw [hpc]; rfl) (fun _ => ?_)
      show Run.PcOk _ s.pc
      rw [hpc]
      trivial
  | add _ =>
    exact h.stay rfl (fun _ => rfl) (fun _ => rfl) (fun c' hh => (h.home c' hh).imp_left (List.mem_append_left _))
      h.quiet (h.pcOk.mono (fun _ => id) (fun _ => id) (fun _ => id) (fun _ => id) rfl (fun _ _ _ _ _ => id))
  | attendClients hpc =>
    refine h.stay rfl (fun _ => rfl) (fun _ => rfl) (fun c hh => ?_) h.quiet (by simp only; rw [hpc]; trivial)
    rcases hh with hh | hh
    · exact h.home c (.inl hh)
    · rcases mem_foldl_insert _ _ hh with hh | hh
      · exact h.home c (.inr hh)
      · exact .inl (List.mem_filter.1 hh).1
  | startScan hpc =>
    refine h.goto (by rw [hpc]; rfl) (by rw [hpc]; rfl) (fun c hc => ?_)
    -- a client that is not registered has no data
    refine Run.attended_of_nil (Classical.byContradiction fun hne => hc ?_)
    exact h.home_of_reaping (by rw [hpc]; rfl) (.inl hne)
  | lockReactor hpc hfree =>
    have hok := h.pcOk_at hpc
    refine h.goto (by rw [hpc]; rfl) (by rw [hpc]; rfl)
      ⟨fun c' hne hc' => hok c' ?_, fun hwk => ?_, Run.not_mem_of_not_locked (s := s) hfree⟩
    · rw [List.mem_cons, not_or]
      exact ⟨hne, hc'⟩
    · simpa [RunClient.hasWork] using hwk
  | queue hpc hidle => exact h.enqueue hpc hidle
  | @skip c work todo hpc hno =>
    obtain ⟨hother, hread, hlock⟩ := h.pcOk_at hpc
    refine h.goto (by rw [hpc]; rfl) (by rw [hpc]; rfl) (fun c' hc' => ?_)
    by_cases hcc : c' = c
    · subst hcc
      refine ⟨fun hne hN => ?_, fun hm => absurd hm (hlock false)⟩
      cases work with
      | true => exact hno ⟨rfl, hN⟩
      | false => exact hne (hread rfl)
    · exact hother c' hcc hc'
  | @pushRunq c todo hpc =>
    refine h.stay rfl (fun _ => rfl) (fun c' => ?_) (fun c hh => ?_) h.quiet (h.pcOk_at hpc)
    · rw [hpc]
      simp only [ReactorPc.pending, List.count_append, List.count_singleton]
      by_cases hcc : c = c'
      · simp [hcc]
        omega
      · simp [hcc]
    · exact .inl (h.home_of_reaping (by rw [hpc]; rfl) hh)
  | startCleanup hpc =>
    have hall : ∀ c, s.Attended c := fun c => h.pcOk_at hpc c List.not_mem_nil
    exact h.stay rfl (fun _ => rfl) (fun _ => by rw [hpc]; rfl)
      (fun c hh => .inl (h.home_of_reaping (by rw [hpc]; rfl) hh)) (fun _ => hall) ⟨fun _ => id, s.doomed_nil⟩
  | noCleanup hpc =>
    have hall : ∀ c, s.Attended c := fun c => h.pcOk_at hpc c List.not_mem_nil
    exact h.stay rfl (fun _ => rfl) (fun _ => by rw [hpc]; rfl)
      (fun c hh => .inl (h.home_of_reaping (by rw [hpc]; rfl) hh)) (fun _ => hall) s.doomed_nil
  | @destroyOpen now c todo deletenow hpc hopen =>
    obtain ⟨htodo, hdoom⟩ := h.pcOk_at hpc
    have hreap : s.pc.reaping = [] := by rw [hpc]; rfl
    exact h.fill (o := { (s.objs c).handleClose with tdestroy := now })
      (h.home_of_reaping hreap (.inr (htodo c List.mem_cons_self))) (RunClient.handleClose_runstate _)
      (fun hcl => by rw [hopen] at hcl; cases hcl) (fun c' => by rw [hpc]; rfl) hreap
      (fun hmono => ⟨fun c' hc' => htodo c' (List.mem_cons_of_mem _ hc'), hmono _ hdoom⟩)
  | @destroyClosed now c todo deletenow hpc hclosed =>
    obtain ⟨htodo, hdoom⟩ := h.pcOk_at hpc
    have hu : (s.setObj c { s.objs c with tdestroy := now }).Inv := h.unseen rfl rfl rfl
    have hcl' : ∀ c', ((s.setObj c { s.objs c with tdestroy := now }).objs c').ioClosed = (s.objs c').ioClosed :=
      Run.objs_setObj_congr RunClient.ioClosed rfl
    refine hu.goto (by show _ = s.pc.pending; rw [hpc]; rfl) (by show _ = s.pc.reaping; rw [hpc]; rfl)
      ⟨(hcl' c).trans hclosed, fun c' hc' => htodo c' (List.mem_cons_of_mem _ hc'), ?_⟩
    exact hdoom.mono (Run.objs_setObj_congr RunClient.runstate rfl) (fun c' hc' => (hcl' c').trans hc')
  | destroyLater hpc =>
    obtain ⟨htodo, hdoom⟩ := h.pcOk_at hpc
    exact h.goto (by rw [hpc]; rfl) (by rw [hpc]; rfl) ⟨fun c' hc' => htodo c' (List.mem_cons_of_mem _ hc'), hdoom⟩
  | getRunState hpc =>
    obtain ⟨hclosed, htodo, hdoom⟩ := h.pcOk_at hpc
    refine h.goto (by rw [hpc]; rfl) (by rw [hpc]; rfl) ⟨htodo, ?_⟩
    split
    · rename_i hN
      refine ⟨hdoom.1.insert, fun c' hc' => ?_⟩
      rcases List.mem_insert_iff.1 hc' with rfl | hc'
      · exact ⟨hN, hclosed⟩
      · exact hdoom.2 c' hc'
    · exact hdoom
  | @rebuild now deletenow hpc =>
    refine h.stay rfl (fun _ => rfl) (fun _ => by rw [hpc]; rfl) (fun c' hh => ?_) h.quiet (h.pcOk_at hpc).2
    have hc' := h.home_of_reaping (by rw [hpc]; rfl) hh
    by_cases hd : c' ∈ deletenow
    · exact .inr hd
    · exact .inl (List.mem_filter.2 ⟨hc', by simpa using hd⟩)
  | delete hpc => exact h.erase hpc
  | loop hpc | stop hpc => exact h.goto (by rw [hpc]; rfl) (by rw [hpc]; rfl) trivial
  | endWorkers hpc =>
    refine h.stay rfl (fun _ => rfl) (fun c' => ?_) h.home h.quiet (by simp only; rw [hpc]; trivial)
    simp [List.count_append]

theorem runStep_inv {s t : Run} {a : RunAct} (h : s.Inv) (hs : runStep s a = some t) : t.Inv := by
  unfold runStep at hs
  split at hs
  · obtain ⟨pc, hw, hs⟩ := Option.bind_eq_some_iff.1 hs
    exact workerStep_inv h hw hs
  · cases hs
    exact h.unseen rfl rfl rfl
  · cases hs
    exact h.unseen rfl rfl rfl
  · exact reactorStep_inv h hs

theorem Run.Inv.count_le_one {s : Run} (h : s.Inv) (c : Nat) : s.count c ≤ 1 := by
  have hcount := h.count c
  split at hcount <;> omega

/-- Two workers that have the same client count twice. -/
theorem Run.eq_of_client {s : Run} {c w w' : Nat} {pc pc' : WorkerPc} (hcount : s.count c ≤ 1)
    (hw : s.workers[w]? = some pc) (hw' : s.workers[w']? = some pc') (hc : pc.client = some c)
    (hc' : pc'.client = some c) : w = w' := by
  by_contra hne
  have hone := Run.count_setWorker hw .idle c
  have hset : (s.setWorker w .idle).workers[w']? = some pc' := by
    show (s.workers.set w .idle)[w']? = some pc'
    rw [List.getElem?_set_ne hne]
    exact hw'
  have htwo := Run.count_setWorker hset .idle c
  rw [if_pos hc] at hone
  rw [if_pos hc'] at htwo
  simp only [WorkerPc.client, reduceCtorEq, if_false] at hone htwo
  omega

/-- **The run state protocol**, with any number of workers, in every state of every interleaving: a client is out at most
once, not at all when it is `N`, so one worker at most has it; a client being deleted is not out and its socket is closed;
and from the end of a scan until a fifo is added to, a client with data is `Q` or `R`. -/
theorem run_state_protocol (nworkers : Nat) {s : Run}
    (hs : Steps.Reaches runStep Steps.Always (Run.new nworkers) s) :
    (∀ c, s.count c ≤ 1 ∧ ((s.objs c).runstate = .N → s.count c = 0) ∧
      ∀ (w w' : Nat) (pc pc' : WorkerPc), s.workers[w]? = some pc → s.workers[w']? = some pc' → pc.client = some c →
        pc'.client = some c → w = w') ∧
    (∀ c t, runStep s (.delete c) = some t → s.count c = 0 ∧ (s.objs c).ioClosed = true) ∧
    (s.quiet = true → ∀ c, (s.objs c).datafifo ≠ [] → (s.objs c).runstate = .Q ∨ (s.objs c).runstate = .R) := by
  have h : s.Inv := hs.invariant (Run.new_inv nworkers) (fun h _ hst => runStep_inv h hst)
  have hle := h.count_le_one
  have hzero : ∀ c, (s.objs c).runstate = .N → s.count c = 0 := by
    intro c hN
    have hcount := h.count c
    rw [if_pos hN] at hcount
    omega
  refine ⟨fun c => ⟨hle c, hzero c, fun w w' pc pc' hw hw' hc hc' => Run.eq_of_client (hle c) hw hw' hc hc'⟩,
    fun c t hd => ?_, fun hq c hne => ?_⟩
  · have hreactor : reactorStep s (.delete c) = some t := hd
    cases reactorStep_cases hreactor with
    | delete hpc =>
      obtain ⟨hN, hclosed⟩ := (h.pcOk_at hpc).2 c List.mem_cons_self
      exact ⟨hzero c hN, hclosed⟩
  · have hN := (h.quiet hq c).1 hne
    cases hr : (s.objs c).runstate with
    | N => exact absurd hr hN
    | Q => exact .inl rfl
    | R => exact .inr rfl

/-- Client 7 is read from, queued and worked on; released and closed, it is queued, cleared and reaped. -/
def sampleLife : List RunAct :=
  [.add 7, .handleInput 7 [1, 2], .startScan, .lockReactor, .updateForReactor, .pushRunq, .endScan 1, .loop,
    .pop 0, .setRunState 0, .checkCb 0, .copyFifo 0 none, .process 0, .lockWorker 0, .updateForWorker 0,
    .disableCb 7, .wantDelete 7 5, .attendClients, .handleClose 7, .startScan, .lockReactor, .updateForReactor, .pushRunq,
    .endScan 9, .destroyCycle, .getRunState, .rebuild, .loop,
    .pop 1, .setRunState 1, .checkCb 1, .lockWorker 1, .updateForWorker 1,
    .startScan, .lockReactor, .updateForReactor, .endScan 20, .destroyCycle, .getRunState, .rebuild]

theorem run_state_protocol_sample :
    ∃ s t, Steps.run runStep (Run.new 2) sampleLife = some s ∧ runStep s (.delete 7) = some t ∧ s.count 7 = 0 ∧
      (s.objs 7).ioClosed = true := by
  refine ⟨_, _, rfl, rfl, ?_⟩
  exact (run_state_protocol 2 (Steps.reaches_of_run sampleLife rfl)).2.1 7 _ rfl

end Exio
