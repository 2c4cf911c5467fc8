import Mathlib.Logic.Function.Basic
import Mathlib.Data.List.Basic
import Exio.Word
import Exio.Memory
import Exio.Steps
import Exio.ClientInput
import Exio.ReactorRun
/-!
# OrderlyClose — nothing is lost when the peer closes in order

A peer sends a stream and ends it with FIN.  The reactor polls the client's socket, reads a chunk of at most 1024 bytes when
it is readable, and closes the client when `poll` reports a hangup and the read did not fill the chunk, or when a read meets
the end of the stream (`Reactor::reactor_main_loop`, `Client::handle_input`).  `handle_close` puts the sentinel behind the
chunks; a worker copies the chunks into the read buffer, offers the buffer to the callback, and calls `process_close` if it
met the sentinel (`Client::do_work`).

The threads are those of `ReactorRun`, with any number of workers and other clients; here one client is followed with its
socket, the reactor's way through the events of its descriptor, its read buffer and the calls of its callback.  A byte is
named by its offset in the stream.  Left out are the ways a connection ends that are not the peer's: a send error or the
sentinel of the outbound queue (so `handle_output` returns `IO_default`), `release`, and a failing `grow`.
-/
namespace Exio

open Memory (slice)

/-! ## The state -/

/-- `EXIO_CLIENT_CHUNK_SIZE`. -/
def chunkSize : Nat := 1024

/-- What `poll` reports of the descriptor; `hup` is any of `POLLRDHUP`, `POLLERR`, `POLLHUP` and `POLLNVAL`. -/
structure Revents where
  pollin : Bool
  hup    : Bool
deriving DecidableEq

/-- The bits of `iost`. -/
structure IOState where
  readAgain : Bool
  close     : Bool
deriving DecidableEq

/-- How far the reactor is with the events of the descriptor: none to handle, before `handle_input`, before
`handle_output`, before the decision to close. -/
inductive Dispatch where
  | idle
  | polled (r : Revents)
  | input (r : Revents) (iost : IOState)
  | output (r : Revents) (iost : IOState)
deriving DecidableEq

/-- A call of the callback; `src` is what `process_input` is given, and `offset` where that stands in the stream. -/
inductive Callback where
  | processInput (offset : Nat) (src : Bytes)
  | processClose
deriving DecidableEq

/-- The threads, and of the client: how much of the stream can be read and whether the FIN has come, how much was read, the
reactor's dispatch, the read buffer, whether the loop over `process_input` goes on, how much the callback consumed, and its
calls. -/
structure Conn where
  run      : Run
  arrived  : Nat
  fin      : Bool
  received : Nat
  dispatch : Dispatch
  buf      : ReactorReadBuffer
  offering : Bool
  consumed : Nat
  calls    : List Callback

def Conn.new (nworkers : Nat) : Conn := ⟨.new nworkers, 0, false, 0, .idle, .new 4096, false, 0, []⟩

inductive ConnAct where
  /- the network -/
  | arrive (k : Nat)
  | fin
  /- the reactor thread -/
  | poll (hup : Bool)
  | handleInput
  | handleOutput
  | handleClose
  /- worker `w`; the callback consumes `n` bytes -/
  | copyFifo (w : Nat)
  | processInput (w n : Nat)
  | process (w : Nat)
  /-- Any other step of any thread. -/
  | other (a : RunAct)

/-- The steps of `ReactorRun` that are neither steps of our client with a name above, nor among what is left out; the scan
starts when the events have been handled. -/
def Elsewhere (c : Nat) (s : Conn) : RunAct → Prop
  | .handleInput c' _ | .handleClose c' | .disableCb c' | .wantDelete c' _ => c' ≠ c
  | .copyFifo w _ => s.run.workers[w]? ≠ some (.copy c)
  | .process w    => ∀ close, s.run.workers[w]? ≠ some (.busy c close)
  | .startScan    => s.dispatch = .idle
  | _             => True

instance (c : Nat) (s : Conn) : ∀ a, Decidable (Elsewhere c s a)
  | .handleInput c' _ | .handleClose c' | .disableCb c' | .wantDelete c' _ => inferInstanceAs (Decidable (c' ≠ c))
  | .copyFifo w _ => inferInstanceAs (Decidable (s.run.workers[w]? ≠ some (.copy c)))
  | .process w    => inferInstanceAs (Decidable (∀ close, s.run.workers[w]? ≠ some (.busy c close)))
  | .startScan    => inferInstanceAs (Decidable (s.dispatch = .idle))
  | .add _ | .attendClients | .lockReactor | .updateForReactor | .pushRunq | .endScan _ | .destroyCycle | .getRunState
  | .rebuild | .delete _ | .loop | .stop | .endWorkers | .pop _ | .setRunState _ | .checkCb _ | .clearFifo _
  | .lockWorker _ | .updateForWorker _ => isTrue trivial

/-- **One step**, for client `c` whose peer sends `stream`. -/
def connStep (stream : Bytes) (c : Nat) (s : Conn) : ConnAct → Option Conn
  | .arrive k => if s.arrived + k ≤ stream.length then some { s with arrived := s.arrived + k } else none
  | .fin      => if s.arrived = stream.length then some { s with fin := true } else none
  | .poll hup =>
    if s.run.pc = .io ∧ c ∈ s.run.clients ∧ (s.run.objs c).ioClosed = false ∧ s.dispatch = .idle ∧
        (hup = true → s.fin = true) then
      some { s with dispatch := .polled ⟨decide (s.received < s.arrived) || s.fin, hup⟩ }
    else none
  | .handleInput =>
    match s.dispatch with
    | .polled r =>
      if r.pollin = true ∧ (s.run.objs c).ioClosed = false then
        let n := min (s.arrived - s.received) chunkSize
        if n = 0 then
          -- the end of the stream; without it `read` would block
          if s.fin then some { s with dispatch := .input r ⟨false, true⟩ } else none
        else
          (runStep s.run (.handleInput c (slice stream s.received n))).map fun run =>
            { s with run := run, received := s.received + n, dispatch := .input r ⟨n == chunkSize, false⟩ }
      else some { s with dispatch := .input r ⟨false, false⟩ }
    | _ => none
  | .handleOutput =>
    match s.dispatch with
    | .input r iost => some { s with dispatch := .output r iost }
    | _ => none
  | .handleClose =>
    match s.dispatch with
    | .output r iost =>
      if (r.hup = true ∧ iost.readAgain = false) ∨ iost.close = true then
        (runStep s.run (.handleClose c)).map fun run => { s with run := run, dispatch := .idle }
      else some { s with dispatch := .idle }
    | _ => none
  | .copyFifo w =>
    if s.run.workers[w]? = some (.copy c) then
      (copyChunks s.buf (s.run.objs c).datafifo).bind fun r =>
        (runStep s.run (.copyFifo w none)).map fun run => { s with run := run, buf := r.1, offering := true }
    else none
  | .processInput w n =>
    match s.run.workers[w]? with
    | some (.busy c' _) =>
      if c' = c ∧ s.offering = true ∧ s.buf.bytesavail ≠ 0 ∧ n ≤ s.buf.bytesavail then
        if (s.run.objs c).cb then
          -- the size is an `int`
          let size := Word.toInt 32 s.buf.bytesavail
          let calls := s.calls ++ [.processInput s.consumed (slice s.buf.buf s.buf.rp size.toNat)]
          if 0 < n then some { s with calls := calls, buf := s.buf.consume n, consumed := s.consumed + n }
          else some { s with calls := calls, offering := false }
        else some { s with offering := false }
      else none
    | _ => none
  | .process w =>
    match s.run.workers[w]? with
    | some (.busy c' close) =>
      if c' = c ∧ (s.offering = true → s.buf.bytesavail = 0) then
        (runStep s.run (.process w)).map fun run =>
          let calls := if close = true ∧ (s.run.objs c).cb = true then s.calls ++ [.processClose] else s.calls
          { s with run := run, buf := s.buf.shiftPendingToArrayStart, offering := false, calls := calls }
      else none
    | _ => none
  | .other a => if Elsewhere c s a then (runStep s.run a).map fun run => { s with run := run } else none

/-! ## What the other steps leave of the client -/

/-- Nobody wants to delete the client. -/
structure Run.Kept (c : Nat) (s : Run) : Prop where
  attn       : (s.objs c).attn = false
  destroying : c ∉ s.destroying
  pc         : match s.pc with
    | .destroy _ todo deletenow  => c ∉ todo ∧ c ∉ deletenow
    | .check _ c' todo deletenow => c' ≠ c ∧ c ∉ todo ∧ c ∉ deletenow
    | .reap deletenow            => c ∉ deletenow
    | _                          => True

/-- A place a worker comes to without touching the client's data. -/
def WorkerPc.Calm (c : Nat) (o : RunClient) : WorkerPc → Prop
  | .copy c'               => c' = c → o.cb = true
  | .busy c' _ | .clear c' => c' ≠ c
  | _                      => True

/-- **What is the same of the client** after a step elsewhere. -/
structure Run.Same (c : Nat) (s t : Run) : Prop where
  datafifo : (t.objs c).datafifo = (s.objs c).datafifo
  ioClosed : (t.objs c).ioClosed = (s.objs c).ioClosed
  cb       : (t.objs c).cb = (s.objs c).cb
  attn     : (t.objs c).attn = (s.objs c).attn
  calm     : ∀ pc ∈ t.workers, pc ∈ s.workers ∨ pc.Calm c (s.objs c)
  busy     : ∀ close, .busy c close ∈ s.workers → .busy c close ∈ t.workers

theorem Run.Same.of_eq {c : Nat} {s t : Run} (hobj : t.objs c = s.objs c) (hw : t.workers = s.workers) : s.Same c t :=
  ⟨by rw [hobj], by rw [hobj], by rw [hobj], by rw [hobj], fun pc hpc => .inl (hw ▸ hpc), fun _ hb => hw ▸ hb⟩

/-- A step that only changes another client's object. -/
theorem Run.Kept.setObj_of_ne {c c' : Nat} {s : Run} (hkept : s.Kept c) (hne : c' ≠ c) (o : RunClient) (quiet : Bool) :
    s.Same c { s.setObj c' o with quiet := quiet } ∧ Run.Kept c { s.setObj c' o with quiet := quiet } := by
  have hobj := s.objs_setObj_of_ne hne o
  exact ⟨.of_eq hobj rfl, ⟨(congrArg RunClient.attn hobj).trans hkept.attn, hkept.destroying, hkept.pc⟩⟩

/-- **A reactor step elsewhere.** -/
theorem reactorStep_same {c : Nat} {s : Conn} {t : Run} (hkept : s.run.Kept c) {a : RunAct} (helse : Elsewhere c s a)
    (hs : reactorStep s.run a = some t) : s.run.Same c t ∧ t.Kept c := by
  have hplace := hkept.pc
  cases reactorStep_cases hs with
  | handleInput _ _ => exact hkept.setObj_of_ne helse _ _
  | handleClose _ _ => exact hkept.setObj_of_ne helse _ _
  | add _ | endWorkers _ => exact ⟨.of_eq rfl rfl, ⟨hkept.attn, hkept.destroying, hkept.pc⟩⟩
  | attendClients _ =>
    refine ⟨.of_eq rfl rfl, ⟨hkept.attn, fun hmem => ?_, hkept.pc⟩⟩
    rcases mem_foldl_insert _ _ hmem with hmem | hmem
    · exact hkept.destroying hmem
    · have hattn := (List.mem_filter.1 hmem).2
      rw [hkept.attn] at hattn
      cases hattn
  | startScan _ | lockReactor _ _ | skip _ _ | pushRunq _ | loop _ | stop _ =>
    exact ⟨.of_eq rfl rfl, ⟨hkept.attn, hkept.destroying, trivial⟩⟩
  | @queue c' work todo _ _ =>
    have hobj := fun {α} (f : RunClient → α) hf =>
      Run.objs_setObj_congr f (s := s.run) (c := c') (o := { s.run.objs c' with runstate := .Q }) hf c
    exact ⟨⟨hobj RunClient.datafifo rfl, hobj RunClient.ioClosed rfl, hobj RunClient.cb rfl, hobj RunClient.attn rfl,
        fun _ hw => .inl hw, fun _ hb => hb⟩,
      ⟨(hobj RunClient.attn rfl).trans hkept.attn, hkept.destroying, trivial⟩⟩
  | startCleanup _ => exact ⟨.of_eq rfl rfl, ⟨hkept.attn, hkept.destroying, hkept.destroying, List.not_mem_nil⟩⟩
  | noCleanup _ => exact ⟨.of_eq rfl rfl, ⟨hkept.attn, hkept.destroying, List.not_mem_nil⟩⟩
  | @destroyOpen now c' todo deletenow hpc _ =>
    rw [hpc] at hplace
    obtain ⟨htodo, hdel⟩ := hplace
    have hne : c' ≠ c := fun heq => htodo (heq ▸ List.mem_cons_self)
    have hobj := s.run.objs_setObj_of_ne hne { (s.run.objs c').handleClose with tdestroy := now }
    exact ⟨.of_eq hobj rfl, ⟨(congrArg RunClient.attn hobj).trans hkept.attn, hkept.destroying,
      fun hm => htodo (List.mem_cons_of_mem _ hm), hdel⟩⟩
  | @destroyClosed now c' todo deletenow hpc _ =>
    rw [hpc] at hplace
    obtain ⟨htodo, hdel⟩ := hplace
    have hne : c' ≠ c := fun heq => htodo (heq ▸ List.mem_cons_self)
    have hobj := s.run.objs_setObj_of_ne hne { s.run.objs c' with tdestroy := now }
    exact ⟨.of_eq hobj rfl, ⟨(congrArg RunClient.attn hobj).trans hkept.attn, hkept.destroying, hne,
      fun hm => htodo (List.mem_cons_of_mem _ hm), hdel⟩⟩
  | destroyLater hpc =>
    rw [hpc] at hplace
    obtain ⟨htodo, hdel⟩ := hplace
    exact ⟨.of_eq rfl rfl, ⟨hkept.attn, hkept.destroying, fun hm => htodo (List.mem_cons_of_mem _ hm), hdel⟩⟩
  | getRunState hpc =>
    rw [hpc] at hplace
    obtain ⟨hne, htodo, hdel⟩ := hplace
    refine ⟨.of_eq rfl rfl, ⟨hkept.attn, hkept.destroying, htodo, ?_⟩⟩
    split
    · rw [List.mem_insert_iff]
      exact fun hor => hor.elim (fun heq => hne heq.symm) hdel
    · exact hdel
  | rebuild hpc =>
    rw [hpc] at hplace
    exact ⟨.of_eq rfl rfl, ⟨hkept.attn, hkept.destroying, hplace.2⟩⟩
  | @delete c' deletenow hpc =>
    rw [hpc] at hplace
    have hne : c' ≠ c := fun heq => hplace (heq ▸ List.mem_cons_self)
    have hobj := s.run.objs_setObj_of_ne hne .new
    refine ⟨.of_eq hobj rfl, ⟨(congrArg RunClient.attn hobj).trans hkept.attn, ?_, ?_⟩⟩
    · exact fun hm => hkept.destroying (List.mem_of_mem_filter hm)
    · exact fun hm => hplace (List.mem_cons_of_mem _ hm)

/-- A worker goes to a calm place. -/
theorem Run.Kept.moved {c w : Nat} {s t : Run} {pc pc' : WorkerPc} (hkept : s.Kept c) (hw : s.workers[w]? = some pc)
    (hbusy : ∀ close, pc ≠ .busy c close) (ht : t.workers = s.workers.set w pc') (hcalm : pc'.Calm c (s.objs c))
    (hpc : t.pc = s.pc) (hdes : t.destroying = s.destroying) (hfifo : (t.objs c).datafifo = (s.objs c).datafifo)
    (hclosed : (t.objs c).ioClosed = (s.objs c).ioClosed) (hcb : (t.objs c).cb = (s.objs c).cb)
    (hattn : (t.objs c).attn = (s.objs c).attn) : s.Same c t ∧ t.Kept c := by
  refine ⟨⟨hfifo, hclosed, hcb, hattn, fun pc₀ hpc₀ => ?_, fun close hb => ?_⟩,
    ⟨hattn.trans hkept.attn, hdes ▸ hkept.destroying, hpc ▸ hkept.pc⟩⟩
  · rw [ht] at hpc₀
    rcases List.mem_or_eq_of_mem_set hpc₀ with hmem | rfl
    · exact .inl hmem
    · exact .inr hcalm
  · obtain ⟨w', hw'⟩ := List.mem_iff_getElem?.1 hb
    have hne : w ≠ w' := by
      rintro rfl
      rw [hw] at hw'
      exact hbusy close (Option.some.inj hw')
    rw [ht]
    refine List.mem_iff_getElem?.2 ⟨w', ?_⟩
    rw [List.getElem?_set_ne hne]
    exact hw'

/-- **A worker step elsewhere.** -/
theorem workerStep_same {c w : Nat} {s : Conn} {t : Run} {pc : WorkerPc} {a : RunAct} (hkept : s.run.Kept c)
    (hdead : (s.run.objs c).cb = false → (s.run.objs c).datafifo = [])
    (hclear : .clear c ∈ s.run.workers → (s.run.objs c).cb = false) (hw : s.run.workers[w]? = some pc)
    (ha : a.worker = some w) (helse : Elsewhere c s a) (hs : workerStep s.run w pc a = some t) :
    s.run.Same c t ∧ t.Kept c := by
  have hmem := List.mem_of_getElem? hw
  -- where the client is another one than ours, nothing of ours changes
  have hfield : ∀ {c' : Nat} {o : RunClient} {α : Type} (f : RunClient → α), (c' = c → f o = f (s.run.objs c)) →
      f ((s.run.setObj c' o).objs c) = f (s.run.objs c) := by
    intro c' o α f hf
    by_cases hcc : c' = c
    · subst hcc
      rw [Run.objs_setObj_self]
      exact hf rfl
    · rw [Run.objs_setObj_of_ne hcc]
  unfold workerStep at hs
  split at hs
  · split at hs
    · cases hs
    · cases hs
      exact hkept.moved hw (fun _ h => by cases h) rfl trivial rfl rfl rfl rfl rfl rfl
    · cases hs
      exact hkept.moved hw (fun _ h => by cases h) rfl trivial rfl rfl rfl rfl rfl rfl
  · split at hs
    · cases hs
    · cases hs
      refine hkept.moved hw (fun _ h => by cases h) rfl trivial rfl rfl ?_ ?_ ?_ ?_ <;>
        exact hfield _ (fun hcc => by rw [hcc])
  · rename_i c' _
    split at hs
    · rename_i hcb
      cases hs
      exact hkept.moved hw (fun _ h => by cases h) rfl (fun hcc => hcc ▸ hcb) rfl rfl rfl rfl rfl rfl
    · rename_i hcb
      cases hs
      have hnil : c' = c → (s.run.objs c).datafifo = [] := fun hcc => hdead (by rw [← hcc]; simpa using hcb)
      refine hkept.moved hw (fun _ h => by cases h) rfl trivial rfl rfl (hfield RunClient.datafifo ?_)
        (hfield RunClient.ioClosed ?_) (hfield RunClient.cb ?_) (hfield RunClient.attn ?_)
      · exact fun hcc => (hnil hcc).symm
      all_goals exact fun hcc => by rw [hcc]
  · rename_i c' w'
    cases ha
    have hne : c' ≠ c := fun hcc => helse (hcc ▸ hw)
    cases hs
    refine hkept.moved hw (fun _ h => by cases h) rfl hne rfl rfl ?_ ?_ ?_ ?_ <;>
      exact hfield _ (fun hcc => absurd hcc hne)
  · rename_i c' w' k
    cases ha
    have hne : c' ≠ c := fun hcc => helse (hcc ▸ hw)
    split at hs
    · cases hs
      refine hkept.moved hw (fun _ h => by cases h) rfl trivial rfl rfl ?_ ?_ ?_ ?_ <;>
        exact hfield _ (fun hcc => absurd hcc hne)
    · cases hs
  · rename_i c' w'
    cases ha
    have hne : c' ≠ c := fun hcc => helse true (hcc ▸ hw)
    cases hs
    refine hkept.moved hw (fun _ h => by cases h; exact hne rfl) rfl hne rfl rfl ?_ ?_ ?_ ?_ <;>
      exact hfield _ (fun hcc => absurd hcc hne)
  · rename_i c' w'
    cases ha
    have hne : c' ≠ c := fun hcc => helse false (hcc ▸ hw)
    cases hs
    exact hkept.moved hw (fun _ h => by cases h; exact hne rfl) rfl trivial rfl rfl rfl rfl rfl rfl
  · rename_i c' w'
    cases hs
    have hnil : c' = c → (s.run.objs c).datafifo = [] := fun hcc => hdead (hclear (hcc ▸ hmem))
    refine hkept.moved hw (fun _ h => by cases h) rfl trivial rfl rfl (hfield RunClient.datafifo ?_)
      (hfield RunClient.ioClosed ?_) (hfield RunClient.cb ?_) (hfield RunClient.attn ?_)
    · exact fun hcc => (hnil hcc).symm
    all_goals exact fun hcc => by rw [hcc]
  · split at hs
    · cases hs
    · cases hs
      exact hkept.moved hw (fun _ h => by cases h) rfl trivial rfl rfl rfl rfl rfl rfl
  · rename_i c' work w'
    cases hs
    have hcalm : ∀ r : RunState, (if r = .R then WorkerPc.work c' else .idle).Calm c (s.run.objs c) := by
      intro r
      split <;> trivial
    refine hkept.moved hw (fun _ h => by cases h) rfl (hcalm _) rfl rfl ?_ ?_ ?_ ?_
    all_goals
      refine hfield _ (fun hcc => ?_)
      split <;> rw [hcc]
  · cases hs

/-- **A step elsewhere** leaves the client's data as it is. -/
theorem runStep_same {c : Nat} {s : Conn} {t : Run} {a : RunAct} (hkept : s.run.Kept c)
    (hdead : (s.run.objs c).cb = false → (s.run.objs c).datafifo = [])
    (hclear : .clear c ∈ s.run.workers → (s.run.objs c).cb = false) (helse : Elsewhere c s a)
    (hs : runStep s.run a = some t) : s.run.Same c t ∧ t.Kept c := by
  unfold runStep at hs
  split at hs
  · rename_i w hworker
    obtain ⟨pc, hw, hs⟩ := Option.bind_eq_some_iff.1 hs
    exact workerStep_same hkept hdead hclear hw hworker helse hs
  · cases hs
    exact hkept.setObj_of_ne helse _ _
  · cases hs
    exact hkept.setObj_of_ne helse _ _
  · exact reactorStep_same hkept helse hs

/-! ## The invariant -/

/-- What a worker at the client's data knows of it. -/
def WorkerPc.Knows (c : Nat) (o : RunClient) : WorkerPc → Prop
  | .copy c'       => c' = c → o.cb = true
  | .busy c' close => c' = c → o.cb = true ∧ (close = true → o.ioClosed = true ∧ o.datafifo = [])
  | .clear c'      => c' = c → o.cb = false
  | _              => True

/-- What the reactor knows of the stream where it is: a hangup was reported when all of it could be read, and where it is
about to close an open client, all of it was read. -/
def Dispatch.Knows (stream : Bytes) (s : Conn) (ioClosed : Bool) : Dispatch → Prop
  | .idle => True
  | .polled r => r.hup = true → s.fin = true ∧ r.pollin = true
  | .input r iost | .output r iost =>
    ioClosed = false → (r.hup = true ∧ iost.readAgain = false) ∨ iost.close = true → s.received = stream.length

/-- **Where every byte of the stream is**: consumed, in the read buffer, in the fifo, or still to be read; the sentinel
follows the last one. -/
structure Conn.Inv (stream : Bytes) (c : Nat) (s : Conn) : Prop where
  run      : s.run.Inv
  kept     : s.run.Kept c
  buf      : s.buf.Inv
  start    : s.buf.rp = 0 ∨ ∃ close, .busy c close ∈ s.run.workers
  arrived  : s.consumed ≤ s.received ∧ s.received ≤ s.arrived ∧ s.arrived ≤ stream.length
  fin      : s.fin = true → s.arrived = stream.length
  bytes    : s.buf.pending ++ (s.run.objs c).datafifo.flatten = slice stream s.consumed (s.received - s.consumed)
  dispatch : s.dispatch.Knows stream s (s.run.objs c).ioClosed
  opened   : (s.run.objs c).ioClosed = false → [] ∉ (s.run.objs c).datafifo
  closed   : (s.run.objs c).ioClosed = true → s.received = stream.length
  sentinel : (s.run.objs c).ioClosed = true → (s.run.objs c).datafifo ≠ [] →
    ∃ data, [] ∉ data ∧ (s.run.objs c).datafifo = data ++ [[]]
  live     : (s.run.objs c).cb = true → .processClose ∉ s.calls
  dead     : (s.run.objs c).cb = false → (s.run.objs c).ioClosed = true ∧ (s.run.objs c).datafifo = [] ∧
    ∃ pre, .processClose ∉ pre ∧ s.calls = pre ++ [.processClose]
  workers  : ∀ pc ∈ s.run.workers, pc.Knows c (s.run.objs c)

theorem Conn.new_inv (stream : Bytes) (c nworkers : Nat) : (Conn.new nworkers).Inv stream c where
  run := Run.new_inv nworkers
  kept := ⟨rfl, List.not_mem_nil, trivial⟩
  buf := ReactorReadBuffer.new_inv (by decide)
  start := .inl rfl
  arrived := ⟨Nat.le_refl _, Nat.le_refl _, Nat.zero_le _⟩
  fin h := by cases h
  bytes := by
    have hp : (ReactorReadBuffer.new 4096).pending = [] := ReactorReadBuffer.new_pending 4096
    simp only [Conn.new, hp]
    rfl
  dispatch := trivial
  opened _ := List.not_mem_nil
  closed h := by cases h
  sentinel h := by cases h
  live _ := List.not_mem_nil
  dead h := by cases h
  workers pc hpc := by
    rw [List.eq_of_mem_replicate hpc]
    trivial

/-- Where the client has not been closed, `process_close` is yet to come. -/
theorem Conn.Inv.cb_of_open {stream : Bytes} {c : Nat} {s : Conn} (h : s.Inv stream c)
    (hopen : (s.run.objs c).ioClosed = false) : (s.run.objs c).cb = true := by
  cases hcb : (s.run.objs c).cb with
  | true => rfl
  | false =>
    have hclosed := (h.dead hcb).1
    rw [hopen] at hclosed
    cases hclosed

theorem Conn.Inv.length_bytes {stream : Bytes} {c : Nat} {s : Conn} (h : s.Inv stream c) :
    s.buf.bytesavail + (s.run.objs c).datafifo.flatten.length = s.received - s.consumed := by
  obtain ⟨h1, h2, h3⟩ := h.arrived
  have hlen := congrArg List.length h.bytes
  rw [List.length_append, ReactorReadBuffer.length_pending h.buf, Memory.length_slice (by omega)] at hlen
  exact hlen

/-- Once the fifo of a closed client is empty, the rest of the stream is in the buffer. -/
theorem Conn.Inv.length_rest {stream : Bytes} {c : Nat} {s : Conn} (h : s.Inv stream c)
    (hclosed : (s.run.objs c).ioClosed = true) (hnil : (s.run.objs c).datafifo = []) :
    s.consumed + s.buf.bytesavail = stream.length := by
  have hlen := h.length_bytes
  have hle := h.arrived.1
  rw [hnil, h.closed hclosed] at hlen
  rw [h.closed hclosed] at hle
  simp only [List.flatten_nil, List.length_nil] at hlen
  omega

/-- A call of `process_input` is none of `process_close`. -/
theorem Conn.Inv.live_append {stream : Bytes} {c : Nat} {s : Conn} (h : s.Inv stream c) (hcb : (s.run.objs c).cb = true)
    (offset : Nat) (src : Bytes) : .processClose ∉ s.calls ++ [.processInput offset src] := by
  intro hm
  rcases List.mem_append.1 hm with hm | hm
  · exact h.live hcb hm
  · cases List.mem_singleton.1 hm

theorem Dispatch.Knows.mono {stream : Bytes} {s t : Conn} {ioClosed : Bool} {d : Dispatch} (h : d.Knows stream s ioClosed)
    (hfin : s.fin = true → t.fin = true) (hreceived : t.received = s.received) : d.Knows stream t ioClosed := by
  cases d with
  | idle => trivial
  | polled r => exact fun hhup => ⟨hfin (h hhup).1, (h hhup).2⟩
  | input r iost | output r iost => exact fun hopen hclose => hreceived.trans (h hopen hclose)

theorem WorkerPc.Knows.mono {c : Nat} {o o' : RunClient} {pc : WorkerPc} (h : pc.Knows c o) (hcb : o'.cb = o.cb)
    (hclosed : o.ioClosed = true → o.datafifo = [] → o'.ioClosed = true ∧ o'.datafifo = []) : pc.Knows c o' := by
  cases pc with
  | copy c' => exact fun hcc => hcb.trans (h hcc)
  | busy c' close =>
    exact fun hcc => ⟨hcb.trans (h hcc).1, fun hclose => hclosed ((h hcc).2 hclose).1 ((h hcc).2 hclose).2⟩
  | clear c' => exact fun hcc => hcb.trans (h hcc)
  | idle | popped _ | work _ | worked _ | update _ _ | exited => trivial

/-! ### The network and the reactor -/

theorem Conn.Inv.arrive {stream : Bytes} {c : Nat} {s t : Conn} (h : s.Inv stream c) {k : Nat}
    (hs : connStep stream c s (.arrive k) = some t) : t.Inv stream c := by
  simp only [connStep] at hs
  split at hs
  · rename_i hle
    cases hs
    obtain ⟨h1, h2, h3⟩ := h.arrived
    refine { h with arrived := ⟨h1, Nat.le_add_right_of_le h2, hle⟩, fin := fun hfin => ?_, dispatch := ?_ }
    · have heq := h.fin hfin
      simp only at hfin ⊢
      omega
    · exact h.dispatch.mono id rfl
  · cases hs

theorem Conn.Inv.finish {stream : Bytes} {c : Nat} {s t : Conn} (h : s.Inv stream c)
    (hs : connStep stream c s .fin = some t) : t.Inv stream c := by
  simp only [connStep] at hs
  split at hs
  · rename_i heq
    cases hs
    exact { h with fin := fun _ => heq, dispatch := h.dispatch.mono (fun _ => rfl) rfl }
  · cases hs

theorem Conn.Inv.poll {stream : Bytes} {c : Nat} {s t : Conn} (h : s.Inv stream c) {hup : Bool}
    (hs : connStep stream c s (.poll hup) = some t) : t.Inv stream c := by
  simp only [connStep] at hs
  split at hs
  · rename_i hg
    cases hs
    refine { h with dispatch := fun hhup => ?_ }
    have hfin := hg.2.2.2.2 hhup
    exact ⟨hfin, by simp only [hfin, Bool.or_true]⟩
  · cases hs

/-- **A chunk goes from the socket to the fifo.** -/
theorem slice_received {stream : Bytes} {a r n : Nat} (har : a ≤ r) :
    slice stream a (r + n - a) = slice stream a (r - a) ++ slice stream r n := by
  have hsplit : r + n - a = (r - a) + n := by omega
  have hdrop : stream.drop r = (stream.drop a).drop (r - a) := by rw [List.drop_drop, Nat.add_sub_cancel' har]
  rw [slice, slice, slice, hsplit, List.take_add, hdrop]

theorem Conn.Inv.handleInput {stream : Bytes} {c : Nat} {s t : Conn} (h : s.Inv stream c)
    (hs : connStep stream c s .handleInput = some t) : t.Inv stream c := by
  obtain ⟨h1, h2, h3⟩ := h.arrived
  have hknows := h.dispatch
  simp only [connStep] at hs
  split at hs
  · rename_i r hd
    rw [hd] at hknows
    split at hs
    · rename_i hg
      split at hs
      · rename_i hn
        split at hs
        · rename_i hfin
          cases hs
          -- the end of the stream: everything that arrived was read
          refine { h with dispatch := fun _ _ => ?_ }
          have harr := h.fin hfin
          have hzero : s.arrived - s.received = 0 := by
            unfold chunkSize at hn
            omega
          show s.received = stream.length
          omega
        · cases hs
      · rename_i hn
        obtain ⟨run, hrun, rfl⟩ := Option.map_eq_some_iff.1 hs
        have hrun' := runStep_inv h.run hrun
        simp only [runStep, RunAct.worker, reactorStep] at hrun
        split at hrun
        · cases hrun
          generalize hmin : min (s.arrived - s.received) chunkSize = n at *
          have hle : n ≤ s.arrived - s.received := hmin ▸ Nat.min_le_left _ _
          have hchunk : slice stream s.received n ≠ [] := by
            intro hnil
            have hlen : (slice stream s.received n).length = n := Memory.length_slice (by omega)
            rw [hnil] at hlen
            exact hn hlen.symm
          have hobj : (s.run.setObj c { s.run.objs c with
              datafifo := (s.run.objs c).datafifo ++ [slice stream s.received n] }).objs c =
                { s.run.objs c with datafifo := (s.run.objs c).datafifo ++ [slice stream s.received n] } :=
            Run.objs_setObj_self ..
          refine ⟨hrun', ⟨?_, h.kept.destroying, h.kept.pc⟩, h.buf, h.start, ⟨?_, ?_, h3⟩, h.fin, ?_, ?_, ?_, ?_, ?_, ?_,
            ?_, ?_⟩ <;> simp only [hobj]
          · exact h.kept.attn
          · omega
          · omega
          · rw [List.flatten_append, ← List.append_assoc, h.bytes, slice_received h1]
            simp
          · -- a chunk that is not full was the rest of what arrived
            rintro - (⟨hhup, hfull⟩ | hclose)
            · have harr := h.fin (hknows hhup).1
              simp only [beq_eq_false_iff_ne] at hfull
              show s.received + n = stream.length
              omega
            · cases hclose
          · rintro - hmem
            rcases List.mem_append.1 hmem with hmem | hmem
            · exact h.opened hg.2 hmem
            · exact hchunk (List.mem_singleton.1 hmem).symm
          · exact fun hclosed => absurd (hg.2.symm.trans hclosed) Bool.false_ne_true
          · exact fun hclosed => absurd (hg.2.symm.trans hclosed) Bool.false_ne_true
          · exact h.live
          · exact fun hcb => absurd (hcb.symm.trans (h.cb_of_open hg.2)) Bool.false_ne_true
          · exact fun pc hpc => (h.workers pc hpc).mono rfl
              (fun hclosed => absurd (hg.2.symm.trans hclosed) Bool.false_ne_true)
        · cases hrun
    · rename_i hg
      cases hs
      -- a hangup is never reported without `POLLIN`
      refine { h with dispatch := fun hopen hclose => ?_ }
      rcases hclose with ⟨hhup, -⟩ | hclose
      · exact absurd ⟨(hknows hhup).2, hopen⟩ hg
      · cases hclose
  · cases hs

theorem Conn.Inv.handleOutput {stream : Bytes} {c : Nat} {s t : Conn} (h : s.Inv stream c)
    (hs : connStep stream c s .handleOutput = some t) : t.Inv stream c := by
  have hknows := h.dispatch
  simp only [connStep] at hs
  split at hs
  · rename_i r iost hd
    rw [hd] at hknows
    cases hs
    exact { h with dispatch := hknows }
  · cases hs

/-- **The sentinel comes behind the last byte.** -/
theorem Conn.Inv.handleClose {stream : Bytes} {c : Nat} {s t : Conn} (h : s.Inv stream c)
    (hs : connStep stream c s .handleClose = some t) : t.Inv stream c := by
  have hknows := h.dispatch
  simp only [connStep] at hs
  split at hs
  · rename_i r iost hd
    rw [hd] at hknows
    split at hs
    · rename_i hclose
      obtain ⟨run, hrun, rfl⟩ := Option.map_eq_some_iff.1 hs
      have hrun' := runStep_inv h.run hrun
      simp only [runStep, RunAct.worker, reactorStep] at hrun
      split at hrun
      · cases hrun
        have hobj := s.run.objs_setObj_self c (s.run.objs c).handleClose
        rcases Bool.eq_false_or_eq_true (s.run.objs c).ioClosed with hio | hio
        · rw [RunClient.handleClose_of_closed hio] at hobj
          refine ⟨hrun', ⟨?_, h.kept.destroying, h.kept.pc⟩, h.buf, h.start, h.arrived, h.fin, ?_, trivial, ?_, ?_, ?_, ?_,
            ?_, ?_⟩ <;> simp only [RunClient.handleClose_of_closed hio, hobj]
          · exact h.kept.attn
          · exact h.bytes
          · exact h.opened
          · exact h.closed
          · exact h.sentinel
          · exact h.live
          · exact h.dead
          · exact h.workers
        · have hcb := h.cb_of_open hio
          have hopen : (s.run.objs c).handleClose =
              { s.run.objs c with ioClosed := true, datafifo := (s.run.objs c).datafifo ++ [[]] } := by
            rw [RunClient.handleClose, if_pos hio]
          rw [hopen] at hobj
          refine ⟨hrun', ⟨?_, h.kept.destroying, h.kept.pc⟩, h.buf, h.start, h.arrived, h.fin, ?_, trivial, ?_, ?_, ?_, ?_,
            ?_, ?_⟩ <;> simp only [hopen, hobj]
          · exact h.kept.attn
          · rw [List.flatten_append, ← List.append_assoc, h.bytes]
            simp
          · exact fun hfalse => by cases hfalse
          · exact fun _ => hknows hio hclose
          · exact fun _ _ => ⟨(s.run.objs c).datafifo, h.opened hio, rfl⟩
          · exact h.live
          · exact fun hdead => absurd (hdead.symm.trans hcb) Bool.false_ne_true
          · exact fun pc hpc => (h.workers pc hpc).mono rfl
              (fun hclosed => absurd (hio.symm.trans hclosed) Bool.false_ne_true)
      · cases hrun
    · cases hs
      exact { h with dispatch := trivial }
  · cases hs

/-! ### The workers -/

/-- **The copy loop empties the fifo**, and meets the sentinel just if the client was closed and had data. -/
theorem restChunks_data : ∀ (data : List Bytes), [] ∉ data → restChunks data = ([], false)
  | [], _ => rfl
  | [] :: _, h => absurd List.mem_cons_self h
  | (_ :: _) :: data, h => restChunks_data data (fun hm => h (List.mem_cons_of_mem _ hm))

theorem restChunks_sentinel : ∀ (data : List Bytes), [] ∉ data → restChunks (data ++ [[]]) = ([], true)
  | [], _ => rfl
  | [] :: _, h => absurd List.mem_cons_self h
  | (_ :: _) :: data, h => restChunks_sentinel data (fun hm => h (List.mem_cons_of_mem _ hm))

theorem Conn.Inv.restChunks {stream : Bytes} {c : Nat} {s : Conn} (h : s.Inv stream c) :
    (restChunks (s.run.objs c).datafifo).1 = [] ∧
      ((Exio.restChunks (s.run.objs c).datafifo).2 = true → (s.run.objs c).ioClosed = true) := by
  cases hio : (s.run.objs c).ioClosed with
  | false =>
    rw [restChunks_data _ (h.opened hio)]
    exact ⟨rfl, fun hfalse => hfalse⟩
  | true =>
    refine ⟨?_, fun _ => rfl⟩
    by_cases hnil : (s.run.objs c).datafifo = []
    · rw [hnil]
      rfl
    · obtain ⟨data, hdata, heq⟩ := h.sentinel hio hnil
      rw [heq, restChunks_sentinel data hdata]

/-- One worker at most has the client. -/
theorem Conn.Inv.only {stream : Bytes} {c : Nat} {s : Conn} (h : s.Inv stream c) {w : Nat} {pc pc' : WorkerPc}
    (hw : s.run.workers[w]? = some pc) (hc : pc.client = some c) (hmem : pc' ∈ s.run.workers) (hc' : pc'.client = some c) :
    s.run.workers[w]? = some pc' := by
  obtain ⟨w', hw'⟩ := List.mem_iff_getElem?.1 hmem
  rw [Run.eq_of_client (h.run.count_le_one c) hw hw' hc hc']
  exact hw'

/-- Where a worker is about to copy, no other one is in the middle of its loop, and so the buffer starts at 0. -/
theorem Conn.Inv.rp_of_copy {stream : Bytes} {c : Nat} {s : Conn} (h : s.Inv stream c) {w : Nat}
    (hw : s.run.workers[w]? = some (.copy c)) : s.buf.rp = 0 := by
  rcases h.start with hrp | ⟨close, hbusy⟩
  · exact hrp
  · have hw' := h.only hw rfl hbusy rfl
    rw [hw] at hw'
    cases hw'

/-- A worker of the client moves, and so the others are not at the client. -/
theorem Conn.Inv.workers_set {stream : Bytes} {c : Nat} {s : Conn} (h : s.Inv stream c) {w : Nat} {pc pc' : WorkerPc}
    {o : RunClient} (hw : s.run.workers[w]? = some pc) (hc : pc.client = some c) (hknows : pc'.Knows c o) :
    ∀ pc₀ ∈ s.run.workers.set w pc', pc₀.Knows c o := by
  intro pc₀ hpc₀
  obtain ⟨w', hw'⟩ := List.mem_iff_getElem?.1 hpc₀
  by_cases hww : w = w'
  · subst hww
    rw [List.getElem?_set_self (List.getElem?_eq_some_iff.1 hw).1] at hw'
    cases hw'
    exact hknows
  · rw [List.getElem?_set_ne hww] at hw'
    have hother : pc₀.client ≠ some c := fun hc' => hww (Run.eq_of_client (h.run.count_le_one c) hw hw' hc hc')
    cases pc₀ with
    | copy c' | busy c' _ | clear c' => exact fun hcc => absurd (congrArg some hcc) hother
    | idle | popped _ | work _ | worked _ | update _ _ | exited => trivial

theorem Conn.Inv.copyFifo {stream : Bytes} {c : Nat} {s t : Conn} (h : s.Inv stream c) {w : Nat}
    (hs : connStep stream c s (.copyFifo w) = some t) : t.Inv stream c := by
  simp only [connStep] at hs
  split at hs
  · rename_i hw
    obtain ⟨r, hcopy, hs⟩ := Option.bind_eq_some_iff.1 hs
    obtain ⟨run, hrun, rfl⟩ := Option.map_eq_some_iff.1 hs
    have hrun' := runStep_inv h.run hrun
    simp only [runStep, RunAct.worker, hw, Option.bind_some, workerStep, Option.some.injEq] at hrun
    subst hrun
    have hrp := h.rp_of_copy hw
    obtain ⟨hinv, hrp', hbytes⟩ := copyChunks_of_some _ h.buf hrp hcopy
    have hrest : r.2 = Exio.restChunks (s.run.objs c).datafifo := copyChunks_rest _ _ hcopy
    obtain ⟨hnil, hclosed⟩ := h.restChunks
    have hcb : (s.run.objs c).cb = true := h.workers _ (List.mem_of_getElem? hw) rfl
    rw [hrest, hnil, h.bytes] at hbytes
    have hobj := s.run.objs_setObj_self c { s.run.objs c with datafifo := [] }
    rw [hnil] at hrun' ⊢
    refine ⟨hrun', ⟨?_, h.kept.destroying, h.kept.pc⟩, hinv, .inl hrp', h.arrived, h.fin, ?_, ?_, ?_, ?_, ?_, ?_, ?_, ?_⟩ <;>
      simp only [Run.setWorker, hobj]
    · exact h.kept.attn
    · exact hbytes
    · exact h.dispatch.mono id rfl
    · exact fun _ => List.not_mem_nil
    · exact h.closed
    · exact fun _ hne => absurd rfl hne
    · exact h.live
    · exact fun hdead => absurd (hdead.symm.trans hcb) Bool.false_ne_true
    · exact h.workers_set hw rfl (fun _ => ⟨hcb, fun hclose => ⟨hclosed hclose, rfl⟩⟩)
  · cases hs

/-- The bytes the buffer holds are the stream's from what was consumed on. -/
theorem Conn.Inv.pending_eq {stream : Bytes} {c : Nat} {s : Conn} (h : s.Inv stream c) :
    s.buf.pending = slice stream s.consumed s.buf.bytesavail := by
  have hlen := h.length_bytes
  have htake := congrArg (List.take s.buf.bytesavail) h.bytes
  rw [← ReactorReadBuffer.length_pending h.buf, List.take_left, slice, List.take_take,
    ReactorReadBuffer.length_pending h.buf, Nat.min_eq_left (by omega)] at htake
  exact htake

theorem Conn.Inv.processInput {stream : Bytes} {c : Nat} {s t : Conn} (h : s.Inv stream c) {w n : Nat}
    (hs : connStep stream c s (.processInput w n) = some t) : t.Inv stream c := by
  simp only [connStep] at hs
  split at hs
  · rename_i c' close hw
    split at hs
    · rename_i hg
      obtain ⟨rfl, -, -, hn⟩ := hg
      have hmem := List.mem_of_getElem? hw
      have hcb := (h.workers _ hmem rfl).1
      rw [if_pos hcb] at hs
      split at hs
      · cases hs
        obtain ⟨hinv, -, hp⟩ := ReactorReadBuffer.consume_spec h.buf hn
        obtain ⟨h1, h2, h3⟩ := h.arrived
        have hlen := h.length_bytes
        refine { h with
          buf := hinv, start := .inr ⟨close, hmem⟩, arrived := ⟨?_, h2, h3⟩, bytes := ?_, dispatch := h.dispatch.mono id rfl,
          live := fun _ => h.live_append hcb _ _, dead := fun hdead => absurd (hdead.symm.trans hcb) Bool.false_ne_true }
        · show s.consumed + n ≤ s.received
          omega
        · simp only [hp]
          rw [← List.drop_append_of_le_length (by rw [ReactorReadBuffer.length_pending h.buf]; exact hn), h.bytes,
            ← Memory.slice_drop]
          congr 1
          omega
      · cases hs
        exact { h with
          dispatch := h.dispatch.mono id rfl, live := fun _ => h.live_append hcb _ _
          dead := fun hdead => absurd (hdead.symm.trans hcb) Bool.false_ne_true }
    · cases hs
  · cases hs

/-- **A session is such a callback**: what `AdminSession::process_input` returns is a step of the loop. -/
theorem Conn.Inv.processInput_session {stream : Bytes} {c : Nat} {s : Conn} (h : s.Inv stream c) {w : Nat} {close : Bool}
    (hw : s.run.workers[w]? = some (.busy c close)) (hoffering : s.offering = true) (hne : s.buf.bytesavail ≠ 0)
    (hfits : s.buf.bytesavail < 2 ^ 31) (ioHandle : Bool) (beyond : UInt8) :
    ∃ t, connStep stream c s
      (.processInput w (Exio.processInput ioHandle beyond (s.buf.buf.drop s.buf.rp) (Word.toInt 32 s.buf.bytesavail)).1) =
        some t := by
  generalize hr : Exio.processInput ioHandle beyond (s.buf.buf.drop s.buf.rp) (Word.toInt 32 s.buf.bytesavail) = r
  have hle : r.1 ≤ s.buf.bytesavail := by
    rcases processInput_spec ioHandle beyond 0 hfits hr with ⟨n, m, hd, rfl⟩ | ⟨-, rfl⟩ | ⟨-, hz, -⟩
    · rw [← ReactorReadBuffer.length_pending h.buf]
      exact ((sessionDecode_stable 0).bound hd).2
    · exact Nat.zero_le _
    · rw [hz]
      exact Nat.zero_le _
  have hcb := (h.workers _ (List.mem_of_getElem? hw) rfl).1
  simp only [connStep, hw]
  rw [if_pos ⟨trivial, hoffering, hne, hle⟩, if_pos hcb]
  split
  · exact ⟨_, rfl⟩
  · exact ⟨_, rfl⟩

theorem Conn.Inv.process {stream : Bytes} {c : Nat} {s t : Conn} (h : s.Inv stream c) {w : Nat}
    (hs : connStep stream c s (.process w) = some t) : t.Inv stream c := by
  simp only [connStep] at hs
  split at hs
  · rename_i c' close hw
    split at hs
    · rename_i hg
      obtain ⟨rfl, -⟩ := hg
      obtain ⟨run, hrun, rfl⟩ := Option.map_eq_some_iff.1 hs
      have hrun' := runStep_inv h.run hrun
      obtain ⟨hcb, hclosing⟩ := h.workers _ (List.mem_of_getElem? hw) rfl
      obtain ⟨hinv, hrp, hp⟩ := ReactorReadBuffer.shift_spec h.buf
      cases close with
      | true =>
        obtain ⟨hclosed, hnil⟩ := hclosing rfl
        simp only [runStep, RunAct.worker, hw, Option.bind_some, workerStep, Option.some.injEq] at hrun
        subst hrun
        have hobj := s.run.objs_setObj_self c' { s.run.objs c' with cb := false }
        refine ⟨hrun', ⟨?_, h.kept.destroying, h.kept.pc⟩, hinv, .inl hrp, h.arrived, h.fin, ?_, ?_, ?_, ?_, ?_, ?_, ?_,
          ?_⟩ <;> simp only [Run.setWorker, hobj]
        · exact h.kept.attn
        · rw [hp]
          exact h.bytes
        · exact h.dispatch.mono id rfl
        · exact h.opened
        · exact h.closed
        · exact h.sentinel
        · exact fun hfalse => by cases hfalse
        · refine fun _ => ⟨hclosed, hnil, s.calls, h.live hcb, ?_⟩
          rw [if_pos ⟨trivial, hcb⟩]
        · exact h.workers_set hw rfl (fun _ => rfl)
      | false =>
        simp only [runStep, RunAct.worker, hw, Option.bind_some, workerStep, Option.some.injEq] at hrun
        subst hrun
        refine { h with
          run := hrun', kept := ⟨h.kept.attn, h.kept.destroying, h.kept.pc⟩, buf := hinv, start := .inl hrp, bytes := ?_
          dispatch := h.dispatch.mono id rfl, live := fun hcb' => ?_, dead := fun hdead => ?_
          workers := h.workers_set hw rfl trivial }
        · rw [hp]
          exact h.bytes
        · simp only [Bool.false_eq_true, false_and, if_false]
          exact h.live hcb
        · exact absurd (hdead.symm.trans hcb) Bool.false_ne_true
    · cases hs
  · cases hs

theorem Conn.Inv.other {stream : Bytes} {c : Nat} {s t : Conn} (h : s.Inv stream c) {a : RunAct}
    (hs : connStep stream c s (.other a) = some t) : t.Inv stream c := by
  simp only [connStep] at hs
  split at hs
  · rename_i helse
    obtain ⟨run, hrun, rfl⟩ := Option.map_eq_some_iff.1 hs
    obtain ⟨hsame, hkept⟩ := runStep_same h.kept (fun hdead => (h.dead hdead).2.1)
      (fun hclear => h.workers _ hclear rfl) helse hrun
    refine ⟨runStep_inv h.run hrun, hkept, h.buf, ?_, h.arrived, h.fin, ?_, ?_, ?_, ?_, ?_, ?_, ?_, ?_⟩ <;>
      simp only [hsame.datafifo, hsame.ioClosed, hsame.cb]
    · rcases h.start with hrp | ⟨close, hbusy⟩
      · exact .inl hrp
      · exact .inr ⟨close, hsame.busy close hbusy⟩
    · exact h.bytes
    · exact h.dispatch.mono id rfl
    · exact h.opened
    · exact h.closed
    · exact h.sentinel
    · exact h.live
    · exact h.dead
    · intro pc hpc
      have hknows : pc.Knows c (s.run.objs c) := by
        rcases hsame.calm pc hpc with hpc | hcalm
        · exact h.workers pc hpc
        · cases pc with
          | copy c' => exact hcalm
          | busy c' _ | clear c' => exact fun hcc => absurd hcc hcalm
          | idle | popped _ | work _ | worked _ | update _ _ | exited => trivial
      refine hknows.mono hsame.cb (fun hio hnil => ?_)
      rw [hsame.ioClosed, hsame.datafifo]
      exact ⟨hio, hnil⟩
  · cases hs

theorem connStep_inv {stream : Bytes} {c : Nat} {s t : Conn} (h : s.Inv stream c) : ∀ {a : ConnAct},
    connStep stream c s a = some t → t.Inv stream c
  | .arrive _, hs       => h.arrive hs
  | .fin, hs            => h.finish hs
  | .poll _, hs         => h.poll hs
  | .handleInput, hs    => h.handleInput hs
  | .handleOutput, hs   => h.handleOutput hs
  | .handleClose, hs    => h.handleClose hs
  | .copyFifo _, hs     => h.copyFifo hs
  | .processInput .., hs => h.processInput hs
  | .process _, hs      => h.process hs
  | .other _, hs        => h.other hs

/-! ## What the callback is offered -/

/-- Byte `i` of the stream, which is `b`, stood in what a call of `process_input` was given. -/
def Offered (calls : List Callback) (i : Nat) (b : UInt8) : Prop :=
  ∃ offset src, .processInput offset src ∈ calls ∧ offset ≤ i ∧ src[i - offset]? = some b

/-- The first `k` bytes of the stream were offered. -/
def Offers (stream : Bytes) (calls : List Callback) (k : Nat) : Prop :=
  ∀ i b, i < k → stream[i]? = some b → Offered calls i b

theorem Offers.append {stream : Bytes} {calls : List Callback} {k : Nat} (h : Offers stream calls k)
    (more : List Callback) : Offers stream (calls ++ more) k := by
  intro i b hi hb
  obtain ⟨offset, src, hmem, hsrc⟩ := h i b hi hb
  exact ⟨offset, src, List.mem_append_left _ hmem, hsrc⟩

/-- **A call that is given a stretch of the stream offers it.** -/
theorem Offers.call {stream : Bytes} {calls : List Callback} {a n : Nat} (h : Offers stream calls a) :
    Offers stream (calls ++ [.processInput a (slice stream a n)]) (a + n) := by
  intro i b hi hb
  by_cases hia : i < a
  · exact h.append _ i b hia hb
  · have hai : a ≤ i := Nat.le_of_not_lt hia
    refine ⟨a, slice stream a n, List.mem_append_right _ (List.mem_singleton_self _), hai, ?_⟩
    rw [slice, List.getElem?_take_of_lt (by omega), List.getElem?_drop, Nat.add_sub_cancel' hai]
    exact hb

/-- The size of the buffer fits an `int` when it is offered. -/
def Fits (s : Conn) : ConnAct → Prop
  | .processInput _ _ => s.buf.bytesavail < 2 ^ 31
  | _                 => True

instance (s : Conn) : ∀ a, Decidable (Fits s a)
  | .processInput _ _ => inferInstanceAs (Decidable (s.buf.bytesavail < 2 ^ 31))
  | .arrive _ | .fin | .poll _ | .handleInput | .handleOutput | .handleClose | .copyFifo _ | .process _ | .other _ =>
    isTrue trivial

/-- **What was offered so far**: all that was consumed; where the loop has ended, all that the buffer holds as well; and
after `process_close` the whole stream. -/
structure Conn.Covered (stream : Bytes) (s : Conn) : Prop where
  consumed : Offers stream s.calls s.consumed
  pending  : s.offering = false → Offers stream s.calls (s.consumed + s.buf.bytesavail)
  closed   : .processClose ∈ s.calls → Offers stream s.calls stream.length

theorem Conn.new_covered (stream : Bytes) (nworkers : Nat) : (Conn.new nworkers).Covered stream :=
  ⟨fun _ _ hi => absurd hi (Nat.not_lt_zero _), fun _ _ _ hi => absurd hi (Nat.not_lt_zero _), fun hm => by cases hm⟩

/-- A step that touches neither the buffer nor the callback. -/
theorem Conn.Covered.same {stream : Bytes} {s t : Conn} (h : s.Covered stream) (hcalls : t.calls = s.calls)
    (hconsumed : t.consumed = s.consumed) (hbuf : t.buf = s.buf) (hoffering : t.offering = s.offering) :
    t.Covered stream := by
  refine ⟨?_, ?_, ?_⟩
  · rw [hcalls, hconsumed]
    exact h.consumed
  · rw [hcalls, hconsumed, hbuf, hoffering]
    exact h.pending
  · rw [hcalls]
    exact h.closed

theorem Conn.Covered.processInput {stream : Bytes} {c : Nat} {s t : Conn} (hinv : s.Inv stream c) (h : s.Covered stream)
    {w n : Nat} (hfits : s.buf.bytesavail < 2 ^ 31) (hs : connStep stream c s (.processInput w n) = some t) :
    t.Covered stream := by
  have hsize : slice s.buf.buf s.buf.rp (Word.toInt 32 s.buf.bytesavail).toNat = slice stream s.consumed s.buf.bytesavail := by
    rw [Word.toInt_of_lt (by decide) hfits, Int.toNat_natCast]
    exact hinv.pending_eq
  have hall : Offers stream (s.calls ++ [.processInput s.consumed (slice stream s.consumed s.buf.bytesavail)])
      (s.consumed + s.buf.bytesavail) := h.consumed.call
  simp only [connStep, hsize] at hs
  split at hs
  · rename_i c' close hw
    split at hs
    · rename_i hg
      obtain ⟨rfl, hoff, -, hn⟩ := hg
      have hcb := (hinv.workers _ (List.mem_of_getElem? hw) rfl).1
      have hlive := hinv.live_append hcb s.consumed (slice stream s.consumed s.buf.bytesavail)
      rw [if_pos hcb] at hs
      split at hs
      · cases hs
        refine ⟨fun i b hi => hall i b ?_, fun hfalse => ?_, fun hm => absurd hm hlive⟩
        · exact Nat.lt_of_lt_of_le hi (Nat.add_le_add_left hn _)
        · exact absurd (hfalse.symm.trans hoff) Bool.false_ne_true
      · cases hs
        exact ⟨h.consumed.append _, fun _ => hall, fun hm => absurd hm hlive⟩
    · cases hs
  · cases hs

theorem Conn.Covered.process {stream : Bytes} {c : Nat} {s t : Conn} (hinv : s.Inv stream c) (h : s.Covered stream)
    {w : Nat} (hs : connStep stream c s (.process w) = some t) : t.Covered stream := by
  simp only [connStep] at hs
  split at hs
  · rename_i c' close hw
    split at hs
    · rename_i hg
      obtain ⟨rfl, hdone⟩ := hg
      obtain ⟨run, -, rfl⟩ := Option.map_eq_some_iff.1 hs
      obtain ⟨hcb, hclosing⟩ := hinv.workers _ (List.mem_of_getElem? hw) rfl
      -- the loop ended because nothing was left or nothing was taken
      have hall : Offers stream s.calls (s.consumed + s.buf.bytesavail) := by
        rcases Bool.eq_false_or_eq_true s.offering with hoff | hoff
        · rw [hdone hoff]
          exact h.consumed
        · exact h.pending hoff
      obtain ⟨hinv', -, hp⟩ := ReactorReadBuffer.shift_spec hinv.buf
      have hav : s.buf.shiftPendingToArrayStart.bytesavail = s.buf.bytesavail := by
        rw [← ReactorReadBuffer.length_pending hinv', hp, ReactorReadBuffer.length_pending hinv.buf]
      cases close with
      | false =>
        refine ⟨h.consumed, fun _ => ?_, fun hm => absurd hm (hinv.live hcb)⟩
        simp only [hav]
        exact hall
      | true =>
        obtain ⟨hclosed, hnil⟩ := hclosing rfl
        have hend := hinv.length_rest hclosed hnil
        simp only [hcb, and_self, if_true]
        refine ⟨h.consumed.append _, fun _ => ?_, fun _ => ?_⟩
        · simp only [hav]
          exact hall.append _
        · rw [← hend]
          exact hall.append _
    · cases hs
  · cases hs

theorem connStep_covered {stream : Bytes} {c : Nat} {s t : Conn} (hinv : s.Inv stream c) (h : s.Covered stream) :
    ∀ {a : ConnAct}, Fits s a → connStep stream c s a = some t → t.Covered stream
  | .arrive _, _, hs | .fin, _, hs | .poll _, _, hs | .handleOutput, _, hs => by
    simp only [connStep] at hs
    split at hs
    · cases hs
      exact h.same rfl rfl rfl rfl
    · cases hs
  | .handleInput, _, hs => by
    simp only [connStep] at hs
    split at hs
    · split at hs
      · split at hs
        · split at hs
          · cases hs
            exact h.same rfl rfl rfl rfl
          · cases hs
        · obtain ⟨run, -, rfl⟩ := Option.map_eq_some_iff.1 hs
          exact h.same rfl rfl rfl rfl
      · cases hs
        exact h.same rfl rfl rfl rfl
    · cases hs
  | .handleClose, _, hs => by
    simp only [connStep] at hs
    split at hs
    · split at hs
      · obtain ⟨run, -, rfl⟩ := Option.map_eq_some_iff.1 hs
        exact h.same rfl rfl rfl rfl
      · cases hs
        exact h.same rfl rfl rfl rfl
    · cases hs
  | .copyFifo w, _, hs => by
    simp only [connStep] at hs
    split at hs
    · obtain ⟨r, -, hs⟩ := Option.bind_eq_some_iff.1 hs
      obtain ⟨run, -, rfl⟩ := Option.map_eq_some_iff.1 hs
      exact ⟨h.consumed, fun hfalse => (by cases hfalse), h.closed⟩
    · cases hs
  | .processInput .., hfits, hs => h.processInput hinv hfits hs
  | .process _, _, hs => h.process hinv hs
  | .other _, _, hs => by
    simp only [connStep] at hs
    split at hs
    · obtain ⟨run, -, rfl⟩ := Option.map_eq_some_iff.1 hs
      exact h.same rfl rfl rfl rfl
    · cases hs

/-- **Nothing is lost when the peer closes in order, and the close is final**, with any number of workers and other clients
and in every state of every interleaving.  Once `process_close` was called, every byte of the stream was read and copied to
the read buffer, where what was not consumed still is; `process_close` is called once at most, and nothing is called after
it.  If the buffer's size fits an `int` whenever it is offered, every byte was offered to `process_input` by then. -/
theorem orderly_close (stream : Bytes) (c nworkers : Nat) {s : Conn}
    (hs : Steps.Reaches (connStep stream c) Steps.Always (Conn.new nworkers) s) :
    (.processClose ∈ s.calls → s.received = stream.length ∧ s.buf.pending = stream.drop s.consumed) ∧
    s.calls.count .processClose ≤ 1 ∧
    (∀ pre post, s.calls = pre ++ .processClose :: post → post = []) ∧
    (Steps.Reaches (connStep stream c) Fits (Conn.new nworkers) s → .processClose ∈ s.calls →
      ∀ i b, stream[i]? = some b → Offered s.calls i b) := by
  have h : s.Inv stream c := hs.invariant (Conn.new_inv stream c nworkers) (fun h _ hst => connStep_inv h hst)
  refine ⟨fun hclose => ?_, ?_, fun pre post hcalls => ?_, fun hfits hclose i b hb => ?_⟩
  · rcases Bool.eq_false_or_eq_true (s.run.objs c).cb with hcb | hcb
    · exact absurd hclose (h.live hcb)
    · obtain ⟨hclosed, hnil, -⟩ := h.dead hcb
      have hreceived := h.closed hclosed
      refine ⟨hreceived, ?_⟩
      have hbytes := h.bytes
      rw [hnil, List.flatten_nil, List.append_nil, hreceived] at hbytes
      rw [hbytes, slice, ← List.length_drop, List.take_length]
  · rcases Bool.eq_false_or_eq_true (s.run.objs c).cb with hcb | hcb
    · rw [List.count_eq_zero_of_not_mem (h.live hcb)]
      exact Nat.zero_le 1
    · obtain ⟨-, -, pre, hpre, hcalls⟩ := h.dead hcb
      rw [hcalls, List.count_append, List.count_eq_zero_of_not_mem hpre]
      exact Nat.le_refl 1
  · rcases Bool.eq_false_or_eq_true (s.run.objs c).cb with hcb | hcb
    · exact absurd (hcalls ▸ List.mem_append_right _ List.mem_cons_self) (h.live hcb)
    · obtain ⟨-, -, pre', hpre', hcalls'⟩ := h.dead hcb
      rw [hcalls'] at hcalls
      rcases List.eq_nil_or_concat post with hpost | ⟨post', last, rfl⟩
      · exact hpost
      · -- then the call in the middle stands before the last one
        have hinit : pre' = pre ++ .processClose :: post' := by
          rw [List.concat_eq_append, ← List.cons_append, ← List.append_assoc] at hcalls
          exact (List.append_inj' hcalls rfl).1
        exact absurd (hinit ▸ List.mem_append_right _ List.mem_cons_self) hpre'
  · have hcov : s.Inv stream c ∧ s.Covered stream :=
      hfits.invariant (P := fun s => s.Inv stream c ∧ s.Covered stream)
        ⟨Conn.new_inv stream c nworkers, Conn.new_covered stream nworkers⟩
        (fun h hfit hst => ⟨connStep_inv h.1 hst, connStep_covered h.1 h.2 hfit hst⟩)
    exact hcov.2.closed hclose i b (List.getElem?_eq_some_iff.1 hb).1 hb

/-- Three bytes and the FIN arrive before the reactor polls; the read takes them all and the client is closed at once.  The
callback consumes two bytes and then none. -/
def sampleClose : List ConnAct :=
  [.other (.add 0), .arrive 3, .fin, .poll true, .handleInput, .handleOutput, .handleClose, .other .startScan,
    .other .lockReactor, .other .updateForReactor, .other .pushRunq, .other (.pop 0), .other (.setRunState 0),
    .other (.checkCb 0), .copyFifo 0, .processInput 0 2, .processInput 0 0, .process 0]

theorem orderly_close_sample : ∃ s, Steps.runIf (connStep [7, 8, 9] 0) Fits (Conn.new 1) sampleClose = some s ∧
    s.calls = [.processInput 0 [7, 8, 9], .processInput 2 [9], .processClose] ∧ s.buf.pending = [7, 8, 9].drop s.consumed ∧
      ∀ i b, [7, 8, 9][i]? = some b → Offered s.calls i b := by
  have hrun : (Steps.runIf (connStep [7, 8, 9] 0) Fits (Conn.new 1) sampleClose).map Conn.calls =
      some [.processInput 0 [7, 8, 9], .processInput 2 [9], .processClose] := by decide +kernel
  obtain ⟨s, hs, hcalls⟩ := Option.map_eq_some_iff.1 hrun
  have hfits := Steps.reaches_of_runIf sampleClose hs
  have hclose : .processClose ∈ s.calls := by
    rw [hcalls]
    decide
  obtain ⟨hcopied, -, -, hoffered⟩ := orderly_close [7, 8, 9] 0 1 (hfits.weaken fun _ _ _ => trivial)
  exact ⟨s, hs, hcalls, (hcopied hclose).2, hoffered hfits hclose⟩

/-! ### A stream of `2 ^ 32` bytes

The whole stream is read before a worker comes to it.  The size of the buffer, as an `int`, is 0. -/

/-- The client is in `m_clients`, the stream and the FIN have arrived, and `r` bytes have been read into `fifo`. -/
def floodState (N r : Nat) (fifo : List Bytes) (ioClosed : Bool) : Conn :=
  { Conn.new 1 with
    run      := { (Run.new 1).setObj 0 { RunClient.new with datafifo := fifo, ioClosed := ioClosed } with clients := [0] }
    arrived  := N
    fin      := true
    received := r }

/-- One turn of the reactor reads a full chunk. -/
theorem flood_read {stream : Bytes} {r : Nat} (fifo : List Bytes) (hr : r + 1024 ≤ stream.length) :
    Steps.Reaches (connStep stream 0) Steps.Always (floodState stream.length r fifo false)
      (floodState stream.length (r + 1024) (fifo ++ [slice stream r 1024]) false) := by
  have hmin : min (stream.length - r) 1024 = 1024 := Nat.min_eq_right (by omega)
  have hleft : stream.length - r ≠ 0 := by omega
  have hchunk : slice stream r 1024 ≠ [] := by
    intro hnil
    have hlen := Memory.length_slice hr
    rw [hnil] at hlen
    cases hlen
  refine Steps.reaches_of_run [.poll false, .handleInput, .handleOutput, .handleClose] ?_
  simp [Steps.run, connStep, floodState, Conn.new, Run.new, Run.setObj, runStep, RunAct.worker, reactorStep, chunkSize,
    hmin, hleft, hchunk]

theorem flood_reads (stream : Bytes) : ∀ k : Nat, 1024 * k ≤ stream.length →
    ∃ fifo, Steps.Reaches (connStep stream 0) Steps.Always (Conn.new 1) (floodState stream.length (1024 * k) fifo false)
  | 0, _ => by
    refine ⟨[], Steps.reaches_of_run [.other (.add 0), .arrive stream.length, .fin] ?_⟩
    simp [Steps.run, connStep, floodState, Conn.new, Run.new, Run.setObj, runStep, RunAct.worker, reactorStep, Elsewhere,
      RunClient.new]
  | k + 1, hk => by
    obtain ⟨fifo, hreach⟩ := flood_reads stream k (by omega)
    exact ⟨_, hreach.trans (flood_read fifo (by omega))⟩

/-- The reactor meets the end of the stream and closes the client. -/
theorem flood_close (stream : Bytes) (fifo : List Bytes) :
    Steps.Reaches (connStep stream 0) Steps.Always (floodState stream.length stream.length fifo false)
      (floodState stream.length stream.length (fifo ++ [[]]) true) := by
  refine Steps.reaches_of_run [.poll false, .handleInput, .handleOutput, .handleClose] ?_
  simp [Steps.run, connStep, floodState, Conn.new, Run.new, Run.setObj, runStep, RunAct.worker, reactorStep, chunkSize,
    RunClient.new, RunClient.handleClose]

/-- The scan finds the client, and the worker comes to copy its fifo. -/
theorem flood_queue (stream : Bytes) (chunk : Bytes) (fifo : List Bytes) :
    ∃ s, Steps.Reaches (connStep stream 0) Steps.Always (floodState stream.length stream.length (chunk :: fifo) true) s ∧
      s.run.workers = [.copy 0] ∧ (s.run.objs 0).datafifo = chunk :: fifo ∧ s.consumed = 0 ∧ s.calls = [] := by
  refine ⟨_, Steps.reaches_of_run [.other .startScan, .other .lockReactor, .other .updateForReactor, .other .pushRunq,
    .other (.pop 0), .other (.setRunState 0), .other (.checkCb 0)] rfl, rfl, rfl, rfl, rfl⟩

/-- The worker copies everything. -/
theorem flood_copy {stream : Bytes} {fifo : List Bytes} {s : Conn} (hlen : stream.length < 2 ^ 62) (hinv : s.Inv stream 0)
    (hworkers : s.run.workers = [.copy 0]) (hfifo : (s.run.objs 0).datafifo = fifo ++ [[]]) :
    ∃ t, connStep stream 0 s (.copyFifo 0) = some t ∧ t.run.workers = [.busy 0 true] ∧ t.offering = true ∧
      t.consumed = s.consumed ∧ t.calls = s.calls := by
  have hw : s.run.workers[0]? = some (.copy 0) := by
    rw [hworkers]
    rfl
  have hrp := hinv.rp_of_copy hw
  have hclosed : (s.run.objs 0).ioClosed = true := by
    rcases Bool.eq_false_or_eq_true (s.run.objs 0).ioClosed with hio | hio
    · exact hio
    · exact absurd (hfifo ▸ List.mem_append_right _ (List.mem_singleton_self _)) (hinv.opened hio)
  have hrest : restChunks (s.run.objs 0).datafifo = ([], true) := by
    obtain ⟨data, hdata, heq⟩ := hinv.sentinel hclosed (by rw [hfifo]; simp)
    rw [heq]
    exact restChunks_sentinel data hdata
  obtain ⟨r, hcopy⟩ : ∃ r, copyChunks s.buf (s.run.objs 0).datafifo = some r := by
    refine copyChunks_exists _ hinv.buf hrp ?_
    have hbytes := hinv.length_bytes
    obtain ⟨h1, h2, h3⟩ := hinv.arrived
    omega
  refine ⟨{ s with
    run      := (s.run.setObj 0 { s.run.objs 0 with datafifo := [] }).setWorker 0 (.busy 0 true)
    buf      := r.1
    offering := true }, ?_, ?_, rfl, rfl, rfl⟩
  · simp only [connStep, hw, if_true, hcopy, Option.bind_some, runStep, RunAct.worker, workerStep, hrest, Option.map_some]
  · simp only [Run.setWorker, Run.setObj, hworkers, List.set_cons_zero]

/-- The buffer is offered as one of size 0; the callback takes nothing, and is closed. -/
theorem flood_offer {stream : Bytes} {s : Conn} (hlen : stream.length = 2 ^ 32) (hinv : s.Inv stream 0)
    (hworkers : s.run.workers = [.busy 0 true]) (hoffering : s.offering = true) (hconsumed : s.consumed = 0)
    (hcalls : s.calls = []) : ∃ t, Steps.run (connStep stream 0) s [.processInput 0 0, .process 0] = some t ∧
      t.calls = [.processInput 0 [], .processClose] := by
  have hw : s.run.workers[0]? = some (.busy 0 true) := by
    rw [hworkers]
    rfl
  obtain ⟨hcb, hclosing⟩ := hinv.workers _ (List.mem_of_getElem? hw) rfl
  obtain ⟨hclosed, hnil⟩ := hclosing rfl
  have havail : s.buf.bytesavail = 2 ^ 32 := by
    have hrest := hinv.length_rest hclosed hnil
    rw [hconsumed, Nat.zero_add] at hrest
    exact hrest.trans hlen
  have hsize : (Word.toInt 32 s.buf.bytesavail).toNat = 0 := by
    rw [havail]
    decide
  have hne : s.buf.bytesavail ≠ 0 := by
    rw [havail]
    decide
  have hoffer : connStep stream 0 s (.processInput 0 0) =
      some { s with calls := [.processInput 0 []], offering := false } := by
    simp only [connStep, hw, hoffering, hne, hcb, hcalls, hconsumed, hsize, Memory.slice_zero, ne_eq, not_false_eq_true,
      Nat.zero_le, and_self, if_true, Nat.lt_irrefl, if_false, List.nil_append]
  have hclose : ∃ t, connStep stream 0 { s with calls := [.processInput 0 []], offering := false } (.process 0) = some t ∧
      t.calls = [.processInput 0 [], .processClose] := by
    simp only [connStep, hw, runStep, RunAct.worker, workerStep, hcb, Bool.false_eq_true, false_imp_iff, and_self, if_true,
      Option.bind_some, Option.map_some, Option.some.injEq, exists_eq_left', List.singleton_append]
  obtain ⟨t, hclose, ht⟩ := hclose
  refine ⟨t, ?_, ht⟩
  simp only [Steps.run, hoffer, hclose, Option.bind_some]

/-- **Not one byte of `2 ^ 32` is offered**, and `process_close` is called. -/
theorem orderly_close_wraps : ∃ stream s, stream.length = 2 ^ 32 ∧
    Steps.Reaches (connStep stream 0) Steps.Always (Conn.new 1) s ∧ s.calls = [.processInput 0 [], .processClose] ∧
      ∀ i b, ¬ Offered s.calls i b := by
  have hlen : (List.replicate (2 ^ 32) (0 : UInt8)).length = 2 ^ 32 := List.length_replicate
  generalize List.replicate (2 ^ 32) (0 : UInt8) = stream at hlen
  obtain ⟨fifo, hread⟩ := flood_reads stream (2 ^ 22) (by rw [hlen]; decide)
  rw [show 1024 * 2 ^ 22 = stream.length by rw [hlen]; decide] at hread
  have hread := hread.trans (flood_close stream fifo)
  obtain ⟨chunk, rest, hcons⟩ : ∃ chunk rest, fifo ++ [[]] = chunk :: rest := List.exists_cons_of_ne_nil (by simp)
  rw [hcons] at hread
  obtain ⟨s₁, hqueue, hworkers, hfifo, hconsumed, hcalls⟩ := flood_queue stream chunk rest
  rw [← hcons] at hfifo
  have hreach := hread.trans hqueue
  have hinv : ∀ {s}, Steps.Reaches (connStep stream 0) Steps.Always (Conn.new 1) s → s.Inv stream 0 :=
    fun hs => hs.invariant (Conn.new_inv stream 0 1) (fun h _ hst => connStep_inv h hst)
  obtain ⟨s₂, hcopy, hworkers', hoffering, hconsumed', hcalls'⟩ := flood_copy (by rw [hlen]; decide) (hinv hreach) hworkers hfifo
  have hreach' := hreach.step trivial hcopy
  obtain ⟨t, hrun, ht⟩ := flood_offer hlen (hinv hreach') hworkers' hoffering (hconsumed'.trans hconsumed)
    (hcalls'.trans hcalls)
  refine ⟨stream, t, hlen, hreach'.trans (Steps.reaches_of_run _ hrun), ht, ?_⟩
  rintro i b ⟨offset, src, hmem, -, hsrc⟩
  rw [ht] at hmem
  rcases List.mem_cons.1 hmem with heq | hmem
  · cases heq
    cases hsrc
  · cases List.mem_singleton.1 hmem

end Exio
