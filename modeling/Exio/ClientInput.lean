import Mathlib.Data.List.TakeWhile
import Exio.Word
import Exio.Memory
import Exio.Stream
import Exio.SamDecode
/-!
# ClientInput — from the socket's chunks to decoded messages

The reactor thread reads chunks into a client's fifo (`Client::handle_input`); a worker copies them into the client's
read buffer, offers the buffer to the session until it takes nothing more, and shifts what is left to the front
(`Client::do_work`).  The session decodes one message from the bytes it is offered and hands it to `io_onmsg`
(`AdminSession::process_input`).

`pending` is what a read buffer holds.  Over it `do_work` is a drain of a stream (`doWork_eq`), with `decodeMsg` as the
decoder; `decodeMsg` is stable under more bytes (`sessionDecode_stable`), so however the stream was cut and scheduled,
the messages are those of the whole stream (`inputRun_delivers`).
-/
namespace Exio

open Sam
open Memory (memcpy slice)

/-! ## The read buffer -/

structure ReactorReadBuffer where
  buf        : Bytes
  bytesavail : Nat
  rp         : Nat
deriving DecidableEq

namespace ReactorReadBuffer

def new (cap : Nat) : ReactorReadBuffer := ⟨List.replicate cap 0, 0, 0⟩

def capacity (rb : ReactorReadBuffer) : Nat := rb.buf.length

def spaceRemain (rb : ReactorReadBuffer) : Nat := Word.sub 64 rb.capacity rb.bytesavail

/-- `grow`: half the capacity more, at least one byte; `none` where the signed capacity would overflow. -/
def grow (rb : ReactorReadBuffer) : Option ReactorReadBuffer :=
  let extra := if rb.capacity / 2 = 0 then 1 else rb.capacity / 2
  if 2 ^ 63 ≤ rb.capacity + extra then none
  else some { rb with buf := rb.buf ++ List.replicate extra 0 }

/-- `memcpy` to `wp()` and `incr_bytesavail`. -/
def write (rb : ReactorReadBuffer) (data : Bytes) : ReactorReadBuffer :=
  { rb with buf := memcpy rb.buf rb.bytesavail data, bytesavail := rb.bytesavail + data.length }

def consume (rb : ReactorReadBuffer) (n : Nat) : ReactorReadBuffer :=
  { rb with rp := rb.rp + n, bytesavail := Word.sub 64 rb.bytesavail n }

def shiftPendingToArrayStart (rb : ReactorReadBuffer) : ReactorReadBuffer :=
  if 0 < rb.bytesavail ∧ rb.rp ≠ 0 then
    { rb with buf := memcpy rb.buf 0 (slice rb.buf rb.rp rb.bytesavail), rp := 0 }
  else { rb with rp := 0 }

/-- The `bytesavail()` bytes at `rp()`. -/
def pending (rb : ReactorReadBuffer) : Bytes := slice rb.buf rb.rp rb.bytesavail

end ReactorReadBuffer

/-! ## The session -/

/-- What a session and its client do in answer to input. -/
inductive InputEvent where
  | onMsg (m : TxMessage)
  | enqueueToSend (m : TxMessage)
  | queueClose
  | processClose
deriving DecidableEq

/-- The error reply of `process_input`. -/
def badmsg (what : Bytes) : TxMessage := ⟨ascii "badmsg", putField [] (ascii "msg") what⟩

/-- `process_input(client, src, size)`: `src` is the memory from the read pointer on, and `beyond` the byte behind it. -/
def processInput (ioHandle : Bool) (beyond : UInt8) (src : Bytes) (size : Int) : Nat × List InputEvent :=
  let len := Word.ofInt 64 size
  match decodeMsg 64 (some ((src.drop len).headD beyond)) .empty (src.take len) with
  | .error e       => (0, .enqueueToSend (badmsg e.what) :: if ioHandle then [.queueClose] else [])
  | .ok (consumed, msg) => (consumed, if consumed ≠ 0 then [.onMsg msg] else [])

/-! ## The client -/

/-- The inbound half of a client: whether its callback is set, its read buffer, and the fifo of chunks read from the
socket; the empty chunk is the sentinel of the end of file. -/
structure Inbound where
  cb       : Bool
  buf      : ReactorReadBuffer
  datafifo : List Bytes
deriving DecidableEq

def Inbound.new : Inbound := ⟨true, .new 4096, []⟩

/-- `while (buf.space_remain() < size) buf.grow()`. -/
def growFor (size : Nat) : Nat → ReactorReadBuffer → Option ReactorReadBuffer
  | 0, _         => none
  | fuel + 1, rb => if rb.spaceRemain < size then rb.grow.bind (growFor size fuel) else some rb

/-- The copy loop of `do_work`: the buffer, the chunks left, and whether the sentinel was met. -/
def copyChunks : ReactorReadBuffer → List Bytes → Option (ReactorReadBuffer × List Bytes × Bool)
  | rb, []               => some (rb, [], false)
  | rb, [] :: fifo       => some (rb, fifo, true)
  | rb, (c :: cs) :: fifo =>
    (growFor (c :: cs).length ((c :: cs).length + 1) rb).bind fun rb => copyChunks (rb.write (c :: cs)) fifo

/-- The loop that offers the buffer to the session.  Every turn but the last consumes a byte or more. -/
def inputLoop (ioHandle : Bool) (beyond : UInt8) : Nat → ReactorReadBuffer → ReactorReadBuffer × List InputEvent
  | 0, rb        => (rb, [])
  | fuel + 1, rb =>
    if rb.bytesavail = 0 then (rb, [])
    else
      let r := processInput ioHandle beyond (rb.buf.drop rb.rp) (Word.toInt 32 rb.bytesavail)
      if 0 < r.1 then
        let next := inputLoop ioHandle beyond fuel (rb.consume r.1)
        (next.1, r.2 ++ next.2)
      else (rb, r.2)

/-- `do_work`; `none` where `grow` throws. -/
def doWork (ioHandle : Bool) (beyond : UInt8) (s : Inbound) : Option (Inbound × List InputEvent) :=
  if s.cb = false then some ({ s with datafifo := [] }, [])
  else
    (copyChunks s.buf s.datafifo).map fun (rb, fifo, close) =>
      let r := inputLoop ioHandle beyond (rb.bytesavail + 1) rb
      let rb := r.1.shiftPendingToArrayStart
      if close then (⟨false, rb, []⟩, r.2 ++ [.processClose]) else (⟨true, rb, fifo⟩, r.2)

/-- What happens at a client: the reactor thread reads a chunk, or a worker runs `do_work`. -/
inductive InputStep where
  | read (chunk : Bytes)
  | work
deriving DecidableEq

def inputStep (ioHandle : Bool) (beyond : UInt8) (s : Inbound) : InputStep → Option (Inbound × List InputEvent)
  | .read chunk => some ({ s with datafifo := s.datafifo ++ [chunk] }, [])
  | .work       => doWork ioHandle beyond s

/-- A run of steps, and everything it did. -/
def inputRun (ioHandle : Bool) (beyond : UInt8) : Inbound → List InputStep → Option (Inbound × List InputEvent)
  | s, []      => some (s, [])
  | s, a :: as =>
    (inputStep ioHandle beyond s a).bind fun r =>
      (inputRun ioHandle beyond r.1 as).map fun q => (q.1, r.2 ++ q.2)

/-- The bytes a run reads. -/
def received (as : List InputStep) : Bytes :=
  as.flatMap (fun a => match a with | .read chunk => chunk | .work => [])

def delivered (es : List InputEvent) : List TxMessage :=
  es.filterMap (fun e => match e with | .onMsg m => some m | _ => none)

/-- `decodeMsg` as `process_input` calls it, as a decoder of a stream. -/
def sessionDecode (past : UInt8) (w : Bytes) : Stream.Outcome TxMessage :=
  match decodeMsg 64 (some past) .empty w with
  | .error _      => .fault
  | .ok (0, _)    => .more
  | .ok (n + 1, m) => .done (n + 1) m

/-- **The messages of a whole stream**: `decodeMsg` from offset 0 on, until it returns 0 or throws. -/
def decodeStream (past : UInt8) (w : Bytes) : List TxMessage := (Stream.drain (sessionDecode past) w).1

/-! ## `decodeMsg` is stable -/

theorem sessionDecode_append (a b : UInt8) (w s : Bytes) :
    sessionDecode a w = .more ∨ sessionDecode b (w ++ s) = sessionDecode a w := by
  rcases decodeMsg_append a b TxMessage.empty w s with ⟨n, m, h, rfl⟩ | h
  · exact .inl (by rw [sessionDecode, h])
  · exact .inr (by rw [sessionDecode, h, sessionDecode])

theorem sessionDecode_past (a b : UInt8) (w : Bytes) : sessionDecode a w = sessionDecode b w := by
  have hab := sessionDecode_append a b w []
  have hba := sessionDecode_append b a w []
  rw [List.append_nil] at hab hba
  rcases hab with hab | hab
  · rcases hba with hba | hba
    · rw [hab, hba]
    · exact hba
  · exact hab.symm

theorem sessionDecode_stable (past : UInt8) : Stream.Stable (sessionDecode past) where
  bound := by
    intro w n m h
    rw [sessionDecode] at h
    split at h
    · cases h
    · cases h
    · rename_i k m' hd
      cases h
      exact ⟨by omega, decodeMsg_le hd⟩
  done := by
    intro w n m s h
    rcases sessionDecode_append past past w s with hm | hm
    · rw [hm] at h; cases h
    · rw [hm, h]
  fault := by
    intro w s h
    rcases sessionDecode_append past past w s with hm | hm
    · rw [hm] at h; cases h
    · rw [hm, h]

/-! ## The read buffer holds a stretch of the stream -/

namespace ReactorReadBuffer

/-- **The buffer's bounds.** -/
structure Inv (rb : ReactorReadBuffer) : Prop where
  avail_le : rb.rp + rb.bytesavail ≤ rb.buf.length
  cap_lt   : rb.buf.length < 2 ^ 63

theorem length_pending {rb : ReactorReadBuffer} (h : rb.Inv) : rb.pending.length = rb.bytesavail :=
  Memory.length_slice h.avail_le

theorem spaceRemain_eq {rb : ReactorReadBuffer} (h : rb.Inv) : rb.spaceRemain = rb.buf.length - rb.bytesavail := by
  have := h.avail_le
  have := h.cap_lt
  exact Word.sub_of_le (by rw [capacity]; omega) (by rw [capacity]; omega)

theorem new_inv {cap : Nat} (h : cap < 2 ^ 63) : (new cap).Inv :=
  ⟨Nat.zero_le _, by rw [new, List.length_replicate]; exact h⟩

theorem new_pending (cap : Nat) : (new cap).pending = [] := Memory.slice_zero _ _

theorem grow_of_some {rb rb' : ReactorReadBuffer} (h : rb.Inv) (hg : rb.grow = some rb') :
    rb'.Inv ∧ rb'.rp = rb.rp ∧ rb'.bytesavail = rb.bytesavail ∧ rb'.pending = rb.pending ∧
      rb.buf.length < rb'.buf.length := by
  have ha := h.avail_le
  unfold grow at hg
  generalize he : (if rb.capacity / 2 = 0 then 1 else rb.capacity / 2) = extra at hg
  have hextra : 0 < extra := by
    rw [← he]
    split <;> omega
  simp only at hg
  split at hg
  · cases hg
  · rename_i hcap
    cases hg
    refine ⟨⟨?_, ?_⟩, rfl, rfl, Memory.slice_append ha _, ?_⟩
    · simp only [List.length_append]; omega
    · simp only [List.length_append, List.length_replicate]
      exact Nat.lt_of_not_le hcap
    · simp only [List.length_append, List.length_replicate]; omega

theorem grow_exists (rb : ReactorReadBuffer) (hcap : rb.buf.length < 2 ^ 62) : ∃ rb', rb.grow = some rb' := by
  unfold grow
  simp only
  rw [if_neg]
  · exact ⟨_, rfl⟩
  · rw [capacity]
    split <;> omega

theorem write_spec {rb : ReactorReadBuffer} (h : rb.Inv) (hrp : rb.rp = 0) {data : Bytes}
    (hroom : rb.bytesavail + data.length ≤ rb.buf.length) :
    (rb.write data).Inv ∧ (rb.write data).rp = 0 ∧ (rb.write data).pending = rb.pending ++ data := by
  have hlen := Memory.length_memcpy hroom
  refine ⟨⟨?_, ?_⟩, hrp, ?_⟩
  · simp only [write, hlen, hrp]; omega
  · simp only [write, hlen]; exact h.cap_lt
  · have := Memory.slice_memcpy rb.buf data (Nat.zero_le rb.bytesavail) (by omega)
    rw [Nat.sub_zero, Nat.sub_zero] at this
    rw [pending, pending, hrp, ← this, ← hrp]
    rfl

theorem consume_spec {rb : ReactorReadBuffer} (h : rb.Inv) {n : Nat} (hn : n ≤ rb.bytesavail) :
    (rb.consume n).Inv ∧ (rb.consume n).bytesavail = rb.bytesavail - n ∧ (rb.consume n).pending = rb.pending.drop n := by
  have ha := h.avail_le
  have hc := h.cap_lt
  have hsub : Word.sub 64 rb.bytesavail n = rb.bytesavail - n := Word.sub_of_le hn (by omega)
  have heq : rb.consume n = { rb with rp := rb.rp + n, bytesavail := rb.bytesavail - n } := by rw [consume, hsub]
  rw [heq]
  refine ⟨⟨?_, hc⟩, rfl, ?_⟩
  · simp only; omega
  · rw [pending, pending, ← Memory.slice_drop]

theorem shift_spec {rb : ReactorReadBuffer} (h : rb.Inv) :
    rb.shiftPendingToArrayStart.Inv ∧ rb.shiftPendingToArrayStart.rp = 0 ∧
      rb.shiftPendingToArrayStart.pending = rb.pending := by
  have ha := h.avail_le
  have hp : (slice rb.buf rb.rp rb.bytesavail).length = rb.bytesavail := Memory.length_slice ha
  rw [shiftPendingToArrayStart]
  split
  · have hlen : (memcpy rb.buf 0 (slice rb.buf rb.rp rb.bytesavail)).length = rb.buf.length :=
      Memory.length_memcpy (by omega)
    refine ⟨⟨by simp only [hlen]; omega, by simp only [hlen]; exact h.cap_lt⟩, rfl, ?_⟩
    have := Memory.slice_memcpy rb.buf (slice rb.buf rb.rp rb.bytesavail) (Nat.le_refl 0) (by omega)
    rw [hp, Nat.sub_zero, Nat.sub_zero, Nat.zero_add, Memory.slice_zero, List.nil_append] at this
    exact this
  · rename_i hc
    refine ⟨⟨by simp only; omega, h.cap_lt⟩, rfl, ?_⟩
    rw [pending, pending]
    simp only
    rcases Nat.eq_zero_or_pos rb.bytesavail with h0 | h0
    · rw [h0, Memory.slice_zero, Memory.slice_zero]
    · have hrp : rb.rp = 0 := by
        by_contra hrp
        exact hc ⟨h0, hrp⟩
      rw [hrp]

end ReactorReadBuffer

open ReactorReadBuffer (length_pending)

/-- **A buffer that was grown for a chunk has room for it.** -/
theorem growFor_of_some (size : Nat) : ∀ (fuel : Nat) {rb rb' : ReactorReadBuffer}, rb.Inv →
    growFor size fuel rb = some rb' → rb'.Inv ∧ rb'.rp = rb.rp ∧ rb'.bytesavail = rb.bytesavail ∧
      rb'.pending = rb.pending ∧ rb'.bytesavail + size ≤ rb'.buf.length
  | 0, _, _, _, hg => by cases hg
  | fuel + 1, rb, rb', h, hg => by
    have ha := h.avail_le
    rw [growFor, ReactorReadBuffer.spaceRemain_eq h] at hg
    split at hg
    · obtain ⟨rb₁, hgrow, hg⟩ := Option.bind_eq_some_iff.1 hg
      obtain ⟨hi, hrp, hav, hp, -⟩ := ReactorReadBuffer.grow_of_some h hgrow
      obtain ⟨hi', hrp', hav', hp', hroom⟩ := growFor_of_some size fuel hi hg
      exact ⟨hi', hrp'.trans hrp, hav'.trans hav, hp'.trans hp, hroom⟩
    · cases hg
      exact ⟨h, rfl, rfl, rfl, by omega⟩

/-- Every turn adds a byte or more of room. -/
theorem growFor_exists (size : Nat) : ∀ (fuel : Nat) {rb : ReactorReadBuffer}, rb.Inv → rb.bytesavail + size < 2 ^ 62 →
    size + rb.bytesavail ≤ rb.buf.length + fuel → ∃ rb', growFor size (fuel + 1) rb = some rb'
  | fuel, rb, h, hlt, hfuel => by
    have ha := h.avail_le
    rw [growFor, ReactorReadBuffer.spaceRemain_eq h]
    split
    · rename_i hc
      obtain ⟨rb₁, hgrow⟩ := ReactorReadBuffer.grow_exists rb (by omega)
      obtain ⟨hi, -, hav, -, hcap⟩ := ReactorReadBuffer.grow_of_some h hgrow
      obtain ⟨k, rfl⟩ : ∃ k, fuel = k + 1 := ⟨fuel - 1, by omega⟩
      rw [hgrow, Option.bind_some]
      exact growFor_exists size k hi (by omega) (by omega)
    · exact ⟨rb, rfl⟩

/-- **What the copy loop does**: the chunks in front of the sentinel go behind what the buffer holds, and those behind it
stay. -/
theorem copyChunks_spec : ∀ (fifo : List Bytes) {rb : ReactorReadBuffer} {r : ReactorReadBuffer × List Bytes × Bool},
    rb.Inv → rb.rp = 0 → copyChunks rb fifo = some r →
      r.1.Inv ∧ r.1.rp = 0 ∧ r.1.pending = rb.pending ++ (fifo.takeWhile (· ≠ [])).flatten ∧
        r.2 = ((fifo.dropWhile (· ≠ [])).drop 1, decide ([] ∈ fifo))
  | [], rb, r, h, hrp, hc => by
    cases hc
    exact ⟨h, hrp, by simp, by simp⟩
  | [] :: fifo, rb, r, h, hrp, hc => by
    cases hc
    exact ⟨h, hrp, by simp, by simp⟩
  | (b :: bs) :: fifo, rb, r, h, hrp, hc => by
    rw [copyChunks] at hc
    obtain ⟨rb₁, hg, hc⟩ := Option.bind_eq_some_iff.1 hc
    obtain ⟨hi, hrp₁, -, hp, hroom⟩ := growFor_of_some _ _ h hg
    obtain ⟨hi₂, hrp₂, hp₂⟩ := ReactorReadBuffer.write_spec hi (hrp₁.trans hrp) hroom
    obtain ⟨hi', hrp', hp', hrest⟩ := copyChunks_spec fifo hi₂ hrp₂ hc
    refine ⟨hi', hrp', ?_, ?_⟩
    · rw [hp', hp₂, hp, List.append_assoc]
      simp
    · rw [hrest]
      simp

/-- The sentinel itself holds no byte. -/
theorem flatten_around_sentinel : ∀ fifo : List Bytes,
    (fifo.takeWhile (· ≠ [])).flatten ++ ((fifo.dropWhile (· ≠ [])).drop 1).flatten = fifo.flatten
  | [] => rfl
  | [] :: fifo => by simp
  | (b :: bs) :: fifo => by
    have ih := flatten_around_sentinel fifo
    simp only [ne_eq, reduceCtorEq, not_false_eq_true, decide_true, List.takeWhile_cons_of_pos, List.dropWhile_cons_of_pos,
      List.flatten_cons, List.append_assoc] at ih ⊢
    rw [ih]

/-- Nothing is lost on the way. -/
theorem copyChunks_of_some (fifo : List Bytes) {rb : ReactorReadBuffer} {r : ReactorReadBuffer × List Bytes × Bool}
    (h : rb.Inv) (hrp : rb.rp = 0) (hc : copyChunks rb fifo = some r) :
    r.1.Inv ∧ r.1.rp = 0 ∧ r.1.pending ++ r.2.1.flatten = rb.pending ++ fifo.flatten := by
  obtain ⟨hi, hrp', hp, hrest⟩ := copyChunks_spec fifo h hrp hc
  refine ⟨hi, hrp', ?_⟩
  rw [hp, hrest, List.append_assoc, flatten_around_sentinel]

theorem copyChunks_exists : ∀ (fifo : List Bytes) {rb : ReactorReadBuffer}, rb.Inv → rb.rp = 0 →
    rb.bytesavail + fifo.flatten.length < 2 ^ 62 → ∃ r, copyChunks rb fifo = some r
  | [], _, _, _, _ | [] :: _, _, _, _, _ => ⟨_, rfl⟩
  | (b :: bs) :: fifo, rb, h, hrp, hlt => by
    rw [List.flatten_cons, List.length_append] at hlt
    have ha := h.avail_le
    obtain ⟨rb₁, hg⟩ := growFor_exists (b :: bs).length (b :: bs).length h (by omega) (by omega)
    obtain ⟨hi, hrp₁, hav, -, hroom⟩ := growFor_of_some _ _ h hg
    obtain ⟨hi₂, hrp₂, -⟩ := ReactorReadBuffer.write_spec hi (hrp₁.trans hrp) hroom
    have hav₂ : (rb₁.write (b :: bs)).bytesavail = rb.bytesavail + (b :: bs).length := by
      rw [← hav]
      rfl
    rw [copyChunks, hg, Option.bind_some]
    exact copyChunks_exists fifo hi₂ hrp₂ (by omega)

/-- Without a sentinel all chunks are copied. -/
theorem copyChunks_data (fifo : List Bytes) {rb : ReactorReadBuffer} {r : ReactorReadBuffer × List Bytes × Bool}
    (h : rb.Inv) (hrp : rb.rp = 0) (hne : ∀ c ∈ fifo, c ≠ []) (hc : copyChunks rb fifo = some r) : r.2 = ([], false) := by
  obtain ⟨-, -, -, hrest⟩ := copyChunks_spec fifo h hrp hc
  have hnil : [] ∉ fifo := fun hm => hne [] hm rfl
  have hall : ∀ c ∈ fifo, decide (c ≠ []) = true := fun c hm => decide_eq_true (hne c hm)
  rw [hrest, List.dropWhile_eq_nil_iff.2 hall, decide_eq_false hnil, List.drop_nil]

/-! ## `do_work` drains the stream -/

/-- The session threw: it sent an error reply. -/
def threw (es : List InputEvent) : Prop := ∃ m, .enqueueToSend m ∈ es

theorem delivered_append (es fs : List InputEvent) : delivered (es ++ fs) = delivered es ++ delivered fs := by
  simp [delivered]

theorem threw_append (es fs : List InputEvent) : threw (es ++ fs) ↔ threw es ∨ threw fs := by
  simp only [threw, List.mem_append, exists_or]

/-- What `process_input` makes of the bytes the buffer holds. -/
theorem processInput_spec (ioHandle : Bool) (beyond past : UInt8) {rb : ReactorReadBuffer}
    (hlt : rb.bytesavail < 2 ^ 31) {r : Nat × List InputEvent}
    (hr : processInput ioHandle beyond (rb.buf.drop rb.rp) (Word.toInt 32 rb.bytesavail) = r) :
    (∃ n m, sessionDecode past rb.pending = .done n m ∧ r = (n, [.onMsg m])) ∨
    (sessionDecode past rb.pending = .more ∧ r = (0, [])) ∨
    (sessionDecode past rb.pending = .fault ∧ r.1 = 0 ∧ delivered r.2 = []) := by
  have hlen : Word.ofInt 64 (Word.toInt 32 rb.bytesavail) = rb.bytesavail := by
    rw [Word.toInt_of_lt (by decide) hlt, Word.ofInt_natCast (by omega)]
  rw [processInput] at hr
  simp only [hlen] at hr
  rw [sessionDecode_past past (((rb.buf.drop rb.rp).drop rb.bytesavail).headD beyond), sessionDecode,
    ReactorReadBuffer.pending, slice]
  cases hd : decodeMsg 64 (some (((rb.buf.drop rb.rp).drop rb.bytesavail).headD beyond)) .empty
      ((rb.buf.drop rb.rp).take rb.bytesavail) with
  | error e =>
    rw [hd] at hr
    refine .inr (.inr ⟨rfl, by rw [← hr], ?_⟩)
    rw [← hr]
    cases ioHandle <;> rfl
  | ok x =>
    obtain ⟨_ | n, m⟩ := x
    · rw [hd] at hr
      exact .inr (.inl ⟨rfl, hr.symm⟩)
    · rw [hd] at hr
      exact .inl ⟨n + 1, m, rfl, hr.symm⟩

theorem inputLoop_of_zero {ioHandle : Bool} {beyond : UInt8} {fuel : Nat} {rb : ReactorReadBuffer}
    (h : rb.bytesavail = 0) : inputLoop ioHandle beyond (fuel + 1) rb = (rb, []) := by
  rw [inputLoop, if_pos h]

theorem inputLoop_of_ne {ioHandle : Bool} {beyond : UInt8} {fuel n : Nat} {rb : ReactorReadBuffer} {es : List InputEvent}
    (h : rb.bytesavail ≠ 0)
    (hr : processInput ioHandle beyond (rb.buf.drop rb.rp) (Word.toInt 32 rb.bytesavail) = (n, es)) :
    inputLoop ioHandle beyond (fuel + 1) rb =
      if 0 < n then ((inputLoop ioHandle beyond fuel (rb.consume n)).1, es ++ (inputLoop ioHandle beyond fuel (rb.consume n)).2)
      else (rb, es) := by
  rw [inputLoop, if_neg h, hr]

/-- **Offering the buffer until nothing more is taken drains it.** -/
theorem inputLoop_spec (ioHandle : Bool) (beyond past : UInt8) : ∀ (fuel : Nat) (rb : ReactorReadBuffer), rb.Inv →
    rb.bytesavail < 2 ^ 31 → rb.bytesavail < fuel →
      ∃ rb' es, inputLoop ioHandle beyond fuel rb = (rb', es) ∧ rb'.Inv ∧
        rb'.pending = (Stream.drain (sessionDecode past) rb.pending).2 ∧
        delivered es = (Stream.drain (sessionDecode past) rb.pending).1 ∧
        (threw es → sessionDecode past rb'.pending = .fault)
  | 0, rb, _, _, hf => by omega
  | fuel + 1, rb, h, hlt, hf => by
    by_cases h0 : rb.bytesavail = 0
    · have hp : rb.pending = [] := List.length_eq_zero_iff.1 (by rw [length_pending h, h0])
      refine ⟨rb, [], inputLoop_of_zero h0, h, ?_, ?_, fun ⟨m, hm⟩ => by cases hm⟩
      · rw [hp]; rfl
      · rw [hp]; rfl
    generalize hr : processInput ioHandle beyond (rb.buf.drop rb.rp) (Word.toInt 32 rb.bytesavail) = r
    rcases processInput_spec ioHandle beyond past hlt hr with ⟨n, m, hd, rfl⟩ | ⟨hd, rfl⟩ | ⟨hd, hz, hdel⟩
    · -- a message: consume it and go on
      obtain ⟨hpos, hle⟩ := (sessionDecode_stable past).bound hd
      rw [length_pending h] at hle
      obtain ⟨hi, hav, hp⟩ := ReactorReadBuffer.consume_spec h hle
      obtain ⟨rb', es, hl, hi', hp', hdel, hthrew⟩ :=
        inputLoop_spec ioHandle beyond past fuel (rb.consume n) hi (by omega) (by omega)
      refine ⟨rb', .onMsg m :: es, ?_, hi', ?_, ?_, ?_⟩
      · rw [inputLoop_of_ne h0 hr, if_pos hpos, hl]; rfl
      · rw [Stream.drain_of_done (sessionDecode_stable past) hd, hp', hp]
      · rw [Stream.drain_of_done (sessionDecode_stable past) hd, ← hp, ← hdel]; rfl
      · rintro ⟨m', hm'⟩
        exact hthrew ⟨m', by simpa using hm'⟩
    · refine ⟨rb, [], ?_, h, ?_, ?_, fun ⟨m, hm⟩ => by cases hm⟩
      · rw [inputLoop_of_ne h0 hr, if_neg (Nat.lt_irrefl 0)]
      · rw [Stream.drain_of_stop (by simp [hd])]
      · rw [Stream.drain_of_stop (by simp [hd])]; rfl
    · obtain ⟨n, es⟩ := r
      simp only at hz hdel
      subst hz
      refine ⟨rb, es, ?_, h, ?_, ?_, fun _ => hd⟩
      · rw [inputLoop_of_ne h0 hr, if_neg (Nat.lt_irrefl 0)]
      · rw [Stream.drain_of_fault hd]
      · rw [Stream.drain_of_fault hd, hdel]

/-- Once the chunks are copied, `do_work` drains the buffer. -/
theorem doWork_of_copy (ioHandle : Bool) (beyond past : UInt8) {s : Inbound} (hcb : s.cb = true)
    {r : ReactorReadBuffer × List Bytes × Bool} (hc : copyChunks s.buf s.datafifo = some r) (h : r.1.Inv)
    (hlt : r.1.bytesavail < 2 ^ 31) :
    ∃ rb es, doWork ioHandle beyond s =
        some (if r.2.2 then (⟨false, rb, []⟩, es ++ [.processClose]) else (⟨true, rb, r.2.1⟩, es)) ∧
      rb.Inv ∧ rb.rp = 0 ∧ rb.pending = (Stream.drain (sessionDecode past) r.1.pending).2 ∧
      delivered es = (Stream.drain (sessionDecode past) r.1.pending).1 ∧
      (threw es → sessionDecode past rb.pending = .fault) := by
  obtain ⟨rb, es, hl, hi, hp, hdel, hthrew⟩ :=
    inputLoop_spec ioHandle beyond past (r.1.bytesavail + 1) r.1 h hlt (by omega)
  obtain ⟨hi', hrp', hp'⟩ := ReactorReadBuffer.shift_spec hi
  refine ⟨rb.shiftPendingToArrayStart, es, ?_, hi', hrp', ?_, hdel, ?_⟩
  · rw [doWork, if_neg (by simp [hcb]), hc, Option.map_some]
    simp only [hl]
  · rw [hp', hp]
  · rw [hp']; exact hthrew

/-- **`do_work` drains what was pending and every chunk of the fifo.** -/
theorem doWork_eq (ioHandle : Bool) (beyond past : UInt8) {s : Inbound} (hcb : s.cb = true) (h : s.buf.Inv)
    (hrp : s.buf.rp = 0) (hne : ∀ c ∈ s.datafifo, c ≠ []) (hlt : s.buf.bytesavail + s.datafifo.flatten.length < 2 ^ 31) :
    ∃ rb es, doWork ioHandle beyond s = some (⟨true, rb, []⟩, es) ∧ rb.Inv ∧ rb.rp = 0 ∧
      rb.pending = (Stream.drain (sessionDecode past) (s.buf.pending ++ s.datafifo.flatten)).2 ∧
      delivered es = (Stream.drain (sessionDecode past) (s.buf.pending ++ s.datafifo.flatten)).1 ∧
      (threw es → sessionDecode past rb.pending = .fault) := by
  obtain ⟨⟨rb₁, fifo, close⟩, hc⟩ := copyChunks_exists s.datafifo h hrp (by omega)
  obtain ⟨hi₁, -, hp₁⟩ := copyChunks_of_some s.datafifo h hrp hc
  cases copyChunks_data s.datafifo h hrp hne hc
  rw [List.flatten_nil, List.append_nil] at hp₁
  have hav : rb₁.bytesavail < 2 ^ 31 := by
    rw [← length_pending hi₁, hp₁, List.length_append, length_pending h]; exact hlt
  obtain ⟨rb, es, hw, hi, hrp', hp, hdel, hthrew⟩ := doWork_of_copy ioHandle beyond past hcb hc hi₁ hav
  rw [hp₁] at hp hdel
  exact ⟨rb, es, hw, hi, hrp', hp, hdel, hthrew⟩

/-! ## Whole runs -/

/-- **Where a run stands**: it has drained the bytes `w`, done `es`, and keeps the rest of `w` in the buffer. -/
structure Tracks (past : UInt8) (w : Bytes) (es : List InputEvent) (s : Inbound) : Prop where
  cb       : s.cb = true
  inv      : s.buf.Inv
  start    : s.buf.rp = 0
  chunks   : ∀ c ∈ s.datafifo, c ≠ []
  pending  : s.buf.pending = (Stream.drain (sessionDecode past) w).2
  messages : delivered es = (Stream.drain (sessionDecode past) w).1
  failed   : threw es → sessionDecode past s.buf.pending = .fault

theorem Tracks.new (past : UInt8) : Tracks past [] [] Inbound.new where
  cb := rfl
  inv := ReactorReadBuffer.new_inv (by decide)
  start := rfl
  chunks := fun c hc => by cases hc
  pending := ReactorReadBuffer.new_pending 4096
  messages := rfl
  failed := fun ⟨m, hm⟩ => by cases hm

/-- Draining on from where a run stands. -/
theorem drain_tracked {past : UInt8} {w es s} (h : Tracks past w es s) (tl : Bytes) :
    Stream.drain (sessionDecode past) (w ++ tl) =
      (delivered es ++ (Stream.drain (sessionDecode past) (s.buf.pending ++ tl)).1,
        (Stream.drain (sessionDecode past) (s.buf.pending ++ tl)).2) := by
  rw [h.messages, h.pending]
  exact Stream.drain_append (sessionDecode_stable past) w tl

theorem tracked_length {past : UInt8} {w es s} (h : Tracks past w es s) : s.buf.bytesavail ≤ w.length := by
  rw [← length_pending h.inv, h.pending]
  exact Stream.drain_length (sessionDecode_stable past) w

/-- A step of a run: the bytes drained grow by the fifo, or the fifo by a chunk; after a throw nothing is delivered. -/
theorem inputStep_tracks (ioHandle : Bool) (beyond : UInt8) {past : UInt8} {w : Bytes} {es : List InputEvent} {s : Inbound}
    {a : InputStep} (h : Tracks past w es s) (ha : ∀ c, a = .read c → c ≠ [])
    (hlt : w.length + s.datafifo.flatten.length + (received [a]).length < 2 ^ 31) :
    ∃ s' fs w', inputStep ioHandle beyond s a = some (s', fs) ∧ Tracks past w' (es ++ fs) s' ∧
      w ++ s.datafifo.flatten ++ received [a] = w' ++ s'.datafifo.flatten ∧ (a = .work → s'.datafifo = []) ∧
      (threw es → delivered fs = []) := by
  cases a with
  | read c =>
    refine ⟨{ s with datafifo := s.datafifo ++ [c] }, [], w, rfl, ?_, ?_, (fun ha => by cases ha), fun _ => rfl⟩
    · rw [List.append_nil]
      refine { h with chunks := fun x hx => ?_ }
      rcases List.mem_append.1 hx with hx | hx
      · exact h.chunks x hx
      · rw [List.mem_singleton.1 hx]; exact ha c rfl
    · simp [received]
  | work =>
    have hle := tracked_length h
    obtain ⟨rb, fs, hw, hi, hrp, hp, hdel, hthrew⟩ := doWork_eq ioHandle beyond past h.cb h.inv h.start h.chunks (by omega)
    have hdr := drain_tracked h s.datafifo.flatten
    refine ⟨⟨true, rb, []⟩, fs, w ++ s.datafifo.flatten, hw, ⟨rfl, hi, hrp, fun c hc => (by cases hc), ?_, ?_, ?_⟩, ?_,
      fun _ => rfl, fun ht => ?_⟩
    · rw [hdr]; exact hp
    · rw [delivered_append, hdr, hdel]
    · rw [threw_append]
      rintro (ht | ht)
      · rw [hp, Stream.drain_of_fault ((sessionDecode_stable past).fault _ (h.failed ht))]
        exact (sessionDecode_stable past).fault _ (h.failed ht)
      · exact hthrew ht
    · simp [received]
    · rw [hdel, Stream.drain_of_fault ((sessionDecode_stable past).fault _ (h.failed ht))]

theorem received_cons (a : InputStep) (as : List InputStep) : received (a :: as) = received [a] ++ received as := by
  simp [received]

/-- **A run drains the stream it was given.** -/
theorem inputRun_tracks (ioHandle : Bool) (beyond : UInt8) {past : UInt8} : ∀ (as : List InputStep) {w : Bytes}
    {es : List InputEvent} {s : Inbound}, Tracks past w es s → (∀ c, .read c ∈ as → c ≠ []) →
    w.length + s.datafifo.flatten.length + (received as).length < 2 ^ 31 →
      ∃ s' fs w', inputRun ioHandle beyond s as = some (s', fs) ∧ Tracks past w' (es ++ fs) s' ∧
        w ++ s.datafifo.flatten ++ received as = w' ++ s'.datafifo.flatten ∧
        (as.getLast? = some .work → s'.datafifo = []) ∧ (threw es → delivered fs = [])
  | [], w, es, s, h, _, _ => by
    refine ⟨s, [], w, rfl, ?_, ?_, (fun ha => by cases ha), fun _ => rfl⟩
    · rw [List.append_nil]; exact h
    · simp [received]
  | a :: as, w, es, s, h, hc, hlt => by
    rw [received_cons, List.length_append] at hlt
    obtain ⟨s₁, fs₁, w₁, hs, h₁, hw₁, hl₁, ht₁⟩ := inputStep_tracks ioHandle beyond (a := a) h
      (fun c hac => hc c (by simp [hac])) (by omega)
    have hlen := congrArg List.length hw₁
    simp only [List.length_append] at hlen
    obtain ⟨s', fs, w', hr, h', hw', hl', ht'⟩ := inputRun_tracks ioHandle beyond as h₁ (fun c hac => hc c (by simp [hac])) (by omega)
    refine ⟨s', fs₁ ++ fs, w', ?_, ?_, ?_, ?_, ?_⟩
    · rw [inputRun, hs, Option.bind_some, hr]; rfl
    · rw [← List.append_assoc]; exact h'
    · rw [← hw', ← hw₁, received_cons, ← List.append_assoc]
    · intro hlast
      cases as with
      | nil =>
        cases hr
        exact hl₁ (by simpa using hlast)
      | cons b bs => exact hl' (by rw [← hlast, List.getLast?_cons_cons])
    · intro ht
      rw [delivered_append, ht₁ ht, ht' ((threw_append es fs₁).2 (.inl ht))]
      rfl

theorem inputRun_append {ioHandle : Bool} {beyond : UInt8} : ∀ (as bs : List InputStep) (s : Inbound),
    inputRun ioHandle beyond s (as ++ bs) = (inputRun ioHandle beyond s as).bind fun r =>
      (inputRun ioHandle beyond r.1 bs).map fun q => (q.1, r.2 ++ q.2)
  | [], bs, s => by simp [inputRun]
  | a :: as, bs, s => by
    rw [List.cons_append, inputRun, inputRun]
    cases inputStep ioHandle beyond s a with
    | none => rfl
    | some r =>
      rw [Option.bind_some, Option.bind_some, inputRun_append as bs r.1]
      cases inputRun ioHandle beyond r.1 as with
      | none => rfl
      | some q =>
        simp only [Option.bind_some, Option.map_some]
        cases inputRun ioHandle beyond q.1 bs with
        | none => rfl
        | some p => simp

/-- **Chunking independence.**  However a stream below `2 ^ 31` bytes is cut into chunks, and however the chunks are
spread over `do_work` calls, the messages handed to `io_onmsg` are those of the stream that was copied, which is all of it
once a `do_work` comes last; and after the decoder threw none is handed over. -/
theorem inputRun_delivers (ioHandle : Bool) (beyond past : UInt8) (as : List InputStep)
    (hchunks : ∀ c, .read c ∈ as → 1 ≤ c.length ∧ c.length ≤ 1024) (htotal : (received as).length < 2 ^ 31) :
    ∃ s es w, inputRun ioHandle beyond Inbound.new as = some (s, es) ∧ delivered es = decodeStream past w ∧
      received as = w ++ s.datafifo.flatten ∧ (as.getLast? = some .work → w = received as) ∧
      ∀ pre post, as = pre ++ post → ∀ s₁ es₁, inputRun ioHandle beyond Inbound.new pre = some (s₁, es₁) → threw es₁ →
        ∃ es₂, es = es₁ ++ es₂ ∧ delivered es₂ = [] := by
  have hne : ∀ c, .read c ∈ as → c ≠ [] := fun c hc h0 => by
    have := (hchunks c hc).1
    rw [h0, List.length_nil] at this
    omega
  obtain ⟨s, es, w, hr, ht, hw, hlast, -⟩ := inputRun_tracks ioHandle beyond as (Tracks.new past) hne
    (by simpa [Inbound.new] using htotal)
  rw [List.nil_append] at ht
  simp only [Inbound.new, List.flatten_nil, List.nil_append] at hw
  refine ⟨s, es, w, hr, ht.messages, hw, ?_, ?_⟩
  · intro hl
    rw [hw, hlast hl, List.flatten_nil, List.append_nil]
  · rintro pre post rfl s₁ es₁ hpre hthrew
    have hrec : (received (pre ++ post)) = received pre ++ received post := by simp [received]
    rw [hrec, List.length_append] at htotal
    obtain ⟨s₁', es₁', w₁, hpre', ht₁, hw₁, -, -⟩ := inputRun_tracks ioHandle beyond pre
      (Tracks.new past) (fun c hc => hne c (by simp [hc])) (by simp only [Inbound.new, List.flatten_nil, List.length_nil]; omega)
    rw [hpre] at hpre'
    cases hpre'
    rw [List.nil_append] at ht₁
    simp only [Inbound.new, List.flatten_nil, List.nil_append] at hw₁
    have hlen := congrArg List.length hw₁
    rw [List.length_append] at hlen
    obtain ⟨s₂, es₂, w₂, hpost, -, -, -, hsilent⟩ := inputRun_tracks ioHandle beyond post ht₁
      (fun c hc => hne c (by simp [hc])) (by omega)
    rw [inputRun_append, hpre, Option.bind_some, hpost, Option.map_some, Option.some.injEq, Prod.mk.injEq] at hr
    exact ⟨es₂, hr.2.symm, hsilent hthrew⟩

/-- A frame of one empty message, cut inside its header and worked on in between. -/
def sampleInput : List InputStep :=
  [.read (ascii "\x7bSAM0100"), .work, .read (ascii ":18:t:"), .read (ascii "[]\x7d\n"), .work]

theorem inputRun_delivers_sample :
    ∃ s es w, inputRun true 0 Inbound.new sampleInput = some (s, es) ∧ delivered es = decodeStream 0 w ∧
      received sampleInput = w ++ s.datafifo.flatten ∧ (sampleInput.getLast? = some .work → w = received sampleInput) ∧
      ∀ pre post, sampleInput = pre ++ post → ∀ s₁ es₁, inputRun true 0 Inbound.new pre = some (s₁, es₁) → threw es₁ →
        ∃ es₂, es = es₁ ++ es₂ ∧ delivered es₂ = [] := by
  refine inputRun_delivers true 0 0 sampleInput (fun c hc => ?_) (by decide)
  simp only [sampleInput, List.mem_cons, InputStep.read.injEq, List.not_mem_nil, or_false, reduceCtorEq, false_or] at hc
  rcases hc with rfl | rfl | rfl <;> decide

example : decodeStream 0 (received sampleInput) = [⟨ascii "t", []⟩] := by decide

end Exio
