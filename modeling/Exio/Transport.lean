import Mathlib.Data.List.TakeWhile
import Exio.SamRoundTrip
import Exio.SessionSend
import Exio.OrderlyClose
/-!
# Transport — from `enqueueToSend` of one process to `io_onmsg` of the other

One direction of a connection.  Threads of the sending process encode messages and put them on the outbound queue of the
session's client; its reactor writes the queue to the socket, in pieces of any size (`ClientOutput`).  The reactor of the
receiving process reads chunks of at most 1024 bytes, and its workers copy them to the read buffer and offer that to the
session (`ClientInput`).  The connection may end at any point of the stream.  The network hands on the bytes that were sent,
in order.

What the two halves know of their own bytes meets in the stream: the accepted messages are its frames, and a piece of it
from the start on gives the first of them (`Stream.drain_piece`).  Left out is `release` of the receiving client.
-/
namespace Exio

open Sam
open Memory (slice)
open Sam.DynamicSamBuffer (frame frameLen)

/-! ## The state -/

/-- The sending session and its outbound queue, with the messages the queue took; the receiving client with the number of
bytes it has read and what it did. -/
structure Wire where
  sessionValid : Bool
  out          : Outbound
  messages     : List TxMessage
  input        : Inbound
  arrived      : Nat
  ioClosed     : Bool
  events       : List InputEvent

def Wire.new : Wire := ⟨true, .new, [], .new, 0, false, []⟩

inductive WireAct where
  /- the sending process -/
  | enqueueToSend (addr : Nat) (msg : TxMessage)
  | close (addr : Nat)
  | processClose
  | handleOutput (a : OutputAct)
  /- the receiving process -/
  | handleInput (n : Nat)
  | handleClose
  | doWork

/-- **One step of one thread**; `ioHandle` and `beyond` are those of the receiver's `process_input`. -/
def wireStep (ioHandle : Bool) (beyond : UInt8) (s : Wire) : WireAct → Option Wire
  | .enqueueToSend addr msg =>
    if s.sessionValid = false then some s
    else
      match encodeQueued msg with
      | .error _       => some s
      | .ok (size, sb) =>
        let buf := slice sb.buf sb.msgStart size
        (outStep s.out (.queue addr (some buf) false)).map fun out =>
          { s with out := out, messages := s.messages ++ if (s.out.q.queue addr (some buf) false).2 = 0 then [msg] else [] }
  | .close addr   => (outStep s.out (.queue addr none true)).map fun out => { s with out := out }
  | .processClose => some { s with sessionValid := false }
  | .handleOutput (.queue ..) => none
  | .handleOutput a => (outStep s.out a).map fun out => { s with out := out }
  | .handleInput n =>
    if s.ioClosed = false ∧ 1 ≤ n ∧ n ≤ chunkSize ∧ s.arrived + n ≤ s.out.sent.length then
      some { s with
        input   := { s.input with datafifo := s.input.datafifo ++ [slice s.out.sent s.arrived n] }
        arrived := s.arrived + n }
    else none
  | .handleClose =>
    if s.ioClosed = false then
      some { s with input := { s.input with datafifo := s.input.datafifo ++ [[]] }, ioClosed := true }
    else none
  | .doWork =>
    (Exio.doWork ioHandle beyond s.input).map fun r => { s with input := r.1, events := s.events ++ r.2 }

/-- **The queue is that of `enqueueToSend`**, whatever becomes of the message. -/
theorem wireStep_enqueueToSend {ioHandle : Bool} {beyond : UInt8} {s : Wire} {addr : Nat} (ha : addr ≠ 0) (msg : TxMessage) :
    (wireStep ioHandle beyond s (.enqueueToSend addr msg)).map (fun t => some t.out.q) =
      some (enqueueToSend ⟨s.sessionValid, some s.out.q⟩ addr msg).1.ioHandle := by
  simp only [wireStep, enqueueToSend]
  cases s.sessionValid with
  | false => rfl
  | true =>
    cases encodeQueued msg with
    | error e => rfl
    | ok r => simp [outStep, ha]

/-! ## The two halves -/

theorem outStep_queue {s t : Outbound} {addr : Nat} {buf : Option Bytes} {closesocket : Bool}
    (hs : outStep s (.queue addr buf closesocket) = some t) :
    t = { s with q := (s.q.queue addr buf closesocket).1,
                 calls := s.calls ++ [⟨buf, closesocket, (s.q.queue addr buf closesocket).2⟩] } := by
  simp only [outStep] at hs
  split at hs
  · cases hs
  · exact (Option.some.inj hs).symm

/-- `handle_output` makes no calls of `queue`, and appends to what was sent. -/
theorem outStep_output {s t : Outbound} {a : OutputAct} (ha : ∀ addr buf closesocket, a ≠ .queue addr buf closesocket)
    (hs : outStep s a = some t) : t.calls = s.calls ∧ s.sent <+: t.sent := by
  cases a with
  | queue addr buf closesocket => exact absurd rfl (ha addr buf closesocket)
  | next =>
    simp only [outStep] at hs
    repeat' split at hs
    all_goals cases hs
    all_goals exact ⟨rfl, List.prefix_refl _⟩
  | sendFails =>
    simp only [outStep] at hs
    split at hs
    all_goals cases hs
    exact ⟨rfl, List.prefix_refl _⟩
  | send n =>
    simp only [outStep] at hs
    repeat' split at hs
    all_goals cases hs
    exact ⟨rfl, List.prefix_append _ _⟩
  | account =>
    simp only [outStep] at hs
    repeat' split at hs
    all_goals cases hs
    all_goals exact ⟨rfl, List.prefix_refl _⟩

theorem Outbound.Inv.sent_prefix {s : Outbound} (h : s.Inv) : s.sent <+: accepted s.calls := by
  obtain ⟨done, hacc, hsent⟩ := h.bytes
  rw [hacc, hsent]
  exact (List.prefix_append_right_inj done).2 (List.take_prefix _ _)

/-- What `queue` is given, where it is no more than `queue` can take. -/
theorem encodeQueued_encoding {msg : TxMessage} {n : Nat} {sb : DynamicSamBuffer} (h : encodeQueued msg = .ok (n, sb))
    (hn : n ≤ outPendMax) : slice sb.buf sb.msgStart n = encoding msg ∧ (encoding msg).length ≤ maxMsglen := by
  obtain ⟨hslice, hlen⟩ := encodeQueued_slice h
  obtain ⟨hsum, -, hframe⟩ := encodeMsg_payload (by decide) h
  have hmax : outPendMax = 104857600 := by decide
  have henc : frame n (payloadOf msg) = encoding msg := by rw [encoding, ← hframe (by omega)]
  refine ⟨hslice.trans henc, ?_⟩
  rw [← henc, hlen]
  simp only [maxMsglen]
  omega

/-- **What the queue takes of a message is its encoding.** -/
theorem queue_message {q : OutboundQueue} (hq : q.pending ≤ outPendMax) {msg : TxMessage} {n : Nat} {sb : DynamicSamBuffer}
    (h : encodeQueued msg = .ok (n, sb)) {addr : Nat}
    (hret : (q.queue addr (some (slice sb.buf sb.msgStart n)) false).2 = 0) :
    slice sb.buf sb.msgStart n = encoding msg ∧ (encoding msg).length ≤ maxMsglen := by
  obtain ⟨hslice, hlen⟩ := encodeQueued_slice h
  rcases queue_cases q addr (some (slice sb.buf sb.msgStart n)) false with ⟨-, hr⟩ | ⟨-, hr⟩ | ⟨-, hroom, -⟩
  · rw [hr] at hret; cases hret
  · rw [hr] at hret; cases hret
  · rw [room_eq hq, Option.getD_some, hslice, hlen] at hroom
    exact encodeQueued_encoding h (by omega)

/-! ## The stream between them -/

/-- **Where the bytes of the accepted messages are**: queued, sent, read into the fifo, or drained. -/
structure Wire.Inv (s : Wire) : Prop where
  out      : s.out.Inv
  bytes    : accepted s.out.calls = s.messages.flatMap encoding
  small    : ∀ m ∈ s.messages, (encoding m).length ≤ maxMsglen
  arrived  : s.arrived ≤ s.out.sent.length
  buf      : s.input.buf.Inv
  start    : s.input.buf.rp = 0
  opened   : s.ioClosed = false → [] ∉ s.input.datafifo
  sentinel : s.ioClosed = true → s.input.datafifo ≠ [] → ∃ data, [] ∉ data ∧ s.input.datafifo = data ++ [[]]
  dead     : s.input.cb = false → s.ioClosed = true ∧ s.input.datafifo = []
  drained  : ∃ w, w ++ s.input.datafifo.flatten = s.out.sent.take s.arrived ∧
    s.input.buf.pending = (Stream.drain (sessionDecode 0) w).2 ∧ delivered s.events = (Stream.drain (sessionDecode 0) w).1 ∧
    (threw s.events → sessionDecode 0 s.input.buf.pending = .fault)

theorem Wire.new_inv : Wire.new.Inv where
  out := Outbound.new_inv
  bytes := rfl
  small m hm := by cases hm
  arrived := Nat.le_refl 0
  buf := ReactorReadBuffer.new_inv (by decide)
  start := rfl
  opened _ h := by cases h
  sentinel h := by cases h
  dead h := by cases h
  drained := ⟨[], rfl, ReactorReadBuffer.new_pending 4096, rfl, fun ⟨m, hm⟩ => by cases hm⟩

/-- The size of the buffer fits an `int` when the chunks have been copied. -/
def Wire.Fits (s : Wire) : WireAct → Prop
  | .doWork => s.input.buf.bytesavail + s.input.datafifo.flatten.length < 2 ^ 31
  | _       => True

/-! ### The sender -/

/-- What was read stays the start of what was sent. -/
theorem Wire.Inv.output {s : Wire} (h : s.Inv) {out : Outbound} (hout : out.Inv) (hsent : s.out.sent <+: out.sent)
    {messages : List TxMessage} (hbytes : accepted out.calls = messages.flatMap encoding)
    (hsmall : ∀ m ∈ messages, (encoding m).length ≤ maxMsglen) :
    ({ s with out := out, messages := messages } : Wire).Inv := by
  obtain ⟨more, hmore⟩ := hsent
  obtain ⟨w, hw, hrest⟩ := h.drained
  refine { h with out := hout, bytes := hbytes, small := hsmall, arrived := ?_, drained := ⟨w, ?_, hrest⟩ }
  · rw [← hmore, List.length_append]
    exact Nat.le_add_right_of_le h.arrived
  · rw [hw, ← hmore, List.take_append_of_le_length h.arrived]

theorem Wire.Inv.enqueueToSend {ioHandle : Bool} {beyond : UInt8} {s t : Wire} (h : s.Inv) {addr : Nat} {msg : TxMessage}
    (hs : wireStep ioHandle beyond s (.enqueueToSend addr msg) = some t) : t.Inv := by
  simp only [wireStep] at hs
  split at hs
  · cases hs; exact h
  split at hs
  · cases hs; exact h
  rename_i size sb henc
  rw [Option.map_eq_some_iff] at hs
  obtain ⟨out, hout, rfl⟩ := hs
  have hcalls := outStep_queue hout
  have hsame : out.sent = s.out.sent := by rw [hcalls]
  have hsent : s.out.sent <+: out.sent := hsame ▸ List.prefix_refl _
  by_cases hret : (s.out.q.queue addr (some (slice sb.buf sb.msgStart size)) false).2 = 0
  · obtain ⟨hbuf, hsmall⟩ := queue_message h.out.max henc hret
    rw [if_pos hret]
    refine h.output (outStep_inv h.out hout) hsent ?_ fun m hm => ?_
    · rw [hcalls, accepted_append, h.bytes, List.flatMap_append, List.flatMap_singleton, if_pos hret, Option.getD_some, hbuf]
    · rcases List.mem_append.1 hm with hm | hm
      · exact h.small m hm
      · rw [List.mem_singleton.1 hm]; exact hsmall
  · rw [if_neg hret, List.append_nil]
    refine h.output (outStep_inv h.out hout) hsent ?_ h.small
    rw [hcalls, accepted_append, h.bytes, if_neg hret, List.append_nil]

theorem Wire.Inv.close {ioHandle : Bool} {beyond : UInt8} {s t : Wire} (h : s.Inv) {addr : Nat}
    (hs : wireStep ioHandle beyond s (.close addr) = some t) : t.Inv := by
  simp only [wireStep, Option.map_eq_some_iff] at hs
  obtain ⟨out, hout, rfl⟩ := hs
  have hcalls := outStep_queue hout
  have hsame : out.sent = s.out.sent := by rw [hcalls]
  refine h.output (outStep_inv h.out hout) (hsame ▸ List.prefix_refl _) ?_ h.small
  rw [hcalls, accepted_append, h.bytes, Option.getD_none, ite_self, List.append_nil]

theorem Wire.Inv.handleOutput {ioHandle : Bool} {beyond : UInt8} {s t : Wire} (h : s.Inv) {a : OutputAct}
    (hs : wireStep ioHandle beyond s (.handleOutput a) = some t) : t.Inv := by
  have hne : ∀ addr buf closesocket, a ≠ .queue addr buf closesocket := by
    rintro addr buf closesocket rfl
    cases hs
  have hs : (outStep s.out a).map (fun out => ({ s with out := out } : Wire)) = some t := by
    cases a with
    | queue addr buf closesocket => exact absurd rfl (hne addr buf closesocket)
    | next | sendFails | send n | account => exact hs
  obtain ⟨out, hout, rfl⟩ := Option.map_eq_some_iff.1 hs
  obtain ⟨hcalls, hsent⟩ := outStep_output hne hout
  exact h.output (outStep_inv h.out hout) hsent (by rw [hcalls, h.bytes]) h.small

/-! ### The receiver -/

theorem Wire.Inv.handleInput {ioHandle : Bool} {beyond : UInt8} {s t : Wire} (h : s.Inv) {n : Nat}
    (hs : wireStep ioHandle beyond s (.handleInput n) = some t) : t.Inv := by
  simp only [wireStep] at hs
  split at hs
  · rename_i hcond
    cases hs
    obtain ⟨hopen, hpos, -, hle⟩ := hcond
    obtain ⟨w, hw, hrest⟩ := h.drained
    have hlen : (slice s.out.sent s.arrived n).length = n := Memory.length_slice hle
    refine { h with
      arrived  := hle
      opened   := fun _ hmem => ?_
      sentinel := fun hc => by rw [hopen] at hc; cases hc
      dead     := fun hcb => by rw [(h.dead hcb).1] at hopen; cases hopen
      drained  := ⟨w, ?_, hrest⟩ }
    · rcases List.mem_append.1 hmem with hmem | hmem
      · exact h.opened hopen hmem
      · rw [← List.mem_singleton.1 hmem, List.length_nil] at hlen
        omega
    · rw [List.flatten_append, ← List.append_assoc, hw, List.take_add]
      simp [slice]
  · cases hs

theorem Wire.Inv.handleClose {ioHandle : Bool} {beyond : UInt8} {s t : Wire} (h : s.Inv)
    (hs : wireStep ioHandle beyond s .handleClose = some t) : t.Inv := by
  simp only [wireStep] at hs
  split at hs
  · rename_i hopen
    cases hs
    obtain ⟨w, hw, hrest⟩ := h.drained
    refine { h with
      opened   := fun hc => by cases hc
      sentinel := fun _ _ => ⟨s.input.datafifo, h.opened hopen, rfl⟩
      dead     := fun hcb => by rw [(h.dead hcb).1] at hopen; cases hopen
      drained  := ⟨w, by simpa using hw, hrest⟩ }
  · cases hs

/-- **The copy loop takes the whole fifo**, and meets the sentinel if and only if it is there. -/
theorem Wire.Inv.fifo {s : Wire} (h : s.Inv) :
    (s.input.datafifo.takeWhile (· ≠ [])).flatten = s.input.datafifo.flatten ∧
      (s.input.datafifo.dropWhile (· ≠ [])).drop 1 = [] := by
  have hdata : ∀ data : List Bytes, [] ∉ data → ∀ c ∈ data, decide (c ≠ []) = true := by
    intro data hdata c hc
    simp only [decide_eq_true_eq]
    rintro rfl
    exact hdata hc
  cases hopen : s.ioClosed with
  | false =>
    have hall := hdata _ (h.opened hopen)
    rw [List.takeWhile_eq_self_iff.2 hall, List.dropWhile_eq_nil_iff.2 hall]
    exact ⟨rfl, rfl⟩
  | true =>
    by_cases hnil : s.input.datafifo = []
    · rw [hnil]; exact ⟨rfl, rfl⟩
    · obtain ⟨data, hne, hfifo⟩ := h.sentinel hopen hnil
      have hall := hdata _ hne
      rw [hfifo, List.takeWhile_append_of_pos hall, List.dropWhile_append_of_pos hall]
      simp

theorem Wire.Inv.doWork {ioHandle : Bool} {beyond : UInt8} {s t : Wire} (h : s.Inv) (hfits : s.Fits .doWork)
    (hs : wireStep ioHandle beyond s .doWork = some t) : t.Inv := by
  simp only [wireStep, Option.map_eq_some_iff] at hs
  obtain ⟨⟨input, es⟩, hwork, rfl⟩ := hs
  cases hcb : s.input.cb with
  | false =>
    obtain ⟨-, hnil⟩ := h.dead hcb
    have hidle : Exio.doWork ioHandle beyond s.input = some (s.input, []) := by
      rw [Exio.doWork, if_pos hcb, ← hnil]
    rw [hidle] at hwork
    cases hwork
    rw [List.append_nil]
    exact h
  | true =>
    obtain ⟨r, hcopy⟩ : ∃ r, copyChunks s.input.buf s.input.datafifo = some r := by
      cases hc : copyChunks s.input.buf s.input.datafifo with
      | none => simp [Exio.doWork, hcb, hc] at hwork
      | some r => exact ⟨r, rfl⟩
    obtain ⟨hinv, -, hpend, hr⟩ := copyChunks_spec _ h.buf h.start hcopy
    obtain ⟨htake, hdrop⟩ := h.fifo
    rw [htake] at hpend
    have hlt : r.1.bytesavail < 2 ^ 31 := by
      rw [← ReactorReadBuffer.length_pending hinv, hpend, List.length_append, ReactorReadBuffer.length_pending h.buf]
      exact hfits
    obtain ⟨rb, fs, hdo, hbuf, hrp, hleft, hmsgs, hfault⟩ := doWork_of_copy ioHandle beyond 0 hcb hcopy hinv hlt
    obtain ⟨w, hw, hpending, hdeliv, hthrew⟩ := h.drained
    have hall := Stream.drain_append (sessionDecode_stable 0) w s.input.datafifo.flatten
    rw [← hpending, ← hpend, ← hdeliv] at hall
    rw [hwork, hr, hdrop] at hdo
    -- whether or not the sentinel was met, the fifo is empty and the rest of the stream is in the buffer
    have hdone : ∀ (cb : Bool) (es : List InputEvent), delivered es = delivered fs → (threw es → threw fs) →
        (cb = false → s.ioClosed = true) →
        ({ s with input := ⟨cb, rb, []⟩, events := s.events ++ es } : Wire).Inv := by
      intro cb es hes hthrows hclosed
      refine { h with
        buf      := hbuf
        start    := hrp
        opened   := fun _ hmem => by cases hmem
        sentinel := fun _ hne => absurd rfl hne
        dead     := fun hcb => ⟨hclosed hcb, rfl⟩
        drained  := ⟨w ++ s.input.datafifo.flatten, by rw [hw]; simp, ?_, ?_, ?_⟩ }
      · rw [hall]; exact hleft
      · rw [delivered_append, hes, hall, hmsgs]
      · rw [threw_append]
        rintro (ht | ht)
        · have hstay := (sessionDecode_stable 0).fault s.input.datafifo.flatten (hthrew ht)
          rw [← hpend] at hstay
          rw [hleft, Stream.drain_of_fault hstay]
          exact hstay
        · exact hfault (hthrows ht)
    split at hdo
    · rename_i hmet
      cases hdo
      refine hdone false _ (by simp [delivered]) ?_ (fun _ => ?_)
      · rw [threw_append]
        rintro (ht | ⟨m, hm⟩)
        · exact ht
        · cases List.mem_singleton.1 hm
      · cases hopen : s.ioClosed with
        | true => rfl
        | false => exact absurd (by simpa using hmet) (h.opened hopen)
    · cases hdo
      exact hdone true es rfl id (fun hc => by cases hc)

theorem wireStep_inv {ioHandle : Bool} {beyond : UInt8} {s t : Wire} (h : s.Inv) : ∀ {a : WireAct}, s.Fits a →
    wireStep ioHandle beyond s a = some t → t.Inv
  | .enqueueToSend _ _, _, hs => h.enqueueToSend hs
  | .close _, _, hs           => h.close hs
  | .processClose, _, hs      => by cases hs; exact { h with }
  | .handleOutput _, _, hs    => h.handleOutput hs
  | .handleInput _, _, hs     => h.handleInput hs
  | .handleClose, _, hs       => h.handleClose hs
  | .doWork, hfits, hs        => h.doWork hfits hs

/-- A step of the connection adds the message it is given, if any. -/
theorem wireStep_messages {ioHandle : Bool} {beyond : UInt8} {s t : Wire} {a : WireAct}
    (hs : wireStep ioHandle beyond s a = some t) :
    t.messages = s.messages ∨ ∃ addr m, a = .enqueueToSend addr m ∧ t.messages = s.messages ++ [m] := by
  cases a with
  | enqueueToSend addr msg =>
    simp only [wireStep] at hs
    split at hs
    · cases hs
      exact .inl rfl
    · split at hs
      · cases hs
        exact .inl rfl
      · obtain ⟨out, -, rfl⟩ := Option.map_eq_some_iff.1 hs
        split
        · exact .inr ⟨addr, msg, rfl, rfl⟩
        · exact .inl (List.append_nil _)
  | processClose =>
    cases hs
    exact .inl rfl
  | close addr =>
    obtain ⟨out, -, rfl⟩ := Option.map_eq_some_iff.1 hs
    exact .inl rfl
  | handleOutput a =>
    cases a with
    | queue addr buf closesocket => cases hs
    | next | sendFails | send n | account =>
      obtain ⟨out, -, rfl⟩ := Option.map_eq_some_iff.1 hs
      exact .inl rfl
  | handleInput n =>
    simp only [wireStep] at hs
    split at hs
    · cases hs
      exact .inl rfl
    · cases hs
  | handleClose =>
    simp only [wireStep] at hs
    split at hs
    · cases hs
      exact .inl rfl
    · cases hs
  | doWork =>
    obtain ⟨r, -, rfl⟩ := Option.map_eq_some_iff.1 hs
    exact .inl rfl

/-- **What a step of the connection leaves alone**: messages that were delivered stay so, only `process_close` makes the sender
invalid, only the reactor finds the connection closed, and a client whose callback is gone does nothing more. -/
structure Wire.Keeps (a : WireAct) (s t : Wire) : Prop where
  delivered : delivered s.events <+: delivered t.events
  valid     : a ≠ .processClose → t.sessionValid = s.sessionValid
  ioClosed  : a ≠ .handleClose → t.ioClosed = s.ioClosed
  dead      : s.input.cb = false → t.input.cb = false ∧ t.events = s.events

theorem wireStep_keeps {ioHandle : Bool} {beyond : UInt8} {s t : Wire} {a : WireAct} (hs : wireStep ioHandle beyond s a = some t) :
    Wire.Keeps a s t := by
  cases a with
  | enqueueToSend addr msg =>
    simp only [wireStep] at hs
    split at hs
    · cases hs
      exact ⟨List.prefix_refl _, fun _ => rfl, fun _ => rfl, fun hcb => ⟨hcb, rfl⟩⟩
    · split at hs
      · cases hs
        exact ⟨List.prefix_refl _, fun _ => rfl, fun _ => rfl, fun hcb => ⟨hcb, rfl⟩⟩
      · obtain ⟨out, -, rfl⟩ := Option.map_eq_some_iff.1 hs
        exact ⟨List.prefix_refl _, fun _ => rfl, fun _ => rfl, fun hcb => ⟨hcb, rfl⟩⟩
  | processClose =>
    cases hs
    exact ⟨List.prefix_refl _, fun h => absurd rfl h, fun _ => rfl, fun hcb => ⟨hcb, rfl⟩⟩
  | close addr =>
    obtain ⟨out, -, rfl⟩ := Option.map_eq_some_iff.1 hs
    exact ⟨List.prefix_refl _, fun _ => rfl, fun _ => rfl, fun hcb => ⟨hcb, rfl⟩⟩
  | handleOutput a =>
    cases a with
    | queue addr buf closesocket => cases hs
    | next | sendFails | send n | account =>
      obtain ⟨out, -, rfl⟩ := Option.map_eq_some_iff.1 hs
      exact ⟨List.prefix_refl _, fun _ => rfl, fun _ => rfl, fun hcb => ⟨hcb, rfl⟩⟩
  | handleInput n =>
    obtain ⟨-, hs⟩ := Option.ite_none_right_eq_some.1 hs
    cases hs
    exact ⟨List.prefix_refl _, fun _ => rfl, fun _ => rfl, fun hcb => ⟨hcb, rfl⟩⟩
  | handleClose =>
    obtain ⟨-, hs⟩ := Option.ite_none_right_eq_some.1 hs
    cases hs
    exact ⟨List.prefix_refl _, fun _ => rfl, fun h => absurd rfl h, fun hcb => ⟨hcb, rfl⟩⟩
  | doWork =>
    obtain ⟨r, hr, rfl⟩ := Option.map_eq_some_iff.1 hs
    refine ⟨?_, fun _ => rfl, fun _ => rfl, fun hcb => ?_⟩
    · rw [delivered_append]
      exact List.prefix_append ..
    · rw [Exio.doWork, if_pos hcb] at hr
      cases hr
      exact ⟨hcb, List.append_nil _⟩

/-- **A message that `enqueueToSend` reports as failed is not taken.** -/
theorem wireStep_enqueueFails {ioHandle : Bool} {beyond : UInt8} {s t : Wire} {addr : Nat} {m : TxMessage}
    (hs : wireStep ioHandle beyond s (.enqueueToSend addr m) = some t)
    (hfails : (Exio.enqueueToSend ⟨s.sessionValid, some s.out.q⟩ addr m).2 = true) : t.messages = s.messages := by
  simp only [wireStep] at hs
  cases hvalid : s.sessionValid with
  | false =>
    rw [if_pos hvalid] at hs
    cases hs
    rfl
  | true =>
    rw [if_neg (by simp [hvalid])] at hs
    rw [Exio.enqueueToSend, hvalid] at hfails
    cases henc : encodeQueued m with
    | error _ =>
      rw [henc] at hs
      cases hs
      rfl
    | ok r =>
      rw [henc] at hs hfails
      obtain ⟨out, -, rfl⟩ := Option.map_eq_some_iff.1 hs
      have hret : (s.out.q.queue addr (some (slice r.2.buf r.2.msgStart r.1)) false).2 = -1 := beq_iff_eq.1 hfails
      rw [if_neg (by rw [hret]; decide), List.append_nil]

/-- The sender does not touch what the receiver has read. -/
theorem wireStep_enqueueToSend_input {ioHandle : Bool} {beyond : UInt8} {s t : Wire} {addr : Nat} {m : TxMessage}
    (hs : wireStep ioHandle beyond s (.enqueueToSend addr m) = some t) : t.input = s.input := by
  simp only [wireStep] at hs
  split at hs
  · cases hs
    rfl
  · split at hs
    · cases hs
      rfl
    · obtain ⟨out, -, rfl⟩ := Option.map_eq_some_iff.1 hs
      rfl

/-! ## Every message arrives, once and in order -/

/-- A message that survives the wire. -/
def Plain (m : TxMessage) : Prop := metaDelim ∉ m.type ∧ escape ∉ m.type ∧ Everywhere Carried m.root

/-- **The session's decoder reads the frames of such messages.** -/
theorem sessionDecode_framed :
    Stream.Framed (sessionDecode 0) encoding (fun m => Plain m ∧ (encoding m).length ≤ maxMsglen) where
  nil := by decide
  reads {m} s := by
    rintro ⟨⟨htype, hesc, hroot⟩, hmax⟩
    obtain ⟨n, -, -, -, hframe, hn, hle⟩ := encodeMsg_frame hmax (show 512 ≤ vectorMaxSize by decide)
    have hdec := decodeMsg_frame (w := 64) (by decide) htype hesc hroot hn hle (some 0) .empty s
    have hpos : n ≠ 0 := by
      rintro rfl
      simp [frame, DynamicSamBuffer.headFor] at hn
    obtain ⟨k, rfl⟩ := Nat.exists_eq_succ_of_ne_zero hpos
    rw [hframe, hn, sessionDecode, hdec]

/-- What was read is a piece of the stream of the accepted messages. -/
theorem Wire.Inv.read_prefix {s : Wire} (h : s.Inv) : s.out.sent.take s.arrived <+: s.messages.flatMap encoding :=
  h.bytes ▸ (List.take_prefix _ _).trans h.out.sent_prefix

/-- **What the invariant says of the messages.** -/
theorem Wire.Inv.delivers {s : Wire} (h : s.Inv) (hplain : ∀ m ∈ s.messages, Plain m) :
    delivered s.events <+: s.messages ∧ ¬ threw s.events ∧
    (s.arrived = (accepted s.out.calls).length → s.input.datafifo = [] → delivered s.events = s.messages) := by
  have hframes : ∀ m ∈ s.messages, Plain m ∧ (encoding m).length ≤ maxMsglen := fun m hm => ⟨hplain m hm, h.small m hm⟩
  obtain ⟨w, hw, hpending, hdeliv, hthrew⟩ := h.drained
  obtain ⟨rest, hrest⟩ : w <+: s.messages.flatMap encoding := (List.prefix_append w _).trans (hw ▸ h.read_prefix)
  obtain ⟨hpre, hfault⟩ := Stream.drain_piece (sessionDecode_stable 0) sessionDecode_framed hframes hrest
  refine ⟨hdeliv ▸ hpre, fun ht => hfault (hpending ▸ hthrew ht), fun harrived hnil => ?_⟩
  have hall : w = s.messages.flatMap encoding := by
    rw [hnil, List.flatten_nil, List.append_nil] at hw
    have hlen := h.out.sent_prefix.length_le
    have harr := h.arrived
    rw [hw, h.out.sent_prefix.eq_of_length (by omega), harrived, List.take_length, h.bytes]
  rw [hdeliv, hall, Stream.drain_frames (sessionDecode_stable 0) sessionDecode_framed hframes]

theorem Wire.inv_of_reaches {ioHandle : Bool} {beyond : UInt8} {s : Wire}
    (hs : Steps.Reaches (wireStep ioHandle beyond) Wire.Fits Wire.new s) : s.Inv :=
  hs.invariant Wire.new_inv (fun hinv hfits hstep => wireStep_inv hinv hfits hstep)

/-- **Messages are delivered once each and in order**, in every state of every interleaving of the two processes, however
`send` and `read` cut the stream and wherever the connection ends: what `io_onmsg` has been given is a prefix of what the
outbound queue has taken, and all of it once everything has been sent, read and copied; and the decoder never gives up. -/
theorem wire_delivers (ioHandle : Bool) (beyond : UInt8) {s : Wire}
    (hs : Steps.Reaches (wireStep ioHandle beyond) Wire.Fits Wire.new s) (hplain : ∀ m ∈ s.messages, Plain m) :
    delivered s.events <+: s.messages ∧ ¬ threw s.events ∧
    (s.arrived = (accepted s.out.calls).length → s.input.datafifo = [] → delivered s.events = s.messages) :=
  (Wire.inv_of_reaches hs).delivers hplain

instance (s : Wire) : ∀ a, Decidable (s.Fits a)
  | .doWork => inferInstanceAs (Decidable (_ < 2 ^ 31))
  | .enqueueToSend .. | .close _ | .processClose | .handleOutput _ | .handleInput _ | .handleClose => isTrue trivial

/-- The first message is sent and read in two pieces with work in between, the second in one with the end of the stream. -/
def sampleWire : List WireAct :=
  [.enqueueToSend 8 ⟨ascii "t", []⟩, .handleOutput .next, .handleOutput (.send 10), .handleOutput .account, .handleInput 4,
    .handleInput 6, .doWork, .enqueueToSend 64 ⟨ascii "u", []⟩, .handleOutput .next, .handleOutput (.send 8),
    .handleOutput .account, .handleOutput .next, .handleOutput (.send 18), .handleOutput .account, .handleInput 26,
    .handleClose, .doWork]

theorem plain_samples : ∀ m ∈ [(⟨ascii "t", []⟩ : TxMessage), ⟨ascii "u", []⟩], Plain m := by
  simp only [List.forall_mem_cons, Plain]
  decide

theorem wire_delivers_sample : ∃ s, Steps.runIf (wireStep true 0) Wire.Fits Wire.new sampleWire = some s ∧
    s.messages = [⟨ascii "t", []⟩, ⟨ascii "u", []⟩] ∧ delivered s.events = s.messages := by
  have hrun : (Steps.runIf (wireStep true 0) Wire.Fits Wire.new sampleWire).map (fun s =>
      (s.messages, s.arrived, (accepted s.out.calls).length, s.input.datafifo)) =
      some ([⟨ascii "t", []⟩, ⟨ascii "u", []⟩], 36, 36, []) := by decide +kernel
  obtain ⟨s, hs, hfacts⟩ := Option.map_eq_some_iff.1 hrun
  simp only [Prod.mk.injEq] at hfacts
  obtain ⟨hmsgs, harrived, htotal, hfifo⟩ := hfacts
  have hall := wire_delivers true 0 (Steps.reaches_of_runIf _ hs) (hmsgs ▸ plain_samples)
  exact ⟨s, hs, hmsgs, hall.2.2 (by omega) hfifo⟩

/-! ## Every message can arrive -/

/-- A step of the sending reactor. -/
def OutputAct.Sends (_ : Outbound) : OutputAct → Prop
  | .queue .. => False
  | _         => True

/-- **The front item can be sent off**: the sentinel goes at once, data is picked, sent and accounted for. -/
theorem Outbound.Inv.sendFront {s : Outbound} (h : s.Inv) (hpc : s.pc = .top) {d : RawMsg} {rest : List RawMsg}
    (hitems : s.q.items = d :: rest) :
    ∃ t, Steps.Reaches outStep OutputAct.Sends s t ∧ t.pc = .top ∧ t.q.items = rest := by
  by_cases heq : d.eq RawMsg.empty = true
  · have hnext : outStep s .next = some { s with
        q := { s.q with items := rest, itemcount := Word.sub 64 s.q.itemcount 1 }, closed := true } := by
      simp [outStep, hpc, hitems, heq]
    exact ⟨_, .step .refl (a := .next) trivial hnext, hpc, rfl⟩
  · have hdata := front_isData h hitems heq
    have hsize : d.size < 2 ^ 64 := by
      have hle := h.max
      have hmax : outPendMax = 104857600 := by decide
      rw [h.pending, hitems, queued_cons, List.length_append, hdata.length_data] at hle
      omega
    have hpos : 1 ≤ d.size := hdata.size_pos
    have hnext : outStep s .next = some { s with pc := .picked } := by simp [outStep, hpc, hitems, heq]
    have hsend : outStep { s with pc := .picked } (.send d.size) =
        some { s with pc := .sent d.size, sent := s.sent ++ d.data.take d.size } := by simp [outStep, hitems, hpos]
    have haccount : outStep { s with pc := .sent d.size, sent := s.sent ++ d.data.take d.size } .account =
        some { s with
          q    := { s.q with
            items     := rest
            itemcount := Word.sub 64 s.q.itemcount 1
            pending   := if d.size < s.q.pending then s.q.pending - d.size else 0 }
          pc   := .top
          sent := s.sent ++ d.data.take d.size } := by
      simp [outStep, hitems, RawMsg.eat_eq (Nat.le_refl _) hsize]
    have hpicked : Steps.Reaches outStep OutputAct.Sends s { s with pc := .picked } := .step .refl (a := .next) trivial hnext
    have hsent := Steps.Reaches.step (a := OutputAct.send d.size) hpicked trivial hsend
    exact ⟨_, .step (a := .account) hsent trivial haccount, rfl, rfl⟩

theorem Outbound.Inv.of_reaches {s t : Outbound} (h : s.Inv) (ht : Steps.Reaches outStep OutputAct.Sends s t) : t.Inv :=
  ht.invariant h (fun hinv _ hstep => outStep_inv hinv hstep)

theorem Outbound.Inv.flush_top : ∀ (items : List RawMsg) {s : Outbound}, s.Inv → s.pc = .top → s.q.items = items →
    ∃ t, Steps.Reaches outStep OutputAct.Sends s t ∧ t.sent = accepted t.calls
  | [], s, h, _, hitems => by
    obtain ⟨done, hacc, hsent⟩ := h.bytes
    refine ⟨s, .refl, ?_⟩
    rw [hacc, hsent, hitems]
    simp [queued]
  | d :: rest, s, h, hpc, hitems => by
    obtain ⟨t, ht, htpc, htitems⟩ := h.sendFront hpc hitems
    obtain ⟨u, hu, hdone⟩ := Outbound.Inv.flush_top rest (h.of_reaches ht) htpc htitems
    exact ⟨u, ht.trans hu, hdone⟩

/-- **The queue can be sent off**, wherever the reactor is in `handle_output`. -/
theorem Outbound.Inv.flush {s : Outbound} (h : s.Inv) :
    ∃ t, Steps.Reaches outStep OutputAct.Sends s t ∧ t.sent = accepted t.calls := by
  obtain ⟨u, hu, hpc⟩ : ∃ u, Steps.Reaches outStep OutputAct.Sends s u ∧ u.pc = .top := by
    cases hpc : s.pc with
    | top => exact ⟨s, .refl, hpc⟩
    | picked => exact ⟨{ s with pc := .top }, .step .refl (a := .sendFails) trivial (by simp [outStep, hpc]), rfl⟩
    | sent n =>
      obtain ⟨d, rest, hitems, -⟩ := h.front (by simp [hpc])
      have haccount : ∃ u, outStep s .account = some u ∧ u.pc = .top := by
        simp only [outStep, hpc, hitems]
        split
        · exact ⟨_, rfl, rfl⟩
        · exact ⟨_, rfl, rfl⟩
      obtain ⟨u, hacc, hu⟩ := haccount
      exact ⟨u, .step .refl (a := .account) trivial hacc, hu⟩
  obtain ⟨t, ht, hdone⟩ := Outbound.Inv.flush_top _ (h.of_reaches hu) hpc rfl
  exact ⟨t, hu.trans ht, hdone⟩

/-- A step of the reactors and the workers, at a buffer that fits an `int`. -/
def Wire.Moves (s : Wire) : WireAct → Prop
  | .handleOutput _ | .handleInput _ => True
  | .doWork                          => s.Fits .doWork
  | _                                => False

theorem Wire.Moves.fits {s : Wire} {a : WireAct} (h : s.Moves a) : s.Fits a := by
  cases a with
  | doWork => exact h
  | _ => trivial

section

variable (ioHandle : Bool) (beyond : UInt8)

/-- The sender's steps, in the connection. -/
theorem Wire.sends_of_reaches {s : Wire} {out : Outbound} (h : Steps.Reaches outStep OutputAct.Sends s.out out) :
    Steps.Reaches (wireStep ioHandle beyond) Wire.Moves s { s with out := out } := by
  induction h with
  | refl => exact .refl
  | @step t u a _ hsends hstep ih =>
    refine ih.step (a := .handleOutput a) trivial ?_
    cases a with
    | queue addr buf closesocket => cases hsends
    | next | sendFails | send n | account => simp [wireStep, hstep]

/-- **What was read can be copied and offered.** -/
theorem Wire.Inv.works {s : Wire} (h : s.Inv) (hopen : s.ioClosed = false) (hfits : s.Fits .doWork) :
    ∃ t, Steps.Reaches (wireStep ioHandle beyond) Wire.Moves s t ∧ t.input.datafifo = [] ∧ t.out = s.out ∧
      t.messages = s.messages ∧ t.arrived = s.arrived := by
  have hcb : s.input.cb = true := by
    cases hcb : s.input.cb with
    | true => rfl
    | false => rw [(h.dead hcb).1] at hopen; cases hopen
  have hne : ∀ c ∈ s.input.datafifo, c ≠ [] := fun c hc hnil => h.opened hopen (hnil ▸ hc)
  obtain ⟨rb, es, hwork, -⟩ := doWork_eq ioHandle beyond 0 hcb h.buf h.start hne hfits
  refine ⟨{ s with input := ⟨true, rb, []⟩, events := s.events ++ es },
    .step .refl (a := .doWork) hfits ?_, rfl, rfl, rfl, rfl⟩
  simp [wireStep, hwork]

end

/-- The reactors and the workers neither close a connection nor call `queue`. -/
theorem Wire.moves_keep {ioHandle : Bool} {beyond : UInt8} {s t : Wire}
    (ht : Steps.Reaches (wireStep ioHandle beyond) Wire.Moves s t) :
    t.messages = s.messages ∧ t.sessionValid = s.sessionValid ∧ t.ioClosed = s.ioClosed ∧ t.out.calls = s.out.calls := by
  induction ht with
  | refl => exact ⟨rfl, rfl, rfl, rfl⟩
  | @step t u a _ hmoves hstep ih =>
    suffices hkeep : u.messages = t.messages ∧ u.sessionValid = t.sessionValid ∧ u.ioClosed = t.ioClosed ∧
        u.out.calls = t.out.calls from
      ⟨hkeep.1.trans ih.1, hkeep.2.1.trans ih.2.1, hkeep.2.2.1.trans ih.2.2.1, hkeep.2.2.2.trans ih.2.2.2⟩
    cases a with
    | enqueueToSend _ _ | close _ | processClose | handleClose => cases hmoves
    | handleOutput a =>
      cases a with
      | queue addr buf closesocket => cases hstep
      | next | sendFails | send n | account =>
        obtain ⟨out, hout, rfl⟩ := Option.map_eq_some_iff.1 hstep
        exact ⟨rfl, rfl, rfl, (outStep_output (by rintro addr buf closesocket ⟨⟩) hout).1⟩
    | handleInput n =>
      obtain ⟨-, hstep⟩ := Option.ite_none_right_eq_some.1 hstep
      cases hstep
      exact ⟨rfl, rfl, rfl, rfl⟩
    | doWork =>
      obtain ⟨r, -, rfl⟩ := Option.map_eq_some_iff.1 hstep
      exact ⟨rfl, rfl, rfl, rfl⟩

theorem Wire.Inv.moves {ioHandle : Bool} {beyond : UInt8} {s t : Wire} (h : s.Inv)
    (ht : Steps.Reaches (wireStep ioHandle beyond) Wire.Moves s t) : t.Inv :=
  ht.invariant h fun hinv hmoves hstep => wireStep_inv hinv hmoves.fits hstep

/-- **The read buffer holds less than a message.** -/
theorem Wire.Inv.bytesavail_lt {s : Wire} (h : s.Inv) (hplain : ∀ m ∈ s.messages, Plain m) :
    s.input.buf.bytesavail < maxMsglen := by
  have hframes : ∀ m ∈ s.messages, Plain m ∧ (encoding m).length ≤ maxMsglen := fun m hm => ⟨hplain m hm, h.small m hm⟩
  obtain ⟨w, hw, hpending, -⟩ := h.drained
  obtain ⟨rest, hrest⟩ : w <+: s.messages.flatMap encoding := (List.prefix_append w _).trans (hw ▸ h.read_prefix)
  rw [← ReactorReadBuffer.length_pending h.buf, hpending]
  rcases Stream.drain_rest (sessionDecode_stable 0) sessionDecode_framed hframes hrest with hnil | ⟨m, hm, hlt⟩
  · rw [hnil]
    decide
  · exact Nat.lt_of_lt_of_le hlt (h.small m hm)

/-- **What was sent can be read and offered**, a byte at a time: then there is never more than a message to hold. -/
theorem Wire.Inv.reads_all (ioHandle : Bool) (beyond : UInt8) : ∀ (n : Nat) {s : Wire}, s.Inv → (∀ m ∈ s.messages, Plain m) →
    s.ioClosed = false → s.input.datafifo = [] → s.arrived + n = s.out.sent.length →
    ∃ t, Steps.Reaches (wireStep ioHandle beyond) Wire.Moves s t ∧ t.input.datafifo = [] ∧ t.out = s.out ∧
      t.messages = s.messages ∧ t.arrived = s.out.sent.length
  | 0, s, _, _, _, hfifo, hn => ⟨s, .refl, hfifo, rfl, rfl, hn⟩
  | n + 1, s, h, hplain, hopen, hfifo, hn => by
    have hread : wireStep ioHandle beyond s (.handleInput 1) = some { s with
        input   := { s.input with datafifo := s.input.datafifo ++ [slice s.out.sent s.arrived 1] }
        arrived := s.arrived + 1 } := by
      simp only [wireStep]
      rw [if_pos ⟨hopen, Nat.le_refl 1, by decide, by omega⟩]
    have hreach := Steps.Reaches.refl.step (G := Wire.Moves) (a := .handleInput 1) trivial hread
    have h₁ := h.moves hreach
    obtain ⟨t, hwork, hfifo', hout, hmsgs, harrived⟩ := h₁.works ioHandle beyond hopen (by
      have hlt := h.bytesavail_lt hplain
      have hone : (slice s.out.sent s.arrived 1).length = 1 := Memory.length_slice (by omega)
      simp only [Wire.Fits, hfifo, List.nil_append, List.flatten_singleton, maxMsglen] at hlt ⊢
      omega)
    have hopen' : t.ioClosed = false := (Wire.moves_keep hwork).2.2.1.trans hopen
    obtain ⟨u, hrest, hu⟩ := Wire.Inv.reads_all ioHandle beyond n (h₁.moves hwork) (by rw [hmsgs]; exact hplain) hopen' hfifo'
      (by rw [harrived, hout]; simp only; omega)
    rw [hout, hmsgs] at hu
    exact ⟨u, (hreach.trans hwork).trans hrest, hu⟩

/-- **Send, read, work**: what is left to do for all messages to be delivered. -/
theorem Wire.Inv.completes (ioHandle : Bool) (beyond : UInt8) {s : Wire} (h : s.Inv) (hplain : ∀ m ∈ s.messages, Plain m)
    (hopen : s.ioClosed = false) (hfits : s.Fits .doWork) :
    ∃ t, Steps.Reaches (wireStep ioHandle beyond) Wire.Moves s t ∧ delivered t.events = s.messages := by
  obtain ⟨out, hsends, hsent⟩ := h.out.flush
  have hsend := Wire.sends_of_reaches ioHandle beyond hsends
  have h₁ := h.moves hsend
  obtain ⟨t, hwork, hfifo, hout, hmsgs, -⟩ := h₁.works ioHandle beyond hopen hfits
  have h₂ := h₁.moves hwork
  have hopen₂ : t.ioClosed = false := (Wire.moves_keep hwork).2.2.1.trans hopen
  obtain ⟨u, hreads, hfifo', hout', hmsgs', harrived⟩ := Wire.Inv.reads_all ioHandle beyond (t.out.sent.length - t.arrived) h₂
    (hmsgs ▸ hplain) hopen₂ hfifo (Nat.add_sub_cancel' h₂.arrived)
  have h₃ := h₂.moves hreads
  refine ⟨u, (hsend.trans hwork).trans hreads, ?_⟩
  have hmessages : u.messages = s.messages := hmsgs'.trans hmsgs
  have hall : u.arrived = (accepted u.out.calls).length := by
    rw [harrived, hout', hout, hsent]
  rw [(h₃.delivers (hmessages ▸ hplain)).2.2 hall hfifo', hmessages]

/-- **Every accepted message can be delivered**: from every state of every interleaving in which the connection is up, the
reactors and a worker have steps that lead to where all accepted messages were given to `io_onmsg`.  What the receiver has read
and not offered yet fits an `int`; the stream may be of any length. -/
theorem wire_completes (ioHandle : Bool) (beyond : UInt8) {s : Wire}
    (hs : Steps.Reaches (wireStep ioHandle beyond) Wire.Fits Wire.new s) (hplain : ∀ m ∈ s.messages, Plain m)
    (hopen : s.ioClosed = false) (hfits : s.Fits .doWork) :
    ∃ t, Steps.Reaches (wireStep ioHandle beyond) Wire.Moves s t ∧ t.messages = s.messages ∧
      delivered t.events = s.messages := by
  obtain ⟨t, ht, hall⟩ := (Wire.inv_of_reaches hs).completes ioHandle beyond hplain hopen hfits
  exact ⟨t, ht, (Wire.moves_keep ht).1, hall⟩

/-- The reactor is about to send the first of two messages, and nothing has arrived. -/
def samplePending : List WireAct :=
  [.enqueueToSend 8 ⟨ascii "t", []⟩, .handleOutput .next, .enqueueToSend 64 ⟨ascii "u", []⟩]

theorem wire_completes_sample : ∃ s t, Steps.runIf (wireStep true 0) Wire.Fits Wire.new samplePending = some s ∧
    Steps.Reaches (wireStep true 0) Wire.Moves s t ∧ delivered t.events = [⟨ascii "t", []⟩, ⟨ascii "u", []⟩] := by
  have hrun : (Steps.runIf (wireStep true 0) Wire.Fits Wire.new samplePending).map (fun s =>
      (s.messages, s.ioClosed, decide (s.Fits .doWork))) =
      some ([⟨ascii "t", []⟩, ⟨ascii "u", []⟩], false, true) := by decide +kernel
  obtain ⟨s, hs, hfacts⟩ := Option.map_eq_some_iff.1 hrun
  simp only [Prod.mk.injEq] at hfacts
  obtain ⟨hmsgs, hopen, hfits⟩ := hfacts
  obtain ⟨t, ht, -, hdeliv⟩ := wire_completes true 0 (Steps.reaches_of_runIf _ hs) (hmsgs ▸ plain_samples) hopen
    (of_decide_eq_true hfits)
  exact ⟨s, t, hs, ht, hdeliv.trans hmsgs⟩

end Exio
