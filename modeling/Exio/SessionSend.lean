import Exio.SamEncode
import Exio.ClientOutput
/-!
# SessionSend — what `enqueueToSend` reports

`AdminSession::enqueueToSend` encodes a message into a fresh buffer and hands the bytes to the client's outbound queue.
It returns `true` for a failure: an invalid session, no client, an exception of the encoder, and a `queue` that returned
-1.  A queue that accepts no more returns -2, and that is not looked at.  `enqueueToSend_truthful_iff` says that this is the
only way in which the answer is wrong.
-/
namespace Exio

open Sam
open Sam.DynamicSamBuffer (frame)

/-- What `enqueueToSend` reads of a session: `m_session_valid`, and the outbound queue behind `m_io_handle`. -/
structure SendState where
  sessionValid : Bool
  ioHandle     : Option OutboundQueue
deriving DecidableEq

/-- `protocol.encodeMsg(msg, qi.sb())` on the buffer of a new `QueuedItem`. -/
def encodeQueued (msg : TxMessage) : Except EncodeError (Nat × DynamicSamBuffer) := encodeMsg msg (.new 512)

/-- `enqueueToSend`; `addr` is where the queue's copy of the bytes lies. -/
def enqueueToSend (s : SendState) (addr : Nat) (msg : TxMessage) : SendState × Bool :=
  if !s.sessionValid then (s, true)
  else
    match encodeQueued msg with
    | .error _       => (s, true)
    | .ok (size, sb) =>
      match s.ioHandle with
      | none   => (s, true)
      | some q =>
        let result := q.queue addr (some (Memory.slice sb.buf sb.msgStart size)) false
        ({ s with ioHandle := some result.1 }, result.2 == -1)

/-- `AdminSession::close`. -/
def SendState.close (s : SendState) (addr : Nat) : SendState :=
  { s with ioHandle := s.ioHandle.map fun q => (q.queue addr none true).1 }

/-- The items of the outbound queue. -/
def SendState.items (s : SendState) : List RawMsg := (s.ioHandle.map OutboundQueue.items).getD []

/-- **The item holds the encoded bytes of the message**, with a header that announces their number. -/
def Holds (item : RawMsg) (msg : TxMessage) : Prop :=
  ∃ n sb, encodeQueued msg = .ok (n, sb) ∧ item.data = frame n (payloadOf msg) ∧ item.size = n

/-- **The answer of `enqueueToSend` is the truth.** -/
structure Truthful (s : SendState) (addr : Nat) (msg : TxMessage) : Prop where
  success : (enqueueToSend s addr msg).2 = false ↔
    ∃ item, (enqueueToSend s addr msg).1.items = s.items ++ [item] ∧ Holds item msg
  failure : (enqueueToSend s addr msg).2 = true → (enqueueToSend s addr msg).1.items = s.items

/-- **A message that only the closed queue refuses.** -/
def Refused (s : SendState) (msg : TxMessage) : Prop :=
  s.sessionValid = true ∧ (∃ q, s.ioHandle = some q ∧ q.acceptmore = false) ∧ ∃ r, encodeQueued msg = .ok r

/-- What `queue` is given. -/
theorem encodeQueued_slice {msg : TxMessage} {n : Nat} {sb : DynamicSamBuffer} (h : encodeQueued msg = .ok (n, sb)) :
    Memory.slice sb.buf sb.msgStart n = frame n (payloadOf msg) ∧ (frame n (payloadOf msg)).length = n := by
  obtain ⟨hn, hp, -⟩ := encodeMsg_payload (by decide) h
  have hsize : sb.msgSize = n := by
    rw [encodeQueued, encodeMsg_eq] at h
    obtain ⟨sb₁, -, h⟩ := DynamicSamBuffer.bind_eq_ok.1 h
    obtain ⟨sb₂, -, h⟩ := DynamicSamBuffer.bind_eq_ok.1 h
    cases h
    rfl
  constructor
  · rw [← hp, DynamicSamBuffer.payload, hsize]
  · rw [DynamicSamBuffer.length_frame]
    exact hn.symm

/-- **What a call of `enqueueToSend` can do**: fail before it reaches the queue, be refused, overflow the queue, or append
the encoded message. -/
theorem enqueueToSend_cases (s : SendState) (addr : Nat) (msg : TxMessage) :
    (¬ Refused s msg ∧ enqueueToSend s addr msg = (s, true)) ∨
    (Refused s msg ∧ enqueueToSend s addr msg = (s, false)) ∨
    (¬ Refused s msg ∧ ∃ t, enqueueToSend s addr msg = (t, true) ∧ t.items = s.items) ∨
    (¬ Refused s msg ∧ ∃ t item, enqueueToSend s addr msg = (t, false) ∧ t.items = s.items ++ [item] ∧ Holds item msg) := by
  obtain ⟨valid, io⟩ := s
  cases valid with
  | false => exact .inl ⟨fun h => (by cases h.1), rfl⟩
  | true =>
    cases he : encodeQueued msg with
    | error e =>
      refine .inl ⟨fun ⟨_, _, r, hr⟩ => ?_, by simp [enqueueToSend, he]⟩
      rw [he] at hr
      cases hr
    | ok x =>
      obtain ⟨n, sb⟩ := x
      cases io with
      | none => exact .inl ⟨fun ⟨_, ⟨q, hq, _⟩, _⟩ => (by cases hq), by simp [enqueueToSend, he]⟩
      | some q =>
        obtain ⟨hslice, hlen⟩ := encodeQueued_slice he
        simp only [enqueueToSend, he, hslice]
        have hopen : q.acceptmore = true → ¬ Refused ⟨true, some q⟩ msg := by
          rintro hacc ⟨-, ⟨q', hq, hclosed⟩, -⟩
          cases hq
          rw [hacc] at hclosed
          cases hclosed
        rcases queue_cases q addr (some (frame n (payloadOf msg))) false with ⟨hacc, hq⟩ | ⟨hacc, hq⟩ | ⟨hacc, -, hq⟩
        · exact .inr (.inl ⟨⟨rfl, ⟨q, rfl, hacc⟩, _, he⟩, by rw [hq]; rfl⟩)
        · exact .inr (.inr (.inl ⟨hopen hacc, ⟨true, some { q with acceptmore := false }⟩, by rw [hq]; rfl, rfl⟩))
        · refine .inr (.inr (.inr ⟨hopen hacc, ⟨true, some (q.queue addr (some (frame n (payloadOf msg))) false).1⟩,
            RawMsg.new addr (frame n (payloadOf msg)), by rw [hq]; rfl, ?_, ?_⟩))
          · have hne : frame n (payloadOf msg) ≠ [] := by simp [frame, DynamicSamBuffer.headFor]
            rw [hq]
            simp [SendState.items, dataItems, closeItems, hne]
          · exact ⟨n, sb, he, RawMsg.new_data _ _, hlen⟩

/-- **`enqueueToSend` reports the truth exactly where it is not refused by a closed queue.** -/
theorem enqueueToSend_truthful_iff (s : SendState) (addr : Nat) (msg : TxMessage) :
    Truthful s addr msg ↔ ¬ Refused s msg := by
  have hgrow : ∀ (item : RawMsg), s.items ≠ s.items ++ [item] := fun item h => by simpa using congrArg List.length h
  rcases enqueueToSend_cases s addr msg with ⟨hr, h⟩ | ⟨hr, h⟩ | ⟨hr, t, h, ht⟩ | ⟨hr, t, item, h, ht, hitem⟩
  · refine ⟨fun _ => hr, fun _ => ⟨?_, fun _ => by rw [h]⟩⟩
    rw [h]
    exact ⟨fun hf => (by cases hf), fun ⟨item, hi, _⟩ => absurd hi (hgrow item)⟩
  · refine ⟨fun ht => ?_, fun hn => absurd hr hn⟩
    obtain ⟨item, hi, -⟩ := ht.success.1 (by rw [h])
    rw [h] at hi
    exact absurd hi (hgrow item)
  · refine ⟨fun _ => hr, fun _ => ⟨?_, fun _ => by rw [h]; exact ht⟩⟩
    rw [h]
    refine ⟨fun hf => (by cases hf), fun ⟨item, hi, _⟩ => ?_⟩
    rw [ht] at hi
    exact absurd hi (hgrow item)
  · refine ⟨fun _ => hr, fun _ => ⟨?_, fun hf => by rw [h] at hf; cases hf⟩⟩
    rw [h]
    exact ⟨fun _ => ⟨item, ht, hitem⟩, fun _ => rfl⟩

/-- A session that has been closed and whose client has not gone yet. -/
def closingSession : SendState := SendState.close ⟨true, some Outbound.new.q⟩ 1

theorem enqueueToSend_untruthful :
    (enqueueToSend closingSession 1 ⟨ascii "t", []⟩).2 = false ∧
      (enqueueToSend closingSession 1 ⟨ascii "t", []⟩).1.items = closingSession.items ∧
      ¬ Truthful closingSession 1 ⟨ascii "t", []⟩ := by
  have henc : ∃ n sb, encodeQueued ⟨ascii "t", []⟩ = .ok (n, sb) ∧ _ := encodeMsg_encoding _ (by decide) (by decide)
  obtain ⟨n, sb, he, -⟩ := henc
  have hr : Refused closingSession ⟨ascii "t", []⟩ := ⟨rfl, ⟨_, rfl, rfl⟩, _, he⟩
  rcases enqueueToSend_cases closingSession 1 ⟨ascii "t", []⟩ with ⟨hn, -⟩ | ⟨-, h⟩ | ⟨hn, -⟩ | ⟨hn, -⟩
  · exact absurd hr hn
  · refine ⟨by rw [h], by rw [h], fun ht => ?_⟩
    obtain ⟨item, hi, -⟩ := ht.success.1 (by rw [h])
    rw [h] at hi
    simpa using congrArg List.length hi
  · exact absurd hr hn
  · exact absurd hr hn

end Exio
