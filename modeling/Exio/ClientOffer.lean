import Exio.ClientInput
import Exio.SamRoundTrip
/-!
# ClientOffer — the length the decoder is told

`do_work` offers its read buffer to `process_input(Client*, const char*, int)`, which calls `decodeMsg(txMessage&, const
char*, size_t)`: on its way the fill level goes from a `size_t` through an `int` back to a `size_t` (`decodeLen`).
`inputOffers` lists the buffers a run offers, as `inputRun_offers` says.

A `do_work` copies all of the fifo before it offers anything, and the buffer grows as it has to.  So what it offers first is
what was left undecoded and all that came since (`workloads`), and every length is the fill level exactly if these stay
below `2 ^ 31` bytes (`decodeLen_exact_iff`).  A frame of the greatest length `decodeMsg` admits and one byte behind it
are enough to reach that (`decodeLen_narrowed`).  What `decodeMsg` does once it is told of bytes outside the array is not
defined, and nothing here depends on it: the first offer that is too large settles the run.
-/
namespace Exio

open Sam
open DynamicSamBuffer (frame length_frame)
open Memory (slice)
open ReactorReadBuffer (length_pending)

/-- The `len` of `process_input`'s call of `decodeMsg`, for the buffer it is offered. -/
def decodeLen (rb : ReactorReadBuffer) : Nat := Word.ofInt 64 (Word.toInt 32 rb.bytesavail)

theorem decodeLen_eq_iff {rb : ReactorReadBuffer} (h : rb.Inv) : decodeLen rb = rb.bytesavail ↔ rb.bytesavail < 2 ^ 31 := by
  have ha := h.avail_le
  have hc := h.cap_lt
  exact Word.ofInt_toInt_eq_iff (by decide) (by decide) (by omega)

/-! ## The offers of a run -/

section Offers

variable (ioHandle : Bool) (beyond : UInt8)

/-- What `process_input` makes of the buffer it is offered. -/
def offer (rb : ReactorReadBuffer) : Nat × List InputEvent :=
  processInput ioHandle beyond (rb.buf.drop rb.rp) (Word.toInt 32 rb.bytesavail)

/-- The buffers `inputLoop` offers. -/
def offers : Nat → ReactorReadBuffer → List ReactorReadBuffer
  | 0, _         => []
  | fuel + 1, rb =>
    if rb.bytesavail = 0 then []
    else rb :: if 0 < (offer ioHandle beyond rb).1 then offers fuel (rb.consume (offer ioHandle beyond rb).1) else []

/-- The buffers a step offers: none where the callback is reset, or where the copy loop throws. -/
def stepOffers (s : Inbound) : InputStep → List ReactorReadBuffer
  | .read _ => []
  | .work   =>
    if s.cb = false then []
    else ((copyChunks s.buf s.datafifo).map fun r => offers ioHandle beyond (r.1.bytesavail + 1) r.1).getD []

def inputOffers : Inbound → List InputStep → List ReactorReadBuffer
  | _, []      => []
  | s, a :: as =>
    stepOffers ioHandle beyond s a ++ ((inputStep ioHandle beyond s a).map fun r => inputOffers r.1 as).getD []

theorem offer_ne_close (rb : ReactorReadBuffer) : .processClose ∉ (offer ioHandle beyond rb).2 := by
  rw [offer, processInput]
  split
  · split <;> simp
  · split <;> simp

theorem inputLoop_offers : ∀ (fuel : Nat) (rb : ReactorReadBuffer),
    (inputLoop ioHandle beyond fuel rb).2 =
      (offers ioHandle beyond fuel rb).flatMap fun rb => (offer ioHandle beyond rb).2
  | 0, _ => rfl
  | fuel + 1, rb => by
    by_cases h0 : rb.bytesavail = 0
    · rw [inputLoop_of_zero h0, offers, if_pos h0]
      rfl
    · have ih := inputLoop_offers fuel (rb.consume (offer ioHandle beyond rb).1)
      rw [inputLoop_of_ne (n := (offer ioHandle beyond rb).1) h0 rfl, offers, if_neg h0, List.flatMap_cons]
      split
      · rw [ih]
        rfl
      · rw [List.flatMap_nil, List.append_nil]
        rfl

theorem filter_ne_close_offers (l : List ReactorReadBuffer) :
    (l.flatMap fun rb => (offer ioHandle beyond rb).2).filter (· ≠ .processClose) =
      l.flatMap fun rb => (offer ioHandle beyond rb).2 := by
  rw [List.filter_eq_self]
  intro e he
  obtain ⟨rb, -, he⟩ := List.mem_flatMap.1 he
  exact decide_eq_true (fun h => offer_ne_close ioHandle beyond rb (h ▸ he))

/-- What a step does, it does in its offers, the close apart. -/
theorem inputStep_offers {s : Inbound} {a : InputStep} {r : Inbound × List InputEvent}
    (h : inputStep ioHandle beyond s a = some r) :
    r.2.filter (· ≠ .processClose) =
      (stepOffers ioHandle beyond s a).flatMap fun rb => (offer ioHandle beyond rb).2 := by
  cases a with
  | read c =>
    cases h
    rfl
  | work =>
    rw [inputStep, doWork] at h
    rw [stepOffers]
    split at h
    · rename_i hcb
      cases h
      rw [if_pos hcb]
      rfl
    · rename_i hcb
      obtain ⟨⟨rb, fifo, close⟩, hc, rfl⟩ := Option.map_eq_some_iff.1 h
      rw [if_neg hcb, hc, Option.map_some, Option.getD_some, ← filter_ne_close_offers, ← inputLoop_offers]
      cases close with
      | false => rfl
      | true => simp

/-- **The offers of a run are its calls of `process_input`**: it does nothing else, the closes apart. -/
theorem inputRun_offers : ∀ (as : List InputStep) {s : Inbound} {r : Inbound × List InputEvent},
    inputRun ioHandle beyond s as = some r →
      r.2.filter (· ≠ .processClose) = (inputOffers ioHandle beyond s as).flatMap fun rb => (offer ioHandle beyond rb).2
  | [], s, r, h => by
    cases h
    rfl
  | a :: as, s, r, h => by
    rw [inputRun] at h
    obtain ⟨r₁, hs, h⟩ := Option.bind_eq_some_iff.1 h
    obtain ⟨r₂, hr, rfl⟩ := Option.map_eq_some_iff.1 h
    rw [inputOffers, hs, Option.map_some, Option.getD_some, List.flatMap_append, List.filter_append,
      inputStep_offers ioHandle beyond hs, inputRun_offers as hr]

/-! ## The fill level at an offer -/

/-- A loop that starts below `2 ^ 31` bytes offers less and less. -/
theorem offers_le : ∀ (fuel : Nat) {rb : ReactorReadBuffer}, rb.Inv → rb.bytesavail < 2 ^ 31 →
    ∀ rb' ∈ offers ioHandle beyond fuel rb, rb'.Inv ∧ rb'.bytesavail ≤ rb.bytesavail
  | 0, _, _, _, _, hm => by cases hm
  | fuel + 1, rb, h, hlt, rb', hm => by
    rw [offers] at hm
    split at hm
    · cases hm
    rcases List.mem_cons.1 hm with rfl | hm
    · exact ⟨h, Nat.le_refl _⟩
    split at hm
    · rename_i hpos
      rcases processInput_spec ioHandle beyond 0 hlt rfl with ⟨n, m, hd, hr⟩ | ⟨-, hr⟩ | ⟨-, hr, -⟩
      · -- a message was decoded: at most what the buffer holds is consumed
        have hle := ((sessionDecode_stable 0).bound hd).2
        rw [length_pending h] at hle
        obtain ⟨hi, hav, -⟩ := ReactorReadBuffer.consume_spec h hle
        rw [offer, hr] at hm
        obtain ⟨hi', hle'⟩ := offers_le fuel hi (by omega) rb' hm
        exact ⟨hi', by omega⟩
      · rw [offer, hr] at hpos
        cases hpos
      · rw [offer, hr] at hpos
        cases hpos
    · cases hm

/-- **One loop**: its lengths are exact if the first one is. -/
theorem offers_exact_iff (fuel : Nat) {rb : ReactorReadBuffer} (h : rb.Inv) :
    (∀ rb' ∈ offers ioHandle beyond (fuel + 1) rb, decodeLen rb' = rb'.bytesavail) ↔ rb.bytesavail < 2 ^ 31 := by
  refine ⟨fun hall => ?_, fun hlt rb' hm => ?_⟩
  · by_contra hge
    have hmem : rb ∈ offers ioHandle beyond (fuel + 1) rb := by
      rw [offers, if_neg (by omega)]
      exact List.mem_cons_self
    exact hge ((decodeLen_eq_iff h).1 (hall rb hmem))
  · obtain ⟨hi, hle⟩ := offers_le ioHandle beyond (fuel + 1) h hlt rb' hm
    exact (decodeLen_eq_iff hi).2 (by omega)

theorem inputOffers_closed : ∀ (as : List InputStep) {s : Inbound}, s.cb = false → inputOffers ioHandle beyond s as = []
  | [], _, _ => rfl
  | .read c :: as, s, h => by
    rw [inputOffers, stepOffers, inputStep, Option.map_some, Option.getD_some, List.nil_append]
    exact inputOffers_closed as h
  | .work :: as, s, h => by
    rw [inputOffers, stepOffers, if_pos h, inputStep, doWork, if_pos h, Option.map_some, Option.getD_some, List.nil_append]
    exact inputOffers_closed as h

/-- **What the `do_work`s of a run start from**: of the bytes left undecoded `u` and the chunks of the fifo, those that are
copied.  The sentinel ends the input. -/
def workloads : Bytes → List Bytes → List InputStep → List Bytes
  | _, _, []               => []
  | u, fifo, .read c :: as => workloads u (fifo ++ [c]) as
  | u, fifo, .work :: as   =>
    let v := u ++ (fifo.takeWhile (· ≠ [])).flatten
    v :: if [] ∈ fifo then [] else workloads (Stream.drain (sessionDecode 0) v).2 [] as

/-- An open client with the bytes `u` in its buffer. -/
structure Undecoded (u : Bytes) (s : Inbound) : Prop where
  cb      : s.cb = true
  inv     : s.buf.Inv
  start   : s.buf.rp = 0
  pending : s.buf.pending = u

theorem Undecoded.new : Undecoded [] Inbound.new :=
  ⟨rfl, ReactorReadBuffer.new_inv (by decide), rfl, ReactorReadBuffer.new_pending 4096⟩

/-- **The lengths of a run.**  By induction on the run: as long as no workload was too large, the client holds what the
drain of the last one left. -/
theorem inputOffers_exact_iff : ∀ (as : List InputStep) {u : Bytes} {s : Inbound}, Undecoded u s →
    (inputRun ioHandle beyond s as).isSome →
      ((∀ rb ∈ inputOffers ioHandle beyond s as, decodeLen rb = rb.bytesavail) ↔
        ∀ v ∈ workloads u s.datafifo as, v.length < 2 ^ 31)
  | [], u, s, _, _ => by simp [inputOffers, workloads]
  | .read c :: as, u, s, h, hrun => by
    rw [inputRun, inputStep, Option.bind_some, Option.isSome_map] at hrun
    rw [inputOffers, stepOffers, inputStep, Option.map_some, Option.getD_some, List.nil_append, workloads]
    exact inputOffers_exact_iff as ⟨h.cb, h.inv, h.start, h.pending⟩ hrun
  | .work :: as, u, s, h, hrun => by
    have hcb : ¬ s.cb = false := by simp [h.cb]
    rw [inputRun, inputStep] at hrun
    obtain ⟨r, hc⟩ : ∃ r, copyChunks s.buf s.datafifo = some r := by
      rw [doWork, if_neg hcb] at hrun
      cases hc : copyChunks s.buf s.datafifo with
      | none =>
        rw [hc] at hrun
        cases hrun
      | some r => exact ⟨r, rfl⟩
    obtain ⟨hi, hrp, hp, hrest⟩ := copyChunks_spec s.datafifo h.inv h.start hc
    rw [h.pending] at hp
    rw [inputOffers, stepOffers, if_neg hcb, hc, Option.map_some, Option.getD_some, List.forall_mem_append,
      offers_exact_iff ioHandle beyond r.1.bytesavail hi, workloads, List.forall_mem_cons, ← hp, length_pending hi]
    refine and_congr_right fun hlt => ?_
    obtain ⟨rb, es, hw, hi', hrp', hp', -, -⟩ := doWork_of_copy ioHandle beyond 0 h.cb hc hi hlt
    rw [inputStep, hw, Option.map_some, Option.getD_some]
    rw [hw, Option.bind_some, Option.isSome_map] at hrun
    by_cases hnil : [] ∈ s.datafifo
    · have hclose : r.2.2 = true := by
        rw [hrest]
        exact decide_eq_true hnil
      rw [if_pos hclose, inputOffers_closed ioHandle beyond as rfl, if_pos hnil]
      simp
    · have hdata := copyChunks_data s.datafifo h.inv h.start (fun c hm h0 => hnil (h0 ▸ hm)) hc
      rw [hdata] at hrun ⊢
      rw [if_neg hnil, ← hp']
      exact inputOffers_exact_iff as ⟨rfl, hi', hrp', rfl⟩ hrun

/-- **The length that reaches `decodeMsg`.**  In a run that no `grow` ends, it is the fill level at every call exactly if
every `do_work` starts from less than `2 ^ 31` bytes. -/
theorem decodeLen_exact_iff (as : List InputStep) (hrun : (inputRun ioHandle beyond Inbound.new as).isSome) :
    (∀ rb ∈ inputOffers ioHandle beyond Inbound.new as, decodeLen rb = rb.bytesavail) ↔
      ∀ v ∈ workloads [] [] as, v.length < 2 ^ 31 :=
  inputOffers_exact_iff ioHandle beyond as Undecoded.new hrun

theorem decodeLen_exact_iff_sample :
    (inputRun true 0 Inbound.new sampleInput).isSome ∧ (∀ v ∈ workloads [] [] sampleInput, v.length < 2 ^ 31) ∧
      ∀ rb ∈ inputOffers true 0 Inbound.new sampleInput, decodeLen rb = rb.bytesavail := by
  have hrun : (inputRun true 0 Inbound.new sampleInput).isSome := by decide +kernel
  have hsmall : ∀ v ∈ workloads [] [] sampleInput, v.length < 2 ^ 31 := by decide +kernel
  exact ⟨hrun, hsmall, (decodeLen_exact_iff true 0 sampleInput hrun).2 hsmall⟩

/-- No workload is larger than all that was received. -/
theorem workloads_le : ∀ (as : List InputStep) (u : Bytes) (fifo : List Bytes), ∀ v ∈ workloads u fifo as,
    v.length ≤ u.length + fifo.flatten.length + (received as).length
  | [], _, _, _, hm => by cases hm
  | .read c :: as, u, fifo, v, hm => by
    have ih := workloads_le as u (fifo ++ [c]) v hm
    rw [received_cons, List.length_append]
    simp only [List.flatten_append, List.flatten_singleton, List.length_append] at ih
    have hc : (received [.read c]).length = c.length := by simp [received]
    omega
  | .work :: as, u, fifo, v, hm => by
    have hcopied : (u ++ (fifo.takeWhile (· ≠ [])).flatten).length ≤ u.length + fifo.flatten.length := by
      rw [List.length_append]
      have hsplit := congrArg List.length (flatten_around_sentinel fifo)
      rw [List.length_append] at hsplit
      omega
    rw [workloads] at hm
    rw [received_cons, List.length_append]
    rcases List.mem_cons.1 hm with rfl | hm
    · omega
    split at hm
    · cases hm
    · have ih := workloads_le as _ _ v hm
      have hd := Stream.drain_length (sessionDecode_stable 0) (u ++ (fifo.takeWhile (· ≠ [])).flatten)
      rw [List.flatten_nil, List.length_nil] at ih
      omega

/-- **Below `2 ^ 31` bytes in all, nothing is narrowed.** -/
theorem decodeLen_exact_of_received {as : List InputStep} (hrun : (inputRun ioHandle beyond Inbound.new as).isSome)
    (hlt : (received as).length < 2 ^ 31) : ∀ rb ∈ inputOffers ioHandle beyond Inbound.new as, decodeLen rb = rb.bytesavail := by
  refine (inputOffers_exact_iff ioHandle beyond as Undecoded.new hrun).2 fun v hm => ?_
  have hle := workloads_le as [] [] v hm
  rw [List.flatten_nil, List.length_nil, Nat.zero_add] at hle
  omega

/-! ## A fill level beyond the `int` range -/

theorem inputRun_reads (as : List InputStep) : ∀ (cs : List Bytes) (s : Inbound),
    inputRun ioHandle beyond s (cs.map .read ++ as) = inputRun ioHandle beyond { s with datafifo := s.datafifo ++ cs } as
  | [], s => by rw [List.map_nil, List.nil_append, List.append_nil]
  | c :: cs, s => by
    rw [List.map_cons, List.cons_append, inputRun, inputStep, Option.bind_some, inputRun_reads as cs]
    simp

theorem inputOffers_reads (as : List InputStep) : ∀ (cs : List Bytes) (s : Inbound),
    inputOffers ioHandle beyond s (cs.map .read ++ as) =
      inputOffers ioHandle beyond { s with datafifo := s.datafifo ++ cs } as
  | [], s => by rw [List.map_nil, List.nil_append, List.append_nil]
  | c :: cs, s => by
    rw [List.map_cons, List.cons_append, inputOffers, stepOffers, inputStep, Option.map_some, Option.getD_some,
      inputOffers_reads as cs]
    simp

/-- **Chunks that are all read before the first `do_work` are offered as one.** -/
theorem reads_offered_whole {cs : List Bytes} (hne : ∀ c ∈ cs, c ≠ []) (hpos : cs.flatten ≠ [])
    (hlt : cs.flatten.length < 2 ^ 62) :
    (inputRun ioHandle beyond Inbound.new (cs.map .read ++ [.work])).isSome ∧
      ∃ rb ∈ inputOffers ioHandle beyond Inbound.new (cs.map .read ++ [.work]), rb.Inv ∧ rb.pending = cs.flatten := by
  have hroom : Inbound.new.buf.bytesavail + cs.flatten.length < 2 ^ 62 := (Nat.zero_add _).symm ▸ hlt
  obtain ⟨r, hc⟩ := copyChunks_exists cs Undecoded.new.inv rfl hroom
  obtain ⟨hi, -, hp⟩ := copyChunks_of_some cs Undecoded.new.inv rfl hc
  rw [copyChunks_data cs Undecoded.new.inv rfl hne hc, Undecoded.new.pending, List.flatten_nil, List.append_nil,
    List.nil_append] at hp
  have hav : r.1.bytesavail ≠ 0 := by
    rw [← length_pending hi, hp]
    exact fun h0 => hpos (List.length_eq_zero_iff.1 h0)
  have hcb : ¬ Inbound.new.cb = false := by decide
  have hcopy : copyChunks Inbound.new.buf (Inbound.new.datafifo ++ cs) = some r := hc
  refine ⟨?_, r.1, ?_, hi, hp⟩
  · rw [inputRun_reads, inputRun, inputStep, doWork, if_neg hcb, hcopy]
    rfl
  · rw [inputOffers_reads, inputOffers, stepOffers, if_neg hcb, hcopy, Option.map_some, Option.getD_some, offers,
      if_neg hav]
    exact List.mem_append_left _ List.mem_cons_self

/-- A message with one field, whose value is `n` bytes long. -/
def longMessage (n : Nat) : TxMessage := ⟨ascii "t", [.field (ascii "a") (List.replicate n 120)]⟩

theorem length_payloadOf_longMessage (n : Nat) : (payloadOf (longMessage n)).length = n + 10 := by
  have hesc : escaped (List.replicate n 120) = List.replicate n 120 :=
    Scan.escapeWith_of_none _ (fun c hc => by rw [List.eq_of_mem_replicate hc]; decide)
  have ht : (ascii "t").length = 1 := by decide
  have ha : (ascii "a").length = 1 := by decide
  simp only [payloadOf, longMessage, itemsBytes, TxItem.bytes, hesc, List.length_cons, List.length_append, List.length_replicate,
    List.length_nil, ht, ha]
  omega

theorem carried_longMessage (n : Nat) : Everywhere Carried (longMessage n).root := by
  have hplain : PlainName (ascii "a") := by decide
  refine ⟨⟨⟨List.nodup_singleton _, List.nodup_nil⟩, fun i hi => ?_⟩, trivial, trivial⟩
  rw [List.mem_singleton.1 hi]
  exact hplain

/-- Its frame, where ten digits announce the length. -/
def longFrame (n : Nat) : Bytes := frame (n + 29) (payloadOf (longMessage n))

theorem length_longFrame {n : Nat} (h : (Decimal.decimal (n + 29)).length = 10) : (longFrame n).length = n + 29 := by
  rw [longFrame, length_frame, h, length_payloadOf_longMessage]
  omega

/-- A stream as the reactor thread reads it, 1024 bytes at a time. -/
def chunksOf (w : Bytes) (k : Nat) : List Bytes := (List.range k).map fun i => slice w (1024 * i) 1024

theorem flatten_chunksOf {w : Bytes} {k : Nat} (h : w.length = 1024 * k) : (chunksOf w k).flatten = w := by
  rw [chunksOf, Memory.flatten_slices, ← h, List.take_length]

theorem length_of_mem_chunksOf {w : Bytes} {k : Nat} (h : w.length = 1024 * k) {c : Bytes} (hc : c ∈ chunksOf w k) :
    c.length = 1024 := by
  obtain ⟨i, hi, rfl⟩ := List.mem_map.1 hc
  rw [List.mem_range] at hi
  exact Memory.length_slice (by omega)

/-- **The length is narrowed.**  The longest frame `decodeMsg` admits and one byte behind it, read before the first
`do_work`: the buffer holds `2 ^ 31` bytes, and `decodeMsg` is told of more than there is memory behind it. -/
theorem decodeLen_narrowed :
    (∀ past old s, decodeMsg 64 past old (longFrame 2147483618 ++ s) = .ok (maxMsglen, longMessage 2147483618)) ∧
    (∀ c ∈ chunksOf (longFrame 2147483618 ++ [120]) 2097152, c.length = 1024) ∧
    (chunksOf (longFrame 2147483618 ++ [120]) 2097152).flatten = longFrame 2147483618 ++ [120] ∧
    (inputRun true 0 Inbound.new ((chunksOf (longFrame 2147483618 ++ [120]) 2097152).map .read ++ [.work])).isSome ∧
    ∃ rb ∈ inputOffers true 0 Inbound.new ((chunksOf (longFrame 2147483618 ++ [120]) 2097152).map .read ++ [.work]),
      rb.bytesavail = 2 ^ 31 ∧ decodeLen rb = 2 ^ 64 - 2 ^ 31 ∧ rb.capacity < decodeLen rb := by
  have hframe : (longFrame 2147483618).length = maxMsglen := length_longFrame (by decide)
  have hlen : (longFrame 2147483618 ++ [120]).length = 1024 * 2097152 := by
    rw [List.length_append, hframe, List.length_singleton, maxMsglen]
  generalize longFrame 2147483618 ++ [120] = w at hlen ⊢
  have hflat := flatten_chunksOf hlen
  have hchunk : ∀ c ∈ chunksOf w 2097152, c.length = 1024 := fun c hc => length_of_mem_chunksOf hlen hc
  have hne : ∀ c ∈ chunksOf w 2097152, c ≠ [] := fun c hc h0 => by
    have := hchunk c hc
    rw [h0] at this
    cases this
  have hpos : w ≠ [] := fun h0 => by
    rw [h0] at hlen
    cases hlen
  obtain ⟨hrun, rb, hm, hi, hp⟩ := reads_offered_whole true 0 hne (hflat.symm ▸ hpos) (by rw [hflat, hlen]; decide)
  have hav : rb.bytesavail = 2 ^ 31 := by rw [← length_pending hi, hp, hflat, hlen]; rfl
  have hdl : decodeLen rb = 2 ^ 64 - 2 ^ 31 := by
    rw [decodeLen, hav]
    decide
  refine ⟨fun past old s => ?_, hchunk, hflat, hrun, rb, hm, hav, hdl, ?_⟩
  · have ht : metaDelim ∉ ascii "t" := by decide
    have he : escape ∉ ascii "t" := by decide
    exact decodeMsg_frame (by decide) ht he (carried_longMessage 2147483618) hframe (Nat.le_refl maxMsglen) past old s
  · have hcap := hi.cap_lt
    rw [hdl, ReactorReadBuffer.capacity]
    omega

end Offers

end Exio
