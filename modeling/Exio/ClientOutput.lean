import Exio.Word
import Exio.Steps
import Exio.Sam
/-!
# ClientOutput — the outbound queue of a client

Any thread may append to a client's outbound queue (`Client::queue`), in one critical section; the reactor thread writes
it to the socket (`Client::handle_output`) in three steps: pick the front item under the lock, `send` outside it, and
account for what was sent under the lock again.  A close request is an item like any other, told from data by its value.

The state keeps two histories: the `queue` calls with what each returned, and the bytes that `send` took.  `Inv` says that
the accepted bytes are the sent ones and the queued ones, at every step of every interleaving (`outStep_inv`).
-/
namespace Exio

/-- `RawMsg`: a block of memory and the part of it still to be sent. -/
structure RawMsg where
  mem   : Nat
  ptr   : Nat
  size  : Nat
  block : Bytes
deriving DecidableEq

namespace RawMsg

/-- `RawMsg()`. -/
def empty : RawMsg := ⟨0, 0, 0, []⟩

/-- `RawMsg(src, srclen)`, with its block allocated at `addr`. -/
def new (addr : Nat) (src : Bytes) : RawMsg := ⟨addr, addr, src.length, src⟩

/-- `operator==`. -/
def eq (a b : RawMsg) : Bool := a.mem == b.mem && a.ptr == b.ptr && a.size == b.size

def eat (a : RawMsg) (n : Nat) : RawMsg := { a with ptr := a.ptr + n, size := Word.sub 64 a.size n }

/-- The `size` bytes at `ptr`. -/
def data (a : RawMsg) : Bytes := (a.block.drop (a.ptr - a.mem)).take a.size

end RawMsg

structure OutboundQueue where
  items      : List RawMsg
  itemcount  : Nat
  acceptmore : Bool
  pending    : Nat
deriving DecidableEq

/-- `m_out_pend_max`. -/
def outPendMax : Nat := 100 * 1024 * 1024

/-- A call of `queue(buf, size, closesocket)` and its return value; no `buf` is the null pointer. -/
structure QueueCall where
  buf         : Option Bytes
  closesocket : Bool
  ret         : Int
deriving DecidableEq

/-- The critical section of `queue`: the queue and the return value.  `addr` is where a new block lies. -/
def OutboundQueue.queue (q : OutboundQueue) (addr : Nat) (buf : Option Bytes) (closesocket : Bool) : OutboundQueue × Int :=
  if q.acceptmore = false then (q, -2)
  else
    let src := buf.getD []
    if src ≠ [] ∧ Word.sub 64 outPendMax q.pending < src.length then ({ q with acceptmore := false }, -1)
    else
      let q := if src ≠ [] then
          { q with items := q.items ++ [RawMsg.new addr src], itemcount := q.itemcount + 1, pending := q.pending + src.length }
        else q
      if closesocket then
        ({ q with acceptmore := false, items := q.items ++ [RawMsg.empty], itemcount := q.itemcount + 1 }, 0)
      else (q, 0)

/-- Where the reactor thread is in `handle_output`: at the top of its loop or outside, with the front item picked, or
with `n` bytes of it sent and not yet accounted for. -/
inductive OutputPc where
  | top
  | picked
  | sent (n : Nat)
deriving DecidableEq

structure Outbound where
  q      : OutboundQueue
  pc     : OutputPc
  calls  : List QueueCall
  sent   : Bytes
  closed : Bool
deriving DecidableEq

def Outbound.new : Outbound := ⟨⟨[], 0, true, 0⟩, .top, [], [], false⟩

/-- The result of `send`: an error, or a number of bytes. -/
inductive OutputAct where
  | queue (addr : Nat) (buf : Option Bytes) (closesocket : Bool)
  | next
  | sendFails
  | send (n : Nat)
  | account
deriving DecidableEq

/-- **One lock-delimited step.**  `next` is the critical section at the top of the loop, `send` and `sendFails` are the
system call, `account` is the critical section behind it.  A step is possible where the thread is at that place; `send`
takes between one byte and all of them. -/
def outStep (s : Outbound) : OutputAct → Option Outbound
  | .queue addr buf closesocket =>
    if addr = 0 then none
    else
      let r := s.q.queue addr buf closesocket
      some { s with q := r.1, calls := s.calls ++ [⟨buf, closesocket, r.2⟩] }
  | .next =>
    match s.pc with
    | .top =>
      if s.q.itemcount ≠ 0 ∨ s.q.items ≠ [] then
        match s.q.items with
        | []           => none
        | next :: rest =>
          if next.eq RawMsg.empty then
            some { s with q := { s.q with items := rest, itemcount := Word.sub 64 s.q.itemcount 1 }, closed := true }
          else some { s with pc := .picked }
      else some { s with q := { s.q with itemcount := 0 } }
    | _ => none
  | .sendFails =>
    match s.pc with
    | .picked => some { s with pc := .top }
    | _       => none
  | .send n =>
    match s.pc, s.q.items with
    | .picked, next :: _ =>
      if 1 ≤ n ∧ n ≤ next.size then some { s with pc := .sent n, sent := s.sent ++ next.data.take n } else none
    | _, _ => none
  | .account =>
    match s.pc, s.q.items with
    | .sent n, next :: rest =>
      let next := next.eat n
      let pending := if n < s.q.pending then s.q.pending - n else 0
      if next.size = 0 then
        some { s with q := { s.q with items := rest, itemcount := Word.sub 64 s.q.itemcount 1, pending := pending }, pc := .top }
      else some { s with q := { s.q with items := next :: rest, pending := pending }, pc := .top }
    | _, _ => none

/-- **The payloads of the calls that accepted their data, in lock order.** -/
def accepted (calls : List QueueCall) : Bytes :=
  calls.flatMap (fun c => if c.ret = 0 then c.buf.getD [] else [])

/-! ## Items -/

namespace RawMsg

/-- **An item that holds data**: a block somewhere in memory, with a part of it left. -/
structure IsData (a : RawMsg) : Prop where
  mem_pos  : 0 < a.mem
  ptr_le   : a.mem ≤ a.ptr
  size_pos : 0 < a.size
  fits     : a.ptr + a.size = a.mem + a.block.length

theorem new_isData {addr : Nat} {src : Bytes} (ha : 0 < addr) (hs : src ≠ []) : (new addr src).IsData :=
  ⟨ha, Nat.le_refl _, List.length_pos_iff.2 hs, rfl⟩

theorem new_data (addr : Nat) (src : Bytes) : (new addr src).data = src := by
  simp [new, data]

theorem IsData.length_data {a : RawMsg} (h : a.IsData) : a.data.length = a.size := by
  have h1 := h.ptr_le
  have h2 := h.fits
  rw [data, List.length_take, List.length_drop]
  omega

/-- The sentinel is told from data by its value. -/
theorem IsData.eq_empty {a : RawMsg} (h : a.IsData) : a.eq empty = false := by
  have := h.mem_pos
  simp [eq, empty]
  omega

theorem eat_eq {a : RawMsg} {n : Nat} (hn : n ≤ a.size) (hs : a.size < 2 ^ 64) :
    a.eat n = { a with ptr := a.ptr + n, size := a.size - n } := by
  rw [eat, Word.sub_of_le hn hs]

theorem IsData.eat {a : RawMsg} (h : a.IsData) {n : Nat} (hn : n < a.size) (hs : a.size < 2 ^ 64) :
    (a.eat n).IsData ∧ (a.eat n).data = a.data.drop n := by
  have h1 := h.ptr_le
  have h2 := h.fits
  rw [eat_eq (Nat.le_of_lt hn) hs]
  refine ⟨⟨h.mem_pos, by simp only; omega, by simp only; omega, by simp only; omega⟩, ?_⟩
  rw [data, data, List.drop_take, List.drop_drop]
  simp only
  rw [show a.ptr + n - a.mem = a.ptr - a.mem + n by omega]

end RawMsg

/-- The bytes of the queued items. -/
def queued (items : List RawMsg) : Bytes := items.flatMap RawMsg.data

theorem queued_append (a b : List RawMsg) : queued (a ++ b) = queued a ++ queued b := by simp [queued]

theorem queued_cons (a : RawMsg) (l : List RawMsg) : queued (a :: l) = a.data ++ queued l := by simp [queued]

theorem length_le_queued : ∀ (ds : List RawMsg), (∀ d ∈ ds, d.IsData) → ds.length ≤ (queued ds).length
  | [], _ => Nat.zero_le _
  | d :: ds, h => by
    have ih := length_le_queued ds (fun x hx => h x (by simp [hx]))
    have hd := h d (by simp)
    have := hd.size_pos
    rw [queued_cons, List.length_append, hd.length_data, List.length_cons]
    omega

/-! ## The critical section of `queue` -/

/-- The item a call adds for its data. -/
def dataItems (addr : Nat) (src : Bytes) : List RawMsg := if src = [] then [] else [RawMsg.new addr src]

/-- The item a call adds for a close request. -/
def closeItems (closesocket : Bool) : List RawMsg := if closesocket then [RawMsg.empty] else []

theorem queued_dataItems (addr : Nat) (src : Bytes) : queued (dataItems addr src) = src := by
  rw [dataItems]
  split
  · rename_i h; rw [h]; rfl
  · rw [queued_cons, RawMsg.new_data]; simp [queued]

theorem queued_closeItems (closesocket : Bool) : queued (closeItems closesocket) = [] := by
  cases closesocket <;> rfl

/-- **What a call of `queue` can do**: refuse, overflow, or append its data and its close request. -/
theorem queue_cases (q : OutboundQueue) (addr : Nat) (buf : Option Bytes) (closesocket : Bool) :
    (q.acceptmore = false ∧ q.queue addr buf closesocket = (q, -2)) ∨
    (q.acceptmore = true ∧ q.queue addr buf closesocket = ({ q with acceptmore := false }, -1)) ∨
    (q.acceptmore = true ∧ (buf.getD []).length ≤ Word.sub 64 outPendMax q.pending ∧
      q.queue addr buf closesocket =
        (⟨q.items ++ (dataItems addr (buf.getD []) ++ closeItems closesocket),
          q.itemcount + (dataItems addr (buf.getD []) ++ closeItems closesocket).length, !closesocket,
          q.pending + (buf.getD []).length⟩, 0)) := by
  obtain ⟨items, itemcount, acceptmore, pending⟩ := q
  cases acceptmore with
  | false => exact .inl ⟨rfl, rfl⟩
  | true =>
    rw [OutboundQueue.queue]
    generalize buf.getD [] = src
    by_cases hs : src = []
    · subst hs
      refine .inr (.inr ⟨rfl, Nat.zero_le _, ?_⟩)
      cases closesocket <;> simp [dataItems, closeItems]
    · by_cases hov : Word.sub 64 outPendMax pending < src.length
      · exact .inr (.inl ⟨rfl, by simp [hs, hov]⟩)
      · refine .inr (.inr ⟨rfl, by simp only; omega, ?_⟩)
        cases closesocket <;> simp [dataItems, closeItems, hs, hov]

/-! ## The invariant -/

/-- The bytes sent and not yet accounted for. -/
def OutputPc.unaccounted : OutputPc → Nat
  | .sent n => n
  | _       => 0

/-- **What holds at every step**: the accepted bytes are those accounted for and those queued. -/
structure Outbound.Inv (s : Outbound) : Prop where
  shape   : ∃ ds, (∀ d ∈ ds, d.IsData) ∧
    (s.q.items = ds ∨ (s.q.items = ds ++ [RawMsg.empty] ∧ s.q.acceptmore = false))
  bytes   : ∃ done, accepted s.calls = done ++ queued s.q.items ∧ s.sent = done ++ (queued s.q.items).take s.pc.unaccounted
  pending : s.q.pending = (queued s.q.items).length
  max     : s.q.pending ≤ outPendMax
  count   : s.q.itemcount = s.q.items.length
  front   : s.pc ≠ .top → ∃ d rest, s.q.items = d :: rest ∧ d.IsData ∧ s.pc.unaccounted ≤ d.size
  taking  : s.q.acceptmore = true → ∀ c ∈ s.calls, c.closesocket = false ∧ c.ret ≠ -1
  refused : s.calls.Pairwise (fun a b => a.closesocket = true ∨ a.ret = -1 → b.ret = -2)
  closed  : s.closed = true → s.q.items = [] ∧ s.q.acceptmore = false

theorem Outbound.new_inv : Outbound.new.Inv where
  shape := ⟨[], by simp [Outbound.new]⟩
  bytes := ⟨[], rfl, rfl⟩
  pending := rfl
  max := Nat.zero_le _
  count := rfl
  front := fun h => absurd rfl h
  taking := fun _ c hc => by cases hc
  refused := .nil
  closed := fun h => by cases h

theorem accepted_append (calls : List QueueCall) (c : QueueCall) :
    accepted (calls ++ [c]) = accepted calls ++ (if c.ret = 0 then c.buf.getD [] else []) := by
  simp [accepted]

/-- The subtraction of the room left does not wrap. -/
theorem room_eq {p : Nat} (h : p ≤ outPendMax) : Word.sub 64 outPendMax p = outPendMax - p :=
  Word.sub_of_le h (by decide)

theorem items_length {s : Outbound} (h : s.Inv) : s.q.items.length ≤ outPendMax + 1 := by
  obtain ⟨ds, hds, hi⟩ := h.shape
  have hle := length_le_queued ds hds
  have hp := h.pending
  have hm := h.max
  rcases hi with hi | ⟨hi, -⟩
  · rw [hi] at hp ⊢; omega
  · rw [hi, queued_append, List.length_append] at hp
    rw [hi, List.length_append, List.length_singleton]
    omega

/-- Behind a front item that holds data the queue has the same shape. -/
theorem shape_tail {d : RawMsg} {rest : List RawMsg} {acceptmore : Bool}
    (h : ∃ ds, (∀ d ∈ ds, d.IsData) ∧ (d :: rest = ds ∨ (d :: rest = ds ++ [RawMsg.empty] ∧ acceptmore = false)))
    (hd : d.IsData) :
    ∃ ds, (∀ d ∈ ds, d.IsData) ∧ (rest = ds ∨ (rest = ds ++ [RawMsg.empty] ∧ acceptmore = false)) := by
  obtain ⟨ds, hds, hi⟩ := h
  cases ds with
  | nil =>
    rcases hi with hi | ⟨hi, -⟩
    · cases hi
    · obtain ⟨rfl, -⟩ := List.cons.inj hi
      exact absurd hd.mem_pos (by decide)
  | cons e ds =>
    refine ⟨ds, fun x hx => hds x (by simp [hx]), ?_⟩
    rcases hi with hi | ⟨hi, ha⟩
    · exact .inl (List.cons.inj hi).2
    · exact .inr ⟨(List.cons.inj hi).2, ha⟩

/-! ## Every step keeps it -/

/-- A call that changes neither the items nor the bytes: it refused, or overflowed and closed the queue. -/
theorem queue_refused {s : Outbound} (h : s.Inv) {c : QueueCall} (hret : c.ret ≠ 0) (hlater : c.ret = -2 ∨ s.q.acceptmore = true) :
    ({ s with q := { s.q with acceptmore := false }, calls := s.calls ++ [c] } : Outbound).Inv := by
  obtain ⟨ds, hds, hi⟩ := h.shape
  obtain ⟨done, hb, hsent⟩ := h.bytes
  refine ⟨⟨ds, hds, hi.imp_right fun hi => ⟨hi.1, rfl⟩⟩, ⟨done, ?_, hsent⟩, h.pending, h.max, h.count, h.front,
    fun hf => (by cases hf), ?_, fun hc => ⟨(h.closed hc).1, rfl⟩⟩
  · simp only
    rw [accepted_append, if_neg hret, List.append_nil, hb]
  · refine List.pairwise_append.2 ⟨h.refused, List.pairwise_singleton _ _, fun a ha b hb hab => ?_⟩
    rw [List.mem_singleton.1 hb]
    rcases hlater with hl | hl
    · exact hl
    · obtain ⟨h1, h2⟩ := h.taking hl a ha
      rcases hab with hab | hab
      · rw [h1] at hab; cases hab
      · exact absurd hab h2

theorem queue_inv {s : Outbound} (h : s.Inv) {addr : Nat} (ha : 0 < addr) (buf : Option Bytes) (closesocket : Bool) :
    ({ s with q := (s.q.queue addr buf closesocket).1,
              calls := s.calls ++ [⟨buf, closesocket, (s.q.queue addr buf closesocket).2⟩] } : Outbound).Inv := by
  rcases queue_cases s.q addr buf closesocket with ⟨hacc, hq⟩ | ⟨hacc, hq⟩ | ⟨hacc, hroom, hq⟩
  · rw [hq]
    have := queue_refused h (c := ⟨buf, closesocket, -2⟩) (show (-2 : Int) ≠ 0 by decide) (.inl rfl)
    rw [← hacc] at this
    exact this
  · rw [hq]
    exact queue_refused h (c := ⟨buf, closesocket, -1⟩) (show (-1 : Int) ≠ 0 by decide) (.inr hacc)
  · rw [room_eq h.max] at hroom
    have hmax := h.max
    obtain ⟨ds, hds, hi⟩ := h.shape
    obtain ⟨done, hb, hsent⟩ := h.bytes
    have hi : s.q.items = ds := hi.resolve_right (fun hi => by rw [hacc] at hi; cases hi.2)
    rw [hq]
    generalize hsrc : buf.getD [] = src at hroom
    have hqueued : queued (s.q.items ++ (dataItems addr src ++ closeItems closesocket)) = queued s.q.items ++ src := by
      rw [queued_append, queued_append, queued_dataItems, queued_closeItems, List.append_nil]
    refine ⟨⟨ds ++ dataItems addr src, ?_, ?_⟩, ⟨done, ?_, ?_⟩, ?_, ?_, ?_, ?_, ?_, ?_, ?_⟩
    · intro d hd
      rcases List.mem_append.1 hd with hd | hd
      · exact hds d hd
      · rw [dataItems] at hd
        split at hd
        · cases hd
        · rename_i hne
          rw [List.mem_singleton.1 hd]
          exact RawMsg.new_isData ha hne
    · simp only [hi]
      cases closesocket with
      | false => exact .inl (by simp [closeItems])
      | true => exact .inr ⟨by simp [closeItems], rfl⟩
    · simp only
      rw [accepted_append, if_pos rfl, hqueued, hb, List.append_assoc, hsrc]
    · simp only
      rw [hqueued, hsent]
      -- what is not accounted for is a part of the front item
      rw [List.take_append_of_le_length]
      by_cases hpc : s.pc = .top
      · rw [hpc]; exact Nat.zero_le _
      · obtain ⟨d, rest, hitems, hd, hle⟩ := h.front hpc
        rw [hitems, queued_cons, List.length_append, hd.length_data]
        omega
    · simp only
      rw [hqueued, List.length_append, h.pending]
    · simp only; omega
    · simp only
      rw [h.count, ← List.length_append]
    · intro hpc
      obtain ⟨d, rest, hitems, hd, hle⟩ := h.front hpc
      exact ⟨d, rest ++ (dataItems addr src ++ closeItems closesocket), by simp only [hitems, List.cons_append], hd, hle⟩
    · intro hopen c hc
      rcases List.mem_append.1 hc with hc | hc
      · exact h.taking hacc c hc
      · rw [List.mem_singleton.1 hc]
        exact ⟨by simpa using hopen, show (0 : Int) ≠ -1 by decide⟩
    · refine List.pairwise_append.2 ⟨h.refused, List.pairwise_singleton _ _, fun a hca b hcb hab => ?_⟩
      obtain ⟨h1, h2⟩ := h.taking hacc a hca
      rcases hab with hab | hab
      · rw [h1] at hab; cases hab
      · exact absurd hab h2
    · intro hc
      have := (h.closed hc).2
      rw [hacc] at this
      cases this

/-- The front item is the sentinel: it was the last item, and everything accepted has been sent. -/
theorem sentinel_inv {s : Outbound} (h : s.Inv) (hpc : s.pc = .top) {next : RawMsg} {rest : List RawMsg}
    (hitems : s.q.items = next :: rest) (heq : next.eq RawMsg.empty = true) :
    ({ s with q := { s.q with items := rest, itemcount := Word.sub 64 s.q.itemcount 1 }, closed := true } : Outbound).Inv := by
  obtain ⟨ds, hds, hi⟩ := h.shape
  have hds' : ds = [] := by
    cases ds with
    | nil => rfl
    | cons d ds =>
      have hnd : next = d := by
        rcases hi with hi | ⟨hi, -⟩
        · rw [hitems] at hi; exact (List.cons.inj hi).1
        · rw [hitems] at hi; exact (List.cons.inj hi).1
      rw [hnd, (hds d (by simp)).eq_empty] at heq
      cases heq
  subst hds'
  have hi : s.q.items = [RawMsg.empty] ∧ s.q.acceptmore = false := by
    rcases hi with hi | hi
    · rw [hitems] at hi; cases hi
    · exact hi
  have hrest : rest = [] := by
    have := hi.1
    rw [hitems] at this
    exact (List.cons.inj this).2
  obtain ⟨done, hb, hsent⟩ := h.bytes
  have hq : queued s.q.items = [] := by rw [hi.1]; rfl
  have hcount : Word.sub 64 s.q.itemcount 1 = 0 := by
    rw [h.count, hi.1, List.length_singleton, Word.sub_of_le (Nat.le_refl 1) (by decide)]
  subst hrest
  rw [hcount]
  refine ⟨⟨[], by simp⟩, ⟨done, ?_, ?_⟩, ?_, h.max, rfl, fun hp => absurd hpc hp, h.taking, h.refused, fun _ => ⟨rfl, hi.2⟩⟩
  · rw [hb, hq]; rfl
  · rw [hsent, hq, hpc]; rfl
  · simp only; rw [h.pending, hq]; rfl

/-- A front item that is not the sentinel holds data. -/
theorem front_isData {s : Outbound} (h : s.Inv) {next : RawMsg} {rest : List RawMsg} (hitems : s.q.items = next :: rest)
    (hne : ¬ next.eq RawMsg.empty = true) : next.IsData := by
  obtain ⟨ds, hds, hi⟩ := h.shape
  rw [hitems] at hi
  cases ds with
  | nil =>
    rcases hi with hi | ⟨hi, -⟩
    · cases hi
    · rw [(List.cons.inj hi).1] at hne
      exact absurd rfl hne
  | cons d ds =>
    rcases hi with hi | ⟨hi, -⟩
    · rw [(List.cons.inj hi).1]; exact hds d (by simp)
    · rw [(List.cons.inj hi).1]; exact hds d (by simp)

theorem next_inv {s t : Outbound} (h : s.Inv) (hs : outStep s .next = some t) : t.Inv := by
  simp only [outStep] at hs
  split at hs
  · rename_i hpc
    split at hs
    · split at hs
      · cases hs
      · rename_i next rest hitems
        split at hs
        · rename_i heq
          cases hs
          exact sentinel_inv h hpc hitems heq
        · rename_i hne
          cases hs
          obtain ⟨done, hb, hsent⟩ := h.bytes
          rw [hpc] at hsent
          exact { h with bytes := ⟨done, hb, hsent⟩, front := fun _ => ⟨next, rest, hitems, front_isData h hitems hne, Nat.zero_le _⟩ }
    · rename_i hempty
      cases hs
      rw [not_or, not_not, not_not] at hempty
      exact { h with count := by simp only; rw [hempty.2]; rfl }
  · cases hs

theorem sendFails_inv {s t : Outbound} (h : s.Inv) (hs : outStep s .sendFails = some t) : t.Inv := by
  simp only [outStep] at hs
  split at hs
  · rename_i hpc
    cases hs
    obtain ⟨done, hb, hsent⟩ := h.bytes
    rw [hpc] at hsent
    exact { h with bytes := ⟨done, hb, hsent⟩, front := fun hp => absurd rfl hp }
  · cases hs

theorem send_inv {s t : Outbound} (h : s.Inv) {n : Nat} (hs : outStep s (.send n) = some t) : t.Inv := by
  simp only [outStep] at hs
  split at hs
  · rename_i next rest hpc hitems
    split at hs
    · rename_i hn
      cases hs
      obtain ⟨d, rest', hitems', hd, -⟩ := h.front (by rw [hpc]; simp)
      rw [hitems] at hitems'
      obtain ⟨rfl, rfl⟩ := List.cons.inj hitems'
      obtain ⟨done, hb, hsent⟩ := h.bytes
      rw [hpc] at hsent
      simp only [OutputPc.unaccounted, List.take_zero, List.append_nil] at hsent
      refine { h with bytes := ⟨done, hb, ?_⟩, front := fun _ => ⟨next, rest, hitems, hd, hn.2⟩ }
      simp only [OutputPc.unaccounted]
      rw [hsent, hitems, queued_cons, List.take_append_of_le_length (by rw [hd.length_data]; exact hn.2)]
    · cases hs
  · cases hs

theorem account_inv {s t : Outbound} (h : s.Inv) (hs : outStep s .account = some t) : t.Inv := by
  simp only [outStep] at hs
  split at hs
  · rename_i n next rest hpc hitems
    obtain ⟨d, rest', hitems', hd, hle⟩ := h.front (by rw [hpc]; simp)
    rw [hitems] at hitems'
    obtain ⟨rfl, rfl⟩ := List.cons.inj hitems'
    rw [hpc] at hle
    simp only [OutputPc.unaccounted] at hle
    obtain ⟨done, hb, hsent⟩ := h.bytes
    have hlen := items_length h
    have hcount := h.count
    have hpend := h.pending
    have hmax := h.max
    have hshape := h.shape
    rw [hitems] at hb hsent hcount hpend hshape hlen
    rw [queued_cons] at hb hsent hpend
    rw [List.length_append, hd.length_data] at hpend
    rw [List.length_cons] at hlen hcount
    simp only [outPendMax] at hmax hlen
    have hsz : next.size < 2 ^ 64 := by omega
    have hsent' : s.sent = done ++ next.data.take n := by
      rw [hsent, hpc]
      simp only [OutputPc.unaccounted]
      rw [List.take_append_of_le_length (by rw [hd.length_data]; exact hle)]
    have hnew : (if n < s.q.pending then s.q.pending - n else 0) = s.q.pending - n := by split <;> omega
    have hcount' : Word.sub 64 s.q.itemcount 1 = rest.length := by
      rw [Word.sub_of_le (by omega) (by omega)]; omega
    have heat := RawMsg.eat_eq hle hsz
    split at hs
    · rename_i hz
      rw [heat] at hz
      simp only at hz
      cases hs
      have hall : next.data.take n = next.data := List.take_of_length_le (by rw [hd.length_data]; omega)
      refine ⟨shape_tail hshape hd, ⟨done ++ next.data, ?_, ?_⟩, ?_, ?_, hcount', fun hp => absurd rfl hp, h.taking,
        h.refused, fun hc => ?_⟩
      · simp only; rw [hb, List.append_assoc]
      · simp only [OutputPc.unaccounted, List.take_zero, List.append_nil]; rw [hsent', hall]
      · simp only; rw [hnew]; omega
      · simp only; rw [hnew]; simp only [outPendMax]; omega
      · have := (h.closed hc).1
        rw [hitems] at this
        cases this
    · rename_i hz
      rw [heat] at hz
      simp only at hz
      cases hs
      obtain ⟨hd', hdata⟩ := hd.eat (show n < next.size by omega) hsz
      refine ⟨?_, ⟨done ++ next.data.take n, ?_, ?_⟩, ?_, ?_, ?_, fun hp => absurd rfl hp, h.taking, h.refused, fun hc => ?_⟩
      · obtain ⟨ds, hds, hi⟩ := shape_tail hshape hd
        refine ⟨next.eat n :: ds, fun x hx => ?_, ?_⟩
        · rcases List.mem_cons.1 hx with rfl | hx
          · exact hd'
          · exact hds x hx
        · rcases hi with hi | ⟨hi, ha⟩
          · exact .inl (by simp only [hi])
          · exact .inr ⟨by simp only [hi, List.cons_append], ha⟩
      · simp only
        rw [hb, queued_cons, hdata, List.append_assoc, ← List.append_assoc (next.data.take n), List.take_append_drop]
      · simp only [OutputPc.unaccounted, List.take_zero, List.append_nil]; exact hsent'
      · simp only; rw [hnew, queued_cons, hdata, List.length_append, List.length_drop, hd.length_data]; omega
      · simp only; rw [hnew]; simp only [outPendMax]; omega
      · simp only; rw [hcount, List.length_cons]
      · have := (h.closed hc).1
        rw [hitems] at this
        cases this
  · cases hs

/-- **Every lock-delimited step keeps the invariant.** -/
theorem outStep_inv {s t : Outbound} (h : s.Inv) : ∀ {a : OutputAct}, outStep s a = some t → t.Inv
  | .queue addr buf closesocket, hs => by
    simp only [outStep] at hs
    split at hs
    · cases hs
    · rename_i ha
      cases hs
      exact queue_inv h (Nat.pos_of_ne_zero ha) buf closesocket
  | .next, hs => next_inv h hs
  | .sendFails, hs => sendFails_inv h hs
  | .send _, hs => send_inv h hs
  | .account, hs => account_inv h hs

/-- **Outbound queue integrity**, in every state of every interleaving. -/
theorem outbound_integrity {s : Outbound} (hs : Steps.Reaches outStep Steps.Always Outbound.new s) :
    s.sent <+: accepted s.calls ∧
    ((∀ n, s.pc ≠ .sent n) → s.q.pending = (accepted s.calls).length - s.sent.length) ∧
    s.q.pending ≤ outPendMax ∧ Word.sub 64 outPendMax s.q.pending = outPendMax - s.q.pending ∧
    s.q.itemcount = s.q.items.length ∧
    s.calls.Pairwise (fun a b => a.closesocket = true ∨ a.ret = -1 → b.ret = -2) ∧
    (s.closed = true → s.sent = accepted s.calls) := by
  have h : s.Inv := hs.invariant Outbound.new_inv (fun h _ hst => outStep_inv h hst)
  obtain ⟨done, hb, hsent⟩ := h.bytes
  refine ⟨?_, fun hpc => ?_, h.max, room_eq h.max, h.count, h.refused, fun hc => ?_⟩
  · rw [hb, hsent]
    exact (List.prefix_append_right_inj done).2 (List.take_prefix _ _)
  · have h0 : s.pc.unaccounted = 0 := by
      cases hp : s.pc with
      | top => rfl
      | picked => rfl
      | sent n => exact absurd hp (hpc n)
    rw [h0, List.take_zero, List.append_nil] at hsent
    rw [hb, hsent, List.length_append, h.pending]
    omega
  · rw [hb, hsent, (h.closed hc).1, show queued [] = [] from rfl, List.take_nil]

/-- Three bytes and a close request, sent in two pieces. -/
def sampleOutput : List OutputAct :=
  [.queue 8 (some [1, 2, 3]) true, .next, .send 2, .account, .next, .send 1, .account, .next]

theorem outbound_integrity_sample :
    ∃ s, Steps.run outStep Outbound.new sampleOutput = some s ∧ s.closed = true ∧ s.sent = accepted s.calls ∧
      s.sent = [1, 2, 3] := by
  refine ⟨⟨⟨[], 0, false, 0⟩, .top, [⟨some [1, 2, 3], true, 0⟩], [1, 2, 3], true⟩, by decide, rfl, ?_, rfl⟩
  exact (outbound_integrity (Steps.reaches_of_run sampleOutput (by decide))).2.2.2.2.2.2 rfl

end Exio
