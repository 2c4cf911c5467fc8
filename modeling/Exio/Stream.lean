import Mathlib.Data.List.Basic
/-!
# Stream — decoding a stream that arrives in pieces

A decoder looks at the bytes it has and asks for more, gives up, or takes a message off the front.  It is `Stable` when
more bytes never change an answer other than "more".  `drain` takes messages until the decoder stops.  For a stable
decoder a stream may be drained before the rest of it is there (`drain_append`), and after a fault there are no more
messages (`drain_of_fault`).

Where the decoder reads back what an encoder wrote (`Framed`), any piece of a stream of encodings from its start on gives
the messages in order, as far as it goes (`drain_piece`), and leaves less than one frame (`drain_rest`).
-/
namespace Stream

variable {α μ : Type}

inductive Outcome (μ : Type) where
  | more
  | fault
  | done (n : Nat) (m : μ)
deriving DecidableEq

/-- **More bytes do not change an answer**, and a message takes at least one of the bytes that are there. -/
structure Stable (dec : List α → Outcome μ) : Prop where
  bound : ∀ {w : List α} {n : Nat} {m : μ}, dec w = .done n m → 0 < n ∧ n ≤ w.length
  done  : ∀ {w : List α} {n : Nat} {m : μ} (s : List α), dec w = .done n m → dec (w ++ s) = .done n m
  fault : ∀ {w : List α} (s : List α), dec w = .fault → dec (w ++ s) = .fault

def drainLoop (dec : List α → Outcome μ) : Nat → List α → List μ × List α
  | 0, w        => ([], w)
  | fuel + 1, w =>
    match dec w with
    | .done n m => (m :: (drainLoop dec fuel (w.drop n)).1, (drainLoop dec fuel (w.drop n)).2)
    | _         => ([], w)

/-- **The messages at the front of `w`, and the bytes left.** -/
def drain (dec : List α → Outcome μ) (w : List α) : List μ × List α := drainLoop dec w.length w

section
variable {dec : List α → Outcome μ}

theorem drainLoop_of_stop {w : List α} (h : ∀ n m, dec w ≠ .done n m) : ∀ (fuel : Nat), drainLoop dec fuel w = ([], w)
  | 0        => rfl
  | fuel + 1 => by
    rw [drainLoop]
    split
    · rename_i n m hd
      exact absurd hd (h n m)
    · rfl

theorem drain_of_stop {w : List α} (h : ∀ n m, dec w ≠ .done n m) : drain dec w = ([], w) := drainLoop_of_stop h _

theorem drain_of_fault {w : List α} (h : dec w = .fault) : drain dec w = ([], w) :=
  drain_of_stop (fun n m hd => by rw [h] at hd; cases hd)

variable (hdec : Stable dec)
include hdec

theorem drainLoop_eq : ∀ (fuel : Nat) (w : List α), w.length ≤ fuel → drainLoop dec fuel w = drain dec w
  | 0, w, h => by rw [drain, Nat.le_zero.1 h]
  | fuel + 1, w, h => by
    cases hd : dec w with
    | more => rw [drainLoop_of_stop (by simp [hd]), drain_of_stop (by simp [hd])]
    | fault => rw [drainLoop_of_stop (by simp [hd]), drain_of_stop (by simp [hd])]
    | done n m =>
      obtain ⟨hpos, hle⟩ := hdec.bound hd
      obtain ⟨k, hk⟩ : ∃ k, w.length = k + 1 := ⟨w.length - 1, by omega⟩
      have hlen : (w.drop n).length ≤ k := by rw [List.length_drop]; omega
      rw [drain, hk, drainLoop, drainLoop]
      simp only [hd]
      rw [drainLoop_eq fuel _ (by omega), drainLoop_eq k _ hlen]

theorem drain_of_done {w : List α} {n : Nat} {m : μ} (h : dec w = .done n m) :
    drain dec w = (m :: (drain dec (w.drop n)).1, (drain dec (w.drop n)).2) := by
  obtain ⟨hpos, hle⟩ := hdec.bound h
  obtain ⟨k, hk⟩ : ∃ k, w.length = k + 1 := ⟨w.length - 1, by omega⟩
  rw [drain, hk, drainLoop]
  simp only [h]
  rw [drainLoop_eq hdec k _ (by rw [List.length_drop]; omega)]

/-- **A stream may be drained before the rest of it is there.** -/
theorem drain_append (w s : List α) :
    drain dec (w ++ s) = ((drain dec w).1 ++ (drain dec ((drain dec w).2 ++ s)).1, (drain dec ((drain dec w).2 ++ s)).2) := by
  induction hn : w.length using Nat.strongRecOn generalizing w with
  | _ k ih =>
    cases hd : dec w with
    | more => rw [drain_of_stop (w := w) (by simp [hd])]; rfl
    | fault => rw [drain_of_stop (w := w) (by simp [hd])]; rfl
    | done n m =>
      obtain ⟨hpos, hle⟩ := hdec.bound hd
      rw [drain_of_done hdec hd, drain_of_done hdec (hdec.done s hd), List.drop_append_of_le_length hle,
        ih (w.drop n).length (by rw [List.length_drop]; omega) (w.drop n) rfl]
      rfl

theorem drain_length (w : List α) : (drain dec w).2.length ≤ w.length := by
  induction hn : w.length using Nat.strongRecOn generalizing w with
  | _ k ih =>
    cases hd : dec w with
    | more => rw [drain_of_stop (w := w) (by simp [hd])]; exact Nat.le_of_eq hn
    | fault => rw [drain_of_stop (w := w) (by simp [hd])]; exact Nat.le_of_eq hn
    | done n m =>
      obtain ⟨hpos, hle⟩ := hdec.bound hd
      rw [drain_of_done hdec hd]
      have := ih (w.drop n).length (by rw [List.length_drop]; omega) (w.drop n) rfl
      rw [List.length_drop] at this
      simp only
      omega

/-! ## Streams of frames -/

/-- **The decoder reads back what was encoded**, whatever follows it, and waits where nothing does. -/
structure Framed (dec : List α → Outcome μ) (enc : μ → List α) (P : μ → Prop) : Prop where
  nil   : dec [] = .more
  reads : ∀ {m : μ} (s : List α), P m → dec (enc m ++ s) = .done (enc m).length m

variable {enc : μ → List α} {P : μ → Prop} (hframed : Framed dec enc P)
include hframed

theorem drain_frames : ∀ {ms : List μ}, (∀ m ∈ ms, P m) → drain dec (ms.flatMap enc) = (ms, [])
  | [], _ => rfl
  | m :: ms, h => by
    obtain ⟨hm, hms⟩ := List.forall_mem_cons.1 h
    rw [List.flatMap_cons, drain_of_done hdec (hframed.reads _ hm), List.drop_left, drain_frames hms]

/-- **A piece of a stream of frames**: the messages drained are the first ones, and the decoder does not give up on the
rest. -/
theorem drain_piece {ms : List μ} (h : ∀ m ∈ ms, P m) {w s : List α} (hw : w ++ s = ms.flatMap enc) :
    (drain dec w).1 <+: ms ∧ dec (drain dec w).2 ≠ .fault := by
  have hall := drain_frames hdec hframed h
  rw [← hw, drain_append hdec, Prod.mk.injEq] at hall
  obtain ⟨hms, hrest⟩ := hall
  refine ⟨⟨_, hms⟩, fun hfault => ?_⟩
  -- a fault would stay one, with bytes left that the whole stream does not leave
  rw [drain_of_fault (hdec.fault s hfault)] at hrest
  rw [(List.append_eq_nil_iff.1 hrest).1, hframed.nil] at hfault
  cases hfault

/-- **What is left of a piece is the start of one frame.** -/
theorem drain_rest : ∀ {ms : List μ}, (∀ m ∈ ms, P m) → ∀ {w s : List α}, w ++ s = ms.flatMap enc →
    (drain dec w).2 = [] ∨ ∃ m ∈ ms, (drain dec w).2.length < (enc m).length
  | [], _, w, s, hw => by
    obtain rfl : w = [] := (List.append_eq_nil_iff.1 hw).1
    exact .inl rfl
  | m :: ms, h, w, s, hw => by
    obtain ⟨hm, hms⟩ := List.forall_mem_cons.1 h
    rw [List.flatMap_cons] at hw
    by_cases hlen : w.length < (enc m).length
    · -- the first frame is not there as a whole, and so the decoder cannot take anything
      obtain ⟨s', hs'⟩ : w <+: enc m :=
        List.prefix_of_prefix_length_le (hw ▸ List.prefix_append w s) (List.prefix_append ..) (Nat.le_of_lt hlen)
      have hstop : ∀ n x, dec w ≠ .done n x := by
        intro n x hd
        have hwhole := hframed.reads [] hm
        rw [List.append_nil, ← hs', hdec.done s' hd] at hwhole
        cases hwhole
        exact absurd (hdec.bound hd).2 (by rw [hs']; omega)
      rw [drain_of_stop hstop]
      exact .inr ⟨m, List.mem_cons_self, hlen⟩
    · obtain ⟨w', rfl⟩ : enc m <+: w :=
        List.prefix_of_prefix_length_le (List.prefix_append ..) (hw ▸ List.prefix_append w s) (Nat.le_of_not_lt hlen)
      rw [List.append_assoc, List.append_cancel_left_eq] at hw
      rw [drain_of_done hdec (hframed.reads _ hm), List.drop_left]
      exact (drain_rest hms hw).imp id fun ⟨x, hx, hlt⟩ => ⟨x, List.mem_cons_of_mem m hx, hlt⟩

end

end Stream
