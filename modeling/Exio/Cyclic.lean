import Mathlib.Data.Nat.Basic
/-!
# Cyclic — a search that goes once round

Positions `0, …, n - 1` lie on a circle, and a cursor walks it.  `search n p fuel cur` looks at `fuel` positions from the
cursor on until one satisfies `p`, and leaves the cursor behind the last one it looked at.  Once round, it finds the first
position from the cursor on that satisfies `p` (`search_eq_some_iff`), and nothing exactly if there is none
(`search_eq_none_iff`).
-/
namespace Cyclic

/-- The position `d` steps after `start`. -/
def pos (n start d : Nat) : Nat := (start + d) % n

def next (n i : Nat) : Nat := if i + 1 < n then i + 1 else 0

/-- `i` satisfies `p`, and no position from `start` up to `i` does. -/
def FirstFrom (n : Nat) (p : Nat → Prop) (start i : Nat) : Prop :=
  ∃ d < n, i = pos n start d ∧ p i ∧ ∀ d' < d, ¬ p (pos n start d')

def search (n : Nat) (p : Nat → Prop) [DecidablePred p] : Nat → Nat → Option Nat × Nat
  | 0, cur        => (none, cur)
  | fuel + 1, cur => if p cur then (some cur, next n cur) else search n p fuel (next n cur)

theorem next_lt {n i : Nat} (h : i < n) : next n i < n := by
  unfold next
  split <;> omega

theorem pos_zero {n i : Nat} (h : i < n) : pos n i 0 = i := Nat.mod_eq_of_lt h

theorem pos_next {n i : Nat} (h : i < n) (d : Nat) : pos n (next n i) d = pos n i (d + 1) := by
  unfold pos next
  split
  · rw [Nat.add_assoc, Nat.add_comm 1 d]
  · have hi : i + (d + 1) = 0 + d + n := by omega
    rw [hi, Nat.add_mod_right]

/-- Once round, every position is met. -/
theorem exists_pos {n start i : Nat} (hs : start < n) (hi : i < n) : ∃ d < n, pos n start d = i := by
  by_cases h : start ≤ i
  · refine ⟨i - start, by omega, ?_⟩
    rw [pos, Nat.add_sub_cancel' h, Nat.mod_eq_of_lt hi]
  · refine ⟨i + n - start, by omega, ?_⟩
    rw [pos, Nat.add_sub_cancel' (by omega), Nat.add_mod_right, Nat.mod_eq_of_lt hi]

theorem pos_lt {n : Nat} (hn : 0 < n) (start d : Nat) : pos n start d < n := Nat.mod_lt _ hn

/-- One step on, the positions met are the same but for the first. -/
theorem forall_pos_succ {n cur : Nat} (h : cur < n) {p : Nat → Prop} {k : Nat} :
    (∀ d < k + 1, ¬ p (pos n cur d)) ↔ ¬ p cur ∧ ∀ d < k, ¬ p (pos n (next n cur) d) := by
  constructor
  · intro hall
    refine ⟨?_, fun d hd => ?_⟩
    · have h0 := hall 0 (Nat.succ_pos k)
      rwa [pos_zero h] at h0
    · rw [pos_next h]
      exact hall (d + 1) (Nat.succ_lt_succ hd)
  · rintro ⟨h0, hrest⟩ d hd
    cases d with
    | zero => rwa [pos_zero h]
    | succ d =>
      rw [← pos_next h]
      exact hrest d (Nat.lt_of_succ_lt_succ hd)

section Search

variable {n : Nat} {p : Nat → Prop} [DecidablePred p]

theorem search_cursor_lt : ∀ (fuel : Nat) {cur : Nat}, cur < n → (search n p fuel cur).2 < n
  | 0, _, h => h
  | fuel + 1, cur, h => by
    unfold search
    split
    · exact next_lt h
    · exact search_cursor_lt fuel (next_lt h)

/-- **What a search meets**, by the number of positions it looks at. -/
theorem search_cases : ∀ (fuel : Nat) {cur : Nat}, cur < n →
    ((search n p fuel cur).1 = none ∧ ∀ d < fuel, ¬ p (pos n cur d)) ∨
    ∃ d < fuel, (search n p fuel cur).1 = some (pos n cur d) ∧ p (pos n cur d) ∧ ∀ d' < d, ¬ p (pos n cur d')
  | 0, _, _ => .inl ⟨rfl, fun d hd => absurd hd (Nat.not_lt_zero d)⟩
  | fuel + 1, cur, h => by
    unfold search
    by_cases hp : p cur
    · rw [if_pos hp]
      refine .inr ⟨0, Nat.succ_pos fuel, ?_, ?_, fun d hd => absurd hd (Nat.not_lt_zero d)⟩
      · rw [pos_zero h]
      · rwa [pos_zero h]
    · rw [if_neg hp]
      rcases search_cases fuel (next_lt h) with ⟨hnone, hall⟩ | ⟨d, hd, hsome, hpd, hfirst⟩
      · exact .inl ⟨hnone, (forall_pos_succ h).2 ⟨hp, hall⟩⟩
      · rw [pos_next h] at hsome hpd
        exact .inr ⟨d + 1, Nat.succ_lt_succ hd, hsome, hpd, (forall_pos_succ h).2 ⟨hp, hfirst⟩⟩

/-- **A search once round fails exactly if no position will do.** -/
theorem search_eq_none_iff {cur : Nat} (h : cur < n) : (search n p n cur).1 = none ↔ ∀ i < n, ¬ p i := by
  constructor
  · intro hnone i hi
    rcases search_cases (p := p) n h with ⟨-, hall⟩ | ⟨d, -, hsome, -⟩
    · obtain ⟨d, hd, rfl⟩ := exists_pos h hi
      exact hall d hd
    · rw [hnone] at hsome
      cases hsome
  · intro hall
    rcases search_cases (p := p) n h with ⟨hnone, -⟩ | ⟨d, -, -, hp, -⟩
    · exact hnone
    · exact absurd hp (hall _ (pos_lt (Nat.zero_lt_of_lt h) cur d))

/-- **A search once round finds the first position that will do.** -/
theorem search_eq_some_iff {cur : Nat} (h : cur < n) {i : Nat} :
    (search n p n cur).1 = some i ↔ FirstFrom n p cur i := by
  rcases search_cases (p := p) n h with ⟨hnone, hall⟩ | ⟨d, hd, hsome, hp, hfirst⟩
  · rw [hnone]
    refine iff_of_false (fun hi => by cases hi) ?_
    rintro ⟨d, hd, rfl, hp, -⟩
    exact hall d hd hp
  · rw [hsome, Option.some.injEq]
    constructor
    · rintro rfl
      exact ⟨d, hd, rfl, hp, hfirst⟩
    · rintro ⟨d', -, rfl, hp', hfirst'⟩
      -- neither of the two is before the other
      rcases Nat.lt_trichotomy d d' with hlt | rfl | hlt
      · exact absurd hp (hfirst' d hlt)
      · rfl
      · exact absurd hp' (hfirst d' hlt)

end Search

end Cyclic
