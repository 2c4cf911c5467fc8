import Mathlib.Data.List.Nodup
/-!
# Numbered — a list laid out under numbered names

A writer goes through a list with a counter and puts each element into a store under the name of its number; a reader is
told how many there are and looks the numbers up one by one.  All that the two have to share is how a number is named:
if a put reaches the slot of its own number and no other (`Lays`), the reader finds the list in order.  A reader that
trusts no count goes on until a number is missing, which is at the latest behind the last of the names
(`le_length_of_names`).

`get i s` is what stands in the store under the name of number `i`.
-/
namespace Numbered

variable {σ α β γ : Type}

/-- The writer's loop, from number `i` on. -/
def putAll (put : Nat → α → σ → σ) : Nat → List α → σ → σ
  | _, [], s      => s
  | i, a :: as, s => putAll put (i + 1) as (put i a s)

/-- **What the loop keeps.** -/
theorem putAll_invariant {put : Nat → α → σ → σ} {P : σ → Prop} (h : ∀ i a s, P s → P (put i a s)) :
    ∀ (as : List α) (i : Nat) {s : σ}, P s → P (putAll put i as s)
  | [], _, _, hs      => hs
  | a :: as, i, s, hs => putAll_invariant h as (i + 1) (h i a s hs)

/-- What no put changes, the loop does not change. -/
theorem putAll_keeps {put : Nat → α → σ → σ} {g : σ → γ} (h : ∀ i a s, g (put i a s) = g s) (as : List α) (i : Nat) (s : σ) :
    g (putAll put i as s) = g s :=
  putAll_invariant (P := fun t => g t = g s) (fun i a t ht => (h i a t).trans ht) as i rfl

/-- A put fills the empty slot of its own number and leaves the other slots. -/
structure Lays (get : Nat → σ → Option β) (put : Nat → α → σ → σ) (val : Nat → α → β) : Prop where
  fresh : ∀ i a s, get i s = none → get i (put i a s) = some (val i a)
  other : ∀ i j a s, i ≠ j → get j (put i a s) = get j s

variable {get : Nat → σ → Option β} {put : Nat → α → σ → σ} {val : Nat → α → β}

theorem Lays.get_before (h : Lays get put val) {j : Nat} : ∀ (as : List α) {i : Nat} (s : σ), j < i →
    get j (putAll put i as s) = get j s
  | [], _, _, _      => rfl
  | a :: as, i, s, hj => by
    rw [putAll, h.get_before as _ (by omega), h.other i j a s (by omega)]

/-- **The slots after the loop**: the elements, each under its number. -/
theorem Lays.get_putAll (h : Lays get put val) : ∀ (as : List α) (i : Nat) (s : σ), (∀ j, i ≤ j → get j s = none) →
    ∀ (j : Nat) (a : α), as[j]? = some a → get (i + j) (putAll put i as s) = some (val (i + j) a)
  | a :: as, i, s, hs, 0, b, hb => by
    cases hb
    rw [putAll, h.get_before as _ (by omega)]
    exact h.fresh i a s (hs i (by omega))
  | a :: as, i, s, hs, j + 1, b, hb => by
    have hs' : ∀ k, i + 1 ≤ k → get k (put i a s) = none := by
      intro k hk
      rw [h.other i k a s (by omega)]
      exact hs k (by omega)
    have ih := h.get_putAll as (i + 1) (put i a s) hs' j b (by simpa using hb)
    rw [putAll]
    rwa [show i + (j + 1) = i + 1 + j by omega]

theorem filterMap_range_getElem? : ∀ (as : List α), (List.range as.length).filterMap (fun j => as[j]?) = as
  | []      => rfl
  | a :: as => by
    have ih := filterMap_range_getElem? as
    rw [List.length_cons, List.range_succ_eq_map, List.filterMap_cons, List.filterMap_map]
    exact congrArg (a :: ·) ih

/-- **A reader that goes by the count finds the list**, in order and nothing else. -/
theorem Lays.filterMap_range (h : Lays get put val) {g : β → Option γ} {out : α → γ} (as : List α) {s : σ}
    (hs : ∀ j, get j s = none) (hg : ∀ i, ∀ a ∈ as, g (val i a) = some (out a)) :
    (List.range as.length).filterMap (fun j => (get j (putAll put 0 as s)).bind g) = as.map out := by
  have hread : ∀ j ∈ List.range as.length, (get j (putAll put 0 as s)).bind g = (as.map out)[j]? := by
    intro j hj
    have hlt := List.mem_range.1 hj
    have hget := h.get_putAll as 0 s (fun k _ => hs k) j as[j] (List.getElem?_eq_getElem hlt)
    rw [Nat.zero_add] at hget
    rw [hget, List.getElem?_map, List.getElem?_eq_getElem hlt]
    exact hg j _ (List.getElem_mem hlt)
  have hlist := filterMap_range_getElem? (as.map out)
  rw [List.length_map] at hlist
  rw [List.filterMap_congr hread, hlist]

/-- **Numbered names in a finite list**: as many as the first numbers that are there, the list has elements. -/
theorem le_length_of_names {name : Nat → β} (hname : ∀ {i j}, name i = name j → i = j) {names : List β} {n : Nat}
    (h : ∀ i, i < n → name i ∈ names) : n ≤ names.length := by
  have hnodup : ((List.range n).map name).Nodup := List.Nodup.map (fun _ _ he => hname he) List.nodup_range
  have hsub : (List.range n).map name ⊆ names := by
    intro b hb
    obtain ⟨i, hi, rfl⟩ := List.mem_map.1 hb
    exact h i (List.mem_range.1 hi)
  have hle := hnodup.length_le_of_subset hsub
  rwa [List.length_map, List.length_range] at hle

end Numbered
