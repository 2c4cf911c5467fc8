import Mathlib.Data.List.Basic
/-!
# Memory — copying into an array

`memcpy buf k src` is the array `buf` with `src` copied to position `k`; `slice buf s n` the `n` elements from `s` on.
A copy that fits keeps the length (`length_memcpy`), and reading back what ends with the copy gives what was there before
it and the copy (`slice_memcpy`).
-/
namespace Memory

variable {α : Type}

def memcpy (buf : List α) (k : Nat) (src : List α) : List α := buf.take k ++ src ++ buf.drop (k + src.length)

def slice (buf : List α) (s n : Nat) : List α := (buf.drop s).take n

theorem length_slice {buf : List α} {s n : Nat} (h : s + n ≤ buf.length) : (slice buf s n).length = n := by
  rw [slice, List.length_take, List.length_drop]
  omega

theorem slice_zero (buf : List α) (s : Nat) : slice buf s 0 = [] := List.take_zero

theorem slice_drop (buf : List α) (s n k : Nat) : slice buf (s + k) (n - k) = (slice buf s n).drop k := by
  rw [slice, slice, List.drop_take, List.drop_drop]

/-- Elements behind the slice do not matter. -/
theorem slice_append {buf : List α} {s n : Nat} (h : s + n ≤ buf.length) (tl : List α) :
    slice (buf ++ tl) s n = slice buf s n := by
  rw [slice, slice, List.drop_append_of_le_length (by omega), List.take_append_of_le_length (by rw [List.length_drop]; omega)]

/-- An array read in pieces of `k` elements. -/
theorem flatten_slices (buf : List α) (k : Nat) : ∀ n : Nat,
    ((List.range n).map fun i => slice buf (k * i) k).flatten = buf.take (k * n)
  | 0 => by simp
  | n + 1 => by
    rw [List.range_succ, List.map_append, List.flatten_append, flatten_slices buf k n, Nat.mul_succ, List.take_add]
    simp [slice]

theorem length_memcpy {buf src : List α} {k : Nat} (h : k + src.length ≤ buf.length) :
    (memcpy buf k src).length = buf.length := by
  simp only [memcpy, List.length_append, List.length_take, List.length_drop]
  omega

/-- **Reading up to the end of a copy.** -/
theorem slice_memcpy (buf src : List α) {s k : Nat} (hs : s ≤ k) (hk : k ≤ buf.length) :
    slice (memcpy buf k src) s (k + src.length - s) = slice buf s (k - s) ++ src := by
  have htk : (buf.take k).length = k := by rw [List.length_take]; omega
  have hd : ((buf.take k).drop s).length = k - s := by rw [List.length_drop, htk]
  rw [slice, slice, memcpy, List.append_assoc, List.drop_append_of_le_length (by omega), ← List.append_assoc,
    List.take_append_of_le_length (by rw [List.length_append, hd]; omega),
    List.take_of_length_le (by rw [List.length_append, hd]; omega), ← List.drop_take]

/-- A copy over a part of the same length. -/
theorem memcpy_over {a b c src : List α} {k : Nat} (hk : a.length = k) (h : b.length = src.length) :
    memcpy (a ++ (b ++ c)) k src = a ++ (src ++ c) := by
  subst hk
  rw [memcpy, List.take_left, ← h, ← List.append_assoc a b c, ← List.length_append, List.drop_left, List.append_assoc]

end Memory
