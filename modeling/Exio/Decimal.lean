import Mathlib.Data.List.Basic
import Mathlib.Tactic.IntervalCases
/-!
# Decimal — decimal numerals as ASCII bytes

`decimal n` is the numeral of `n` without leading zeros, `value ds` the number a run of digit bytes denotes, read by the
usual multiply-and-add loop; `signed` and `signedValue` are those of an integer.  A numeral reads back (`value_decimal`,
`signedValue_signed`), the loop never falls below what it
has read (`foldl_value_ge`), and the length of a numeral is decided by powers of ten (`length_decimal_le_iff`).
-/
namespace Decimal

def isDigit (c : UInt8) : Bool := decide (48 ≤ c) && decide (c ≤ 57)

/-- The digit a byte stands for: its low four bits. -/
def digit (c : UInt8) : Nat := (c &&& 15).toNat

def value (ds : List UInt8) : Nat := ds.foldl (fun a c => a * 10 + digit c) 0

def decimal (n : Nat) : List UInt8 := (Nat.toDigits 10 n).map (fun c => UInt8.ofNat c.toNat)

/-- The numeral of an integer. -/
def signed (n : Int) : List UInt8 := if n < 0 then 45 :: decimal n.natAbs else decimal n.natAbs

def signedValue (ds : List UInt8) : Int := if ds.head? = some 45 then -(value ds.tail : Int) else value ds

theorem digitChar_byte {d : Nat} (h : d < 10) :
    isDigit (UInt8.ofNat (Nat.digitChar d).toNat) = true ∧ digit (UInt8.ofNat (Nat.digitChar d).toNat) = d := by
  interval_cases d <;> decide

theorem decimal_of_lt {n : Nat} (h : n < 10) : decimal n = [UInt8.ofNat (Nat.digitChar n).toNat] := by
  rw [decimal, Nat.toDigits_of_lt_base h]; rfl

theorem decimal_of_le {n : Nat} (h : 10 ≤ n) :
    decimal n = decimal (n / 10) ++ [UInt8.ofNat (Nat.digitChar (n % 10)).toNat] := by
  rw [decimal, decimal, Nat.toDigits_of_base_le (by decide) h, List.map_append]; rfl

theorem decimal_ne_nil (n : Nat) : decimal n ≠ [] := by simp [decimal]

theorem length_decimal_le_iff {n k : Nat} (hk : 0 < k) : (decimal n).length ≤ k ↔ n < 10 ^ k := by
  rw [decimal, List.length_map]
  exact Nat.length_toDigits_le_iff (by decide) hk

theorem length_decimal_mono {m n : Nat} (h : m ≤ n) : (decimal m).length ≤ (decimal n).length := by
  have hpos : 0 < (decimal n).length := List.length_pos_iff.2 (decimal_ne_nil n)
  have hn : n < 10 ^ (decimal n).length := (length_decimal_le_iff hpos).1 (Nat.le_refl _)
  exact (length_decimal_le_iff hpos).2 (by omega)

theorem isDigit_of_mem_decimal (n : Nat) : ∀ c ∈ decimal n, isDigit c = true := by
  induction n using Nat.strong_induction_on with
  | _ n ih =>
    intro c hc
    by_cases h : n < 10
    · rw [decimal_of_lt h, List.mem_singleton] at hc
      rw [hc]; exact (digitChar_byte h).1
    · rw [decimal_of_le (by omega), List.mem_append, List.mem_singleton] at hc
      rcases hc with hc | hc
      · exact ih (n / 10) (by omega) c hc
      · rw [hc]; exact (digitChar_byte (Nat.mod_lt n (by decide))).1

theorem value_append_singleton (ds : List UInt8) (c : UInt8) : value (ds ++ [c]) = value ds * 10 + digit c := by
  simp [value]

/-- **A numeral reads back.** -/
theorem value_decimal (n : Nat) : value (decimal n) = n := by
  induction n using Nat.strong_induction_on with
  | _ n ih =>
    by_cases h : n < 10
    · rw [decimal_of_lt h]
      simpa [value] using (digitChar_byte h).2
    · rw [decimal_of_le (by omega), value_append_singleton, ih (n / 10) (by omega),
        (digitChar_byte (Nat.mod_lt n (by decide))).2]
      omega

theorem decimal_injective {m n : Nat} (h : decimal m = decimal n) : m = n := by
  rw [← value_decimal m, h, value_decimal]

/-- A numeral does not begin with the sign. -/
theorem head?_decimal (n : Nat) : (decimal n).head? ≠ some 45 := by
  intro h
  exact absurd (isDigit_of_mem_decimal n 45 (List.mem_of_head? h)) (by decide)

theorem signedValue_signed (n : Int) : signedValue (signed n) = n := by
  unfold signed
  split
  · rw [signedValue, List.head?_cons, if_pos rfl, List.tail_cons, value_decimal]
    omega
  · rw [signedValue, if_neg (head?_decimal _), value_decimal]
    omega

theorem foldl_value_ge : ∀ (ds : List UInt8) (a : Nat), a ≤ ds.foldl (fun a c => a * 10 + digit c) a
  | [], a => Nat.le_refl a
  | c :: ds, a => by
    have := foldl_value_ge ds (a * 10 + digit c)
    rw [List.foldl_cons]
    omega

end Decimal
