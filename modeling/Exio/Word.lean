import Mathlib.Algebra.Group.Nat.Defs
import Mathlib.Algebra.Group.Int.Defs
import Mathlib.Data.Int.Basic
/-!
# Word — unsigned machine arithmetic at a width

Unsigned integers of `w` bits are natural numbers below `2 ^ w`, and every operation says its reduction: `add`, `sub` and
`mul` wrap, `ofInt` is the conversion from a signed value and `toInt` the one back.  The lemmas say when an operation
does not wrap.
-/
namespace Word

def add (w a b : Nat) : Nat := (a + b) % 2 ^ w

def sub (w a b : Nat) : Nat := (a + 2 ^ w - b) % 2 ^ w

def mul (w a b : Nat) : Nat := (a * b) % 2 ^ w

/-- A signed value converted to an unsigned one of `w` bits. -/
def ofInt (w : Nat) (z : Int) : Nat := (z % (2 ^ w : Nat)).toNat

/-- An unsigned value converted to a signed one of `w` bits. -/
def toInt (w n : Nat) : Int :=
  if n % 2 ^ w < 2 ^ (w - 1) then (n % 2 ^ w : Nat) else (n % 2 ^ w : Nat) - (2 ^ w : Nat)

theorem add_of_lt {w a b : Nat} (h : a + b < 2 ^ w) : add w a b = a + b := Nat.mod_eq_of_lt h

theorem mul_of_lt {w a b : Nat} (h : a * b < 2 ^ w) : mul w a b = a * b := Nat.mod_eq_of_lt h

theorem sub_of_le {w a b : Nat} (h : b ≤ a) (ha : a < 2 ^ w) : sub w a b = a - b := by
  rw [sub, show a + 2 ^ w - b = (a - b) + 2 ^ w by omega, Nat.add_mod_right]
  exact Nat.mod_eq_of_lt (by omega)

theorem ofInt_natCast {w n : Nat} (h : n < 2 ^ w) : ofInt w n = n := by
  rw [ofInt, ← Int.natCast_emod, Int.toNat_natCast]
  exact Nat.mod_eq_of_lt h

/-- A negative value wraps to the top of the range. -/
theorem ofInt_of_neg {w : Nat} {z : Int} (hz : z < 0) (h : -(2 ^ w : Nat) ≤ z) : (ofInt w z : Int) = z + (2 ^ w : Nat) := by
  have hpos : (0 : Int) < (2 ^ w : Nat) := Int.natCast_pos.2 (Nat.two_pow_pos w)
  rw [ofInt, Int.toNat_of_nonneg (Int.emod_nonneg _ (Int.ne_of_gt hpos)), ← Int.add_emod_right]
  exact Int.emod_eq_of_lt (by omega) (by omega)

theorem toInt_of_lt {w n : Nat} (hw : 0 < w) (h : n < 2 ^ (w - 1)) : toInt w n = n := by
  have hle : 2 ^ (w - 1) ≤ 2 ^ w := Nat.pow_le_pow_right (by decide) (by omega)
  rw [toInt, Nat.mod_eq_of_lt (by omega), if_pos h]

/-- **From an unsigned width to a narrower signed one and back**: a value survives exactly if it is in the signed range. -/
theorem ofInt_toInt_eq_iff {v w n : Nat} (hv : 0 < v) (hvw : v < w) (hn : n < 2 ^ (w - 1)) :
    ofInt w (toInt v n) = n ↔ n < 2 ^ (v - 1) := by
  have hhalf : ∀ {k}, 0 < k → 2 ^ k = 2 * 2 ^ (k - 1) := fun {k} hk => by
    rw [← Nat.pow_succ', Nat.succ_eq_add_one, Nat.sub_add_cancel hk]
  have hv2 := hhalf hv
  have hw2 := hhalf (Nat.lt_trans hv hvw)
  have hle : 2 ^ v ≤ 2 ^ (w - 1) := Nat.pow_le_pow_right (by decide) (by omega)
  have hmod : n % 2 ^ v < 2 ^ v := Nat.mod_lt _ (Nat.two_pow_pos v)
  refine ⟨fun h => ?_, fun h => ?_⟩
  · rw [toInt] at h
    split at h
    · rename_i hlow
      rw [ofInt_natCast (by omega)] at h
      omega
    · have hneg := @ofInt_of_neg w ((n % 2 ^ v : Nat) - (2 ^ v : Nat)) (by omega) (by omega)
      rw [h] at hneg
      omega
  · rw [toInt_of_lt hv h, ofInt_natCast (by omega)]

end Word
