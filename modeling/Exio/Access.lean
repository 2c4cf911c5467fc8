import Mathlib.Data.List.Basic
/-!
# Access — computations that log what they read

A `Logged α` is a value and the addresses that were read on the way to it, in order.  `load mem i` reads one address;
computations are put together by `do`, and the log of the whole is the logs of the parts.  `Below lim` says that nothing
at or beyond `lim` was read: of a sequence it holds exactly if it holds of every part (`below_bind`).  `Ensures lim R` adds a
postcondition on the value.

`span mem p e` is the memory from `p` up to `e` as a list, the view of a program that only looks at what is left.
-/
namespace Access

/-- A value, and the addresses read for it. -/
structure Logged (α : Type) where
  val   : α
  reads : List Nat

instance : Monad Logged where
  pure a   := ⟨a, []⟩
  bind x f := ⟨(f x.val).val, x.reads ++ (f x.val).reads⟩

variable {α β : Type}

def load (mem : Nat → β) (i : Nat) : Logged β := ⟨mem i, [i]⟩

@[simp] theorem val_pure (a : α) : (pure a : Logged α).val = a := rfl

@[simp] theorem val_bind (x : Logged α) (f : α → Logged β) : (x >>= f).val = (f x.val).val := rfl

@[simp] theorem val_load (mem : Nat → β) (i : Nat) : (load mem i).val = mem i := rfl

/-- **Nothing at or beyond `lim` was read.** -/
def Logged.Below (lim : Nat) (x : Logged α) : Prop := ∀ i ∈ x.reads, i < lim

instance (lim : Nat) (x : Logged α) : Decidable (x.Below lim) := inferInstanceAs (Decidable (∀ i ∈ x.reads, i < lim))

@[simp] theorem below_pure (lim : Nat) (a : α) : (pure a : Logged α).Below lim := fun _ hi => absurd hi List.not_mem_nil

@[simp] theorem below_bind (lim : Nat) (x : Logged α) (f : α → Logged β) :
    (x >>= f).Below lim ↔ x.Below lim ∧ (f x.val).Below lim := by
  show (∀ i ∈ x.reads ++ (f x.val).reads, i < lim) ↔ _
  simp only [List.mem_append, or_imp, forall_and]
  rfl

@[simp] theorem below_load (lim : Nat) (mem : Nat → β) (i : Nat) : (load mem i).Below lim ↔ i < lim := by
  simp [Logged.Below, load]

theorem Logged.Below.mono {lim lim' : Nat} {x : Logged α} (h : x.Below lim) (hle : lim ≤ lim') : x.Below lim' :=
  fun i hi => Nat.lt_of_lt_of_le (h i hi) hle

/-- **The value satisfies `R`, and nothing from `lim` on was read for it.** -/
def Logged.Ensures (lim : Nat) (R : α → Prop) (x : Logged α) : Prop := R x.val ∧ x.Below lim

theorem ensures_pure {lim : Nat} {R : α → Prop} {a : α} (h : R a) : (pure a : Logged α).Ensures lim R :=
  ⟨h, below_pure lim a⟩

theorem ensures_bind {lim : Nat} {R : α → Prop} {x : Logged β} {f : β → Logged α} (hx : x.Below lim)
    (h : (f x.val).Ensures lim R) : (x >>= f).Ensures lim R :=
  ⟨h.1, (below_bind _ _ _).2 ⟨hx, h.2⟩⟩

theorem ensures_load {lim p : Nat} {R : α → Prop} {mem : Nat → β} {f : β → Logged α} (hp : p < lim)
    (h : (f (mem p)).Ensures lim R) : (load mem p >>= f).Ensures lim R :=
  ensures_bind ((below_load _ _ _).2 hp) h

/-! ## The memory as a list -/

/-- The memory from `p` up to `e`. -/
def span (mem : Nat → β) (p e : Nat) : List β := (List.range' p (e - p)).map mem

theorem span_of_le (mem : Nat → β) {p e : Nat} (h : e ≤ p) : span mem p e = [] := by
  rw [span, Nat.sub_eq_zero_of_le h]
  rfl

theorem span_of_lt (mem : Nat → β) {p e : Nat} (h : p < e) : span mem p e = mem p :: span mem (p + 1) e := by
  obtain ⟨k, rfl⟩ : ∃ k, e = p + (k + 1) := ⟨e - p - 1, by omega⟩
  rw [span, span, Nat.add_sub_cancel_left, show p + (k + 1) - (p + 1) = k by omega, List.range'_succ, List.map_cons]

@[simp] theorem length_span (mem : Nat → β) (p e : Nat) : (span mem p e).length = e - p := by simp [span]

theorem drop_span (mem : Nat → β) (p e k : Nat) : (span mem p e).drop k = span mem (p + k) e := by
  rw [span, span, ← List.map_drop, List.drop_range', show e - (p + k) = e - p - k by omega, Nat.mul_one]

theorem take_span (mem : Nat → β) {p e k : Nat} (h : p + k ≤ e) : (span mem p e).take k = span mem p (p + k) := by
  rw [span, span, ← List.map_take, List.take_range'_of_length_ge (by omega), Nat.add_sub_cancel_left]

/-- The `n` elements from `p` on, all of them read. -/
def loads (mem : Nat → β) (p n : Nat) : Logged (List β) := ⟨span mem p (p + n), List.range' p n⟩

@[simp] theorem val_loads (mem : Nat → β) (p n : Nat) : (loads mem p n).val = span mem p (p + n) := rfl

theorem below_loads {lim : Nat} (mem : Nat → β) {p n : Nat} (h : p + n ≤ lim) : (loads mem p n).Below lim := by
  intro i hi
  have := (List.mem_range'_1.1 hi).2
  omega

end Access
