import Mathlib.Data.List.Nodup
/-!
# Replica — a table of cells and a copy kept by deltas

A table is a partial map from row keys and columns to values.  A copy of it is kept by *deltas*: a delta empties the copy
or writes some cells of one row.  `cellsOf rows` is the table a list of keyed rows stands for; changing the row of a key
is writing the changed cells (`cellsOf_modify`), and writing every row of a list over any copy of it leaves the copy as it
is (`foldl_write_rows`, `over_self`), so that a whole table can be sent again at any time.  A copy that was begun late and
has only some of the cells (`Cells.Below`) stays so under the deltas, and the whole table completes it (`Below.over_eq`).
-/
namespace Replica

variable {κ χ ν : Type}

abbrev Cells (κ χ ν : Type) := κ → χ → Option ν

def Cells.empty : Cells κ χ ν := fun _ _ => none

inductive Delta (κ χ ν : Type) where
  | clear
  | write (k : κ) (row : χ → Option ν)

/-- The cells of `row` replace those of row `k`; the others stay. -/
def Cells.write [DecidableEq κ] (r : Cells κ χ ν) (k : κ) (row : χ → Option ν) : Cells κ χ ν :=
  fun k' c => if k' = k then (row c).or (r k' c) else r k' c

def Cells.apply [DecidableEq κ] (r : Cells κ χ ν) : Delta κ χ ν → Cells κ χ ν
  | .clear       => .empty
  | .write k row => r.write k row

/-- The cells of `r`, and those of `s` where `r` has none. -/
def Cells.over (r s : Cells κ χ ν) : Cells κ χ ν := fun k c => (r k c).or (s k c)

def cellsOf [DecidableEq κ] (rows : List (κ × (χ → Option ν))) : Cells κ χ ν :=
  fun k c => (rows.find? (fun row => row.1 = k)).bind (fun row => row.2 c)

theorem over_self (r : Cells κ χ ν) : r.over r = r := by
  funext k c
  exact Option.or_self

theorem over_empty (r : Cells κ χ ν) : r.over .empty = r := by
  funext k c
  exact Option.or_none

variable [DecidableEq κ]

theorem cellsOf_cons (k : κ) (row : χ → Option ν) (rows : List (κ × (χ → Option ν))) (k' : κ) (c : χ) :
    cellsOf ((k, row) :: rows) k' c = if k = k' then row c else cellsOf rows k' c := by
  unfold cellsOf
  rw [List.find?_cons]
  by_cases h : k = k' <;> simp [h]

theorem write_idem (r : Cells κ χ ν) (k : κ) (row : χ → Option ν) : (r.write k row).write k row = r.write k row := by
  funext k' c
  unfold Cells.write
  split
  · rw [← Option.or_assoc, Option.or_self]
  · rfl

/-- A row without cells adds nothing. -/
theorem cellsOf_append_blank (k : κ) : ∀ (rows : List (κ × (χ → Option ν))),
    cellsOf (rows ++ [(k, fun _ => none)]) = cellsOf rows
  | [] => by
    funext k' c
    rw [List.nil_append, cellsOf_cons]
    exact ite_self _
  | (k₀, row) :: rows => by
    funext k' c
    rw [List.cons_append, cellsOf_cons, cellsOf_cons, cellsOf_append_blank k rows]

/-- **Changing the row of a key is writing the cells that changed.** -/
theorem cellsOf_modify {k : κ} {row row' new : χ → Option ν} (hrow : ∀ c, row' c = (new c).or (row c))
    (post : List (κ × (χ → Option ν))) : ∀ (pre : List (κ × (χ → Option ν))), k ∉ pre.map Prod.fst →
    cellsOf (pre ++ (k, row') :: post) = (cellsOf (pre ++ (k, row) :: post)).write k new
  | [], _ => by
    funext k' c
    rw [Cells.write, List.nil_append, List.nil_append, cellsOf_cons, cellsOf_cons]
    by_cases h : k = k'
    · rw [if_pos h, if_pos h, if_pos h.symm, hrow]
    · rw [if_neg h, if_neg h, if_neg (Ne.symm h)]
  | (k₀, row₀) :: pre, hk => by
    rw [List.map_cons, List.mem_cons, not_or] at hk
    funext k' c
    have ih := congrFun (congrFun (cellsOf_modify hrow post pre hk.2) k') c
    rw [Cells.write] at ih ⊢
    rw [List.cons_append, List.cons_append, cellsOf_cons, cellsOf_cons, ih]
    by_cases h : k₀ = k'
    · rw [if_pos h, if_pos h, if_neg (fun he => hk.1 (he.symm.trans h.symm))]
    · rw [if_neg h, if_neg h]

/-- **Writing every row of a table puts the table over the copy.** -/
theorem foldl_write_rows : ∀ (rows : List (κ × (χ → Option ν))) (r : Cells κ χ ν), (rows.map Prod.fst).Nodup →
    rows.foldl (fun r row => r.write row.1 row.2) r = (cellsOf rows).over r
  | [], _, _ => rfl
  | (k, row) :: rows, r, h => by
    obtain ⟨hk, hrows⟩ := List.nodup_cons.1 (List.map_cons ▸ h)
    rw [List.foldl_cons, foldl_write_rows rows _ hrows]
    funext k' c
    rw [Cells.over, Cells.over, Cells.write, cellsOf_cons]
    by_cases he : k = k'
    · have hnone : cellsOf rows k' c = none := by
        rw [cellsOf, List.find?_eq_none.2 (fun p hp hpk => hk ?_)]
        · rfl
        · exact List.mem_map.2 ⟨p, hp, (of_decide_eq_true hpk).trans he.symm⟩
      rw [hnone, if_pos he.symm, if_pos he, Option.none_or]
    · rw [if_neg (Ne.symm he), if_neg he]

/-! ## A copy that has only some of the cells -/

/-- What the copy has, the table has. -/
def Cells.Below (r s : Cells κ χ ν) : Prop := ∀ k c v, r k c = some v → s k c = some v

omit [DecidableEq κ] in
theorem Cells.Below.empty (s : Cells κ χ ν) : Cells.empty.Below s := fun _ _ _ h => by cases h

omit [DecidableEq κ] in
theorem Cells.Below.refl (s : Cells κ χ ν) : s.Below s := fun _ _ _ h => h

omit [DecidableEq κ] in
theorem Cells.Below.eq_empty {r : Cells κ χ ν} (h : r.Below .empty) : r = .empty := by
  funext k c
  cases hr : r k c with
  | none => rfl
  | some v => exact absurd (h k c v hr) (by rintro ⟨⟩)

omit [DecidableEq κ] in
/-- **The whole table completes the copy.** -/
theorem Cells.Below.over_eq {r s : Cells κ χ ν} (h : r.Below s) : s.over r = s := by
  funext k c
  unfold Cells.over
  cases hs : s k c with
  | some v => rfl
  | none =>
    cases hr : r k c with
    | none => rfl
    | some v => exact absurd (h k c v hr) (by rw [hs]; rintro ⟨⟩)

/-- A delta writes the same to both. -/
theorem Cells.Below.apply {r s : Cells κ χ ν} (h : r.Below s) (d : Delta κ χ ν) : (r.apply d).Below (s.apply d) := by
  cases d with
  | clear => exact Cells.Below.empty _
  | write k row =>
    intro k' c v hv
    simp only [Cells.apply, Cells.write] at hv ⊢
    split at hv
    · rename_i hk
      rw [if_pos hk]
      rcases Option.or_eq_some_iff.1 hv with hrow | ⟨hrow, hr⟩
      · rw [hrow, Option.some_or]
      · rw [hrow, Option.none_or, h k' c v hr]
    · rename_i hk
      rw [if_neg hk, h k' c v hv]

theorem Cells.Below.foldl_apply : ∀ (ds : List (Delta κ χ ν)) {r s : Cells κ χ ν}, r.Below s →
    (ds.foldl Cells.apply r).Below (ds.foldl Cells.apply s)
  | [], _, _, h => h
  | d :: ds, _, _, h => Cells.Below.foldl_apply ds (h.apply d)

/-! ## Messages read more than once -/

theorem foldl_replicate {ρ μ : Type} {read : ρ → μ → ρ} {m : μ} {r : ρ} (h : read r m = r) : ∀ n : Nat,
    (List.replicate n m).foldl read r = r
  | 0     => rfl
  | n + 1 => by rw [List.replicate_succ, List.foldl_cons, h, foldl_replicate h n]

/-- Where every message can be read twice, a stream that repeats each of its messages is read like the stream. -/
theorem foldl_replicate_idem {ρ μ : Type} {read : ρ → μ → ρ} {n : Nat} (hn : 0 < n) : ∀ (msgs : List μ) {r : ρ},
    (∀ m ∈ msgs, ∀ r, read (read r m) m = read r m) →
    (msgs.flatMap (List.replicate n)).foldl read r = msgs.foldl read r
  | [], _, _ => rfl
  | m :: msgs, r, h => by
    obtain ⟨hm, hrest⟩ := List.forall_mem_cons.1 h
    obtain ⟨n', rfl⟩ := Nat.exists_eq_add_of_lt hn
    rw [List.flatMap_cons, List.foldl_append, foldl_replicate_idem hn msgs hrest, Nat.zero_add, List.replicate_succ,
      List.foldl_cons, foldl_replicate (hm r) n', List.foldl_cons]

end Replica
