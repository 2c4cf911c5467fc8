import Mathlib.Data.List.Nodup
/-!
# KeyIndex — a vector of distinct keys and the map of their positions

A program that wants both an order and a fast lookup keeps its keys twice: in a vector, and in a map from each key to its
position.  `Indexed keys index` says that the two agree.  The map is built again from the vector (`rebuild`), or follows
the removal of one position (`remove`); both keep the agreement.

A map whose entries are written one by one into something that is looked up by key is there as a whole
(`lookup_foldl_toList`); if the writes give way to what is there, it fills the gaps (`lookup_foldl_keeping`).

`Indexes key l index` is the agreement for a list of which only some elements have a key: the map holds exactly their
positions.  It survives a push and an update in place, and the map has as many entries as the list has keys.
-/
namespace KeyIndex

variable {α : Type}

/-! ## A map written entry by entry -/

section Write

variable {β γ : Type} {c : α} {write : γ → α × β → γ} {lookup : γ → Option β}

theorem lookup_foldl_of_not_mem [DecidableEq α]
    (hw : ∀ acc e, lookup (write acc e) = if e.1 = c then some e.2 else lookup acc) : ∀ (es : List (α × β)) (acc : γ),
    c ∉ es.map Prod.fst → lookup (es.foldl write acc) = lookup acc
  | [], _, _ => rfl
  | e :: es, acc, h => by
    rw [List.map_cons, List.mem_cons, not_or] at h
    rw [List.foldl_cons, lookup_foldl_of_not_mem hw es _ h.2, hw, if_neg (Ne.symm h.1)]

theorem lookup_foldl_of_mem [DecidableEq α] {v : β}
    (hw : ∀ acc e, lookup (write acc e) = if e.1 = c then some e.2 else lookup acc) : ∀ (es : List (α × β)) (acc : γ),
    (es.map Prod.fst).Nodup → (c, v) ∈ es → lookup (es.foldl write acc) = some v
  | e :: es, acc, hnd, h => by
    obtain ⟨hn, hes⟩ := List.nodup_cons.1 (List.map_cons ▸ hnd)
    rw [List.foldl_cons]
    rcases List.mem_cons.1 h with rfl | hm
    · rw [lookup_foldl_of_not_mem hw es _ hn, hw, if_pos rfl]
    · exact lookup_foldl_of_mem hw es _ hes hm

/-- **A map's entries over what was there.** -/
theorem lookup_foldl_toList [DecidableEq α] [Ord α] [Std.TransOrd α] [Std.LawfulEqOrd α]
    (hw : ∀ acc e, lookup (write acc e) = if e.1 = c then some e.2 else lookup acc) (m : Std.TreeMap α β) (acc : γ) :
    lookup (m.toList.foldl write acc) = m[c]?.or (lookup acc) := by
  cases hc : m[c]? with
  | none =>
    rw [lookup_foldl_of_not_mem hw, Option.none_or]
    rw [Std.TreeMap.map_fst_toList_eq_keys, Std.TreeMap.mem_keys]
    simpa using hc
  | some v =>
    rw [lookup_foldl_of_mem (v := v) hw _ _ ?_ (Std.TreeMap.mem_toList_iff_getElem?_eq_some.2 hc), Option.some_or]
    rw [Std.TreeMap.map_fst_toList_eq_keys]
    exact Std.TreeMap.nodup_keys

end Write

/-! ## Writing only what is not there yet -/

section Keep

variable {ε β γ : Type}

/-- **A loop whose writes give way to what is there**: the first value that is offered stays. -/
theorem lookup_foldl_keeping (lookup : γ → Option β) {write : γ → ε → γ} {val : ε → Option β}
    (hw : ∀ acc e, lookup (write acc e) = (lookup acc).or (val e)) : ∀ (es : List ε) (acc : γ),
    lookup (es.foldl write acc) = (lookup acc).or (es.findSome? val)
  | [], acc => by rw [List.foldl_nil, List.findSome?_nil, Option.or_none]
  | e :: es, acc => by
    rw [List.foldl_cons, lookup_foldl_keeping lookup hw es, hw, Option.or_assoc, List.findSome?_cons]
    cases val e <;> rfl

theorem findSome?_of_not_mem [DecidableEq α] (key : ε → α) (val : ε → Option β) {es : List ε} {c : α}
    (h : c ∉ es.map key) : es.findSome? (fun e => if key e = c then val e else none) = none := by
  rw [List.findSome?_eq_none_iff]
  intro e he
  rw [if_neg]
  rintro rfl
  exact h (List.mem_map_of_mem he)

/-- Under distinct keys the one entry of a key decides. -/
theorem findSome?_of_mem [DecidableEq α] (key : ε → α) (val : ε → Option β) : ∀ {es : List ε} {e : ε},
    (es.map key).Nodup → e ∈ es → es.findSome? (fun x => if key x = key e then val x else none) = val e
  | x :: es, e, hnd, he => by
    rw [List.map_cons, List.nodup_cons] at hnd
    rw [List.findSome?_cons]
    rcases List.mem_cons.1 he with rfl | he
    · rw [if_pos rfl, findSome?_of_not_mem key val hnd.1]
      cases val e <;> rfl
    · have hne : key x ≠ key e := fun hx => hnd.1 (hx ▸ List.mem_map_of_mem he)
      rw [if_neg hne]
      exact findSome?_of_mem key val hnd.2 he

theorem findSome?_toList [DecidableEq α] [Ord α] [Std.TransOrd α] [Std.LawfulEqOrd α] (m : Std.TreeMap α β) (c : α) :
    m.toList.findSome? (fun e => if e.1 = c then some e.2 else none) = m[c]? := by
  cases hc : m[c]? with
  | none =>
    refine findSome?_of_not_mem Prod.fst (fun e => some e.2) ?_
    rw [Std.TreeMap.map_fst_toList_eq_keys, Std.TreeMap.mem_keys]
    simpa using hc
  | some v =>
    refine findSome?_of_mem Prod.fst (fun e => some e.2) (e := (c, v)) ?_ ?_
    · rw [Std.TreeMap.map_fst_toList_eq_keys]
      exact Std.TreeMap.nodup_keys
    · exact Std.TreeMap.mem_toList_iff_getElem?_eq_some.2 hc

end Keep

/-! ## Positions -/

variable [Ord α]

/-- The keys are distinct, and the map holds exactly their positions. -/
structure Indexed (keys : List α) (index : Std.TreeMap α Nat) : Prop where
  nodup : keys.Nodup
  iff   : ∀ (k : α) (i : Nat), index[k]? = some i ↔ keys[i]? = some k

def rebuild (keys : List α) : Std.TreeMap α Nat :=
  keys.zipIdx.foldl (fun index e => index.insert e.1 e.2) ∅

/-- Position `i`, which is that of `k`, goes: every later position moves down by one. -/
def remove (index : Std.TreeMap α Nat) (k : α) (i : Nat) : Std.TreeMap α Nat :=
  (index.erase k).map (fun _ j => if i < j then j - 1 else j)

theorem Indexed.empty [Std.TransOrd α] : Indexed ([] : List α) ∅ :=
  ⟨List.nodup_nil, fun k i => by simp⟩

theorem Indexed.eq_none_iff {keys : List α} {index : Std.TreeMap α Nat} (h : Indexed keys index) (k : α) :
    index[k]? = none ↔ k ∉ keys := by
  rw [List.mem_iff_getElem?, Option.eq_none_iff_forall_ne_some]
  refine ⟨fun hn => ?_, fun hn i hi => hn ⟨i, (h.iff k i).1 hi⟩⟩
  rintro ⟨i, hi⟩
  exact hn i ((h.iff k i).2 hi)

variable [Std.TransOrd α] [Std.LawfulEqOrd α]

/-- The loop of `rebuild`, from position `n` on. -/
theorem getElem?_rebuild_loop (k : α) (i : Nat) : ∀ (keys : List α) (n : Nat) (index : Std.TreeMap α Nat), keys.Nodup →
    (((keys.zipIdx n).foldl (fun index e => index.insert e.1 e.2) index)[k]? = some i ↔
      (∃ j, keys[j]? = some k ∧ i = n + j) ∨ (k ∉ keys ∧ index[k]? = some i))
  | [], n, index, _ => by simp
  | key :: keys, n, index, h => by
    obtain ⟨hkey, hkeys⟩ := List.nodup_cons.1 h
    rw [List.zipIdx_cons, List.foldl_cons, getElem?_rebuild_loop k i keys (n + 1) _ hkeys, Std.TreeMap.getElem?_insert]
    constructor
    · rintro (⟨j, hj, rfl⟩ | ⟨hk, hi⟩)
      · exact .inl ⟨j + 1, hj, by omega⟩
      · split at hi
        · rename_i he
          cases hi
          exact .inl ⟨0, congrArg some (Std.LawfulEqOrd.compare_eq_iff_eq.1 he), rfl⟩
        · rename_i he
          refine .inr ⟨fun hm => ?_, hi⟩
          rcases List.mem_cons.1 hm with rfl | hm
          · exact he Std.ReflOrd.compare_self
          · exact hk hm
    · rintro (⟨j, hj, rfl⟩ | ⟨hk, hi⟩)
      · cases j with
        | zero =>
          cases Option.some.inj hj
          exact .inr ⟨hkey, if_pos Std.ReflOrd.compare_self⟩
        | succ j => exact .inl ⟨j, hj, by omega⟩
      · rw [List.mem_cons, not_or] at hk
        refine .inr ⟨hk.2, ?_⟩
        rw [if_neg (fun he => hk.1 (Std.LawfulEqOrd.compare_eq_iff_eq.1 he).symm)]
        exact hi

/-- **A rebuilt index agrees with its vector.** -/
theorem Indexed.rebuild {keys : List α} (h : keys.Nodup) : Indexed keys (rebuild keys) := by
  refine ⟨h, fun k i => ?_⟩
  rw [KeyIndex.rebuild, getElem?_rebuild_loop k i keys 0 ∅ h]
  simp

/-- A key that is not there yet goes to the end. -/
theorem Indexed.push {keys : List α} {index : Std.TreeMap α Nat} (h : Indexed keys index) {k : α}
    (hk : index[k]? = none) : Indexed (keys ++ [k]) (KeyIndex.rebuild (keys ++ [k])) := by
  refine .rebuild ?_
  rw [← List.concat_eq_append]
  exact List.Nodup.concat ((h.eq_none_iff k).1 hk) h.nodup

/-- **Removing a position keeps the agreement.** -/
theorem Indexed.remove {keys : List α} {index : Std.TreeMap α Nat} (h : Indexed keys index) {k : α} {i : Nat}
    (hi : index[k]? = some i) : Indexed (keys.eraseIdx i) (remove index k i) := by
  have hki := (h.iff k i).1 hi
  refine ⟨h.nodup.sublist (List.eraseIdx_sublist keys i), fun k' j => ?_⟩
  have hother : ∀ j', keys[j']? = some k' → (k = k' ↔ j' = i) := fun j' hj' => by
    constructor
    · rintro rfl
      exact (List.getElem?_inj (List.getElem?_eq_some_iff.1 hj').1 h.nodup).1 (hj'.trans hki.symm)
    · rintro rfl
      exact Option.some.inj (hki.symm.trans hj')
  rw [KeyIndex.remove, Std.TreeMap.getElem?_map, Std.TreeMap.getElem?_erase, List.getElem?_eraseIdx]
  constructor
  · intro hj
    split at hj
    · cases hj
    · rename_i hne
      obtain ⟨j', hj', rfl⟩ := Option.map_eq_some_iff.1 hj
      have hk' := (h.iff k' j').1 hj'
      have hji : j' ≠ i := fun he => hne (Std.LawfulEqOrd.compare_eq_iff_eq.2 ((hother j' hk').2 he))
      by_cases hlt : i < j'
      · rw [if_pos hlt, if_neg (by omega), Nat.sub_add_cancel (by omega)]
        exact hk'
      · rw [if_neg hlt, if_pos (by omega)]
        exact hk'
  · intro hj
    have hpos : ∃ j', keys[j']? = some k' ∧ j' ≠ i ∧ (if i < j' then j' - 1 else j') = j := by
      split at hj
      · exact ⟨j, hj, by omega, if_neg (by omega)⟩
      · exact ⟨j + 1, hj, by omega, by rw [if_pos (by omega)]; rfl⟩
    obtain ⟨j', hj', hne, rfl⟩ := hpos
    rw [if_neg (fun he => hne ((hother j' hj').1 (Std.LawfulEqOrd.compare_eq_iff_eq.1 he))), (h.iff k' j').2 hj']
    rfl

/-! ## The elements that have a key -/

section Indexes

variable {β : Type} {key : β → Option α} {l : List β} {index : Std.TreeMap α Nat}

/-- **The map holds exactly the positions of the elements that have a key**, each under its own. -/
def Indexes (key : β → Option α) (l : List β) (index : Std.TreeMap α Nat) : Prop :=
  ∀ (k : α) (i : Nat), index[k]? = some i ↔ l[i]?.bind key = some k

omit [Std.LawfulEqOrd α] in
theorem Indexes.empty : Indexes key [] (∅ : Std.TreeMap α Nat) := fun k i => by simp

omit [Std.LawfulEqOrd α] [Std.TransOrd α] in
theorem Indexes.eq_none_iff (h : Indexes key l index) (k : α) : index[k]? = none ↔ k ∉ l.filterMap key := by
  rw [List.mem_filterMap, Option.eq_none_iff_forall_ne_some]
  constructor
  · rintro hn ⟨x, hx, hk⟩
    obtain ⟨i, hi⟩ := List.mem_iff_getElem?.1 hx
    exact hn i ((h k i).2 (by rw [hi]; exact hk))
  · intro hn i hi
    obtain ⟨x, hx, hk⟩ := Option.bind_eq_some_iff.1 ((h k i).1 hi)
    exact hn ⟨x, List.mem_of_getElem? hx, hk⟩

omit [Std.LawfulEqOrd α] [Std.TransOrd α] in
/-- An element without a key goes to the end. -/
theorem Indexes.push_none (h : Indexes key l index) {x : β} (hx : key x = none) : Indexes key (l ++ [x]) index := by
  intro k i
  rw [h k i, List.getElem?_append]
  split
  · exact Iff.rfl
  · rename_i hi
    rw [List.getElem?_eq_none (by omega)]
    rcases Nat.lt_or_ge (i - l.length) 1 with hlt | hge
    · rw [show i - l.length = 0 by omega]
      simp [hx]
    · rw [List.getElem?_eq_none (by simpa using hge)]

/-- **An element whose key is new goes to the end**, and its position into the map. -/
theorem Indexes.push (h : Indexes key l index) {x : β} {c : α} (hx : key x = some c) (hc : index[c]? = none) :
    Indexes key (l ++ [x]) (index.insertIfNew c l.length) := by
  have hmem : c ∉ index := by simpa using hc
  intro k i
  rw [Std.TreeMap.getElem?_insertIfNew, List.getElem?_append]
  by_cases hk : c = k
  · subst hk
    rw [if_pos ⟨Std.ReflOrd.compare_self, hmem⟩, Option.some.injEq]
    constructor
    · rintro rfl
      simp [hx]
    · intro hi
      split at hi
      · rw [← h c i, hc] at hi
        cases hi
      · rename_i hlt
        rcases Nat.lt_or_ge (i - l.length) 1 with h1 | h1
        · omega
        · rw [List.getElem?_eq_none (by simpa using h1)] at hi
          cases hi
  · rw [if_neg (fun he => hk (Std.LawfulEqOrd.compare_eq_iff_eq.1 he.1)), h k i]
    split
    · exact Iff.rfl
    · rename_i hlt
      rw [List.getElem?_eq_none (by omega)]
      constructor
      · intro he
        cases he
      · intro he
        rcases Nat.lt_or_ge (i - l.length) 1 with h1 | h1
        · rw [show i - l.length = 0 by omega, List.getElem?_cons_zero, Option.bind_some, hx] at he
          exact absurd (Option.some.inj he) hk
        · rw [List.getElem?_eq_none (by simpa using h1)] at he
          cases he

omit [Std.LawfulEqOrd α] [Std.TransOrd α] in
/-- An element updated in place with its key kept. -/
theorem Indexes.modify (h : Indexes key l index) {j : Nat} {f : β → β} (hf : ∀ x, l[j]? = some x → key (f x) = key x) :
    Indexes key (l.modify j f) index := by
  intro k i
  rw [h k i, List.getElem?_modify]
  by_cases hj : j = i
  · subst hj
    cases hx : l[j]? with
    | none => simp
    | some x => simp [hf x hx]
  · simp [hj]

omit [Std.LawfulEqOrd α] [Std.TransOrd α] in
theorem Indexes.nodup (h : Indexes key l index) : (l.filterMap key).Nodup := by
  have huniq : ∀ (k : α) (i j : Nat), l[i]?.bind key = some k → l[j]?.bind key = some k → i = j := by
    intro k i j hi hj
    exact Option.some.inj (((h k i).2 hi).symm.trans ((h k j).2 hj))
  clear h
  induction l with
  | nil => exact List.nodup_nil
  | cons x l ih =>
    have ih := ih fun k i j hi hj => Nat.succ.inj (huniq k (i + 1) (j + 1) hi hj)
    rw [List.filterMap_cons]
    split
    · exact ih
    · rename_i c hc
      refine List.nodup_cons.2 ⟨fun hm => ?_, ih⟩
      obtain ⟨y, hy, hk⟩ := List.mem_filterMap.1 hm
      obtain ⟨i, hi⟩ := List.mem_iff_getElem?.1 hy
      have := huniq c 0 (i + 1) (by simpa using hc) (by simp [hi, hk])
      omega

/-- **As many entries as keys.** -/
theorem Indexes.size_eq (h : Indexes key l index) : index.size = (l.filterMap key).length := by
  rw [← Std.TreeMap.length_keys]
  refine List.Perm.length_eq ((List.perm_ext_iff_of_nodup Std.TreeMap.nodup_keys h.nodup).2 fun k => ?_)
  have hnone : k ∉ index ↔ k ∉ l.filterMap key := by
    rw [← h.eq_none_iff k]
    simp
  rw [Std.TreeMap.mem_keys]
  exact not_iff_not.1 hnone

end Indexes

end KeyIndex
