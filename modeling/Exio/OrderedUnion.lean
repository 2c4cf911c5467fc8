import Mathlib.Data.List.Nodup
/-!
# OrderedUnion — lists as ordered dictionaries, and their override union

A list whose elements carry a key is a dictionary that remembers in which order its keys came.  `absorb` puts one element
in: combined with the one of its key, or at the end; `union l m` absorbs `m` into `l`, element by element.  A dictionary
with distinct keys is determined by its keys and its lookups (`ext_lookup`), and a union has the keys of `l` followed by
the new ones of `m` (`map_key_union`) and looks up both sides (`lookup_union`).  That gives the laws: the union with
nothing, idempotence and associativity, each from the same law of `combine` on elements of one key.
-/
namespace OrderedUnion

/-! ## The order of first insertion -/

section Keys

variable {κ : Type} [DecidableEq κ]

def pushNew (ks : List κ) (k : κ) : List κ := if k ∈ ks then ks else ks ++ [k]

/-- **The keys of a log of insertions in the order of their first insertion.** -/
def firsts (log : List κ) : List κ := log.foldl pushNew []

theorem nodup_pushNew {ks : List κ} (h : ks.Nodup) (k : κ) : (pushNew ks k).Nodup := by
  rw [pushNew]
  split
  · exact h
  · rename_i hk
    rw [← List.concat_eq_append]
    exact h.concat hk

theorem nodup_foldl_pushNew : ∀ (log ks : List κ), ks.Nodup → (log.foldl pushNew ks).Nodup
  | [], _, h => h
  | k :: log, ks, h => nodup_foldl_pushNew log (pushNew ks k) (nodup_pushNew h k)

/-- Distinct insertions over what is there: only the new ones, in their order. -/
theorem foldl_pushNew : ∀ (log ks : List κ), log.Nodup → log.foldl pushNew ks = ks ++ log.filter (fun k => k ∉ ks)
  | [], ks, _ => by simp
  | k :: log, ks, h => by
    obtain ⟨hk, hlog⟩ := List.nodup_cons.1 h
    rw [List.foldl_cons, foldl_pushNew log _ hlog, pushNew]
    split
    · rename_i hm
      rw [List.filter_cons_of_neg (by simpa using hm)]
    · rename_i hm
      rw [List.filter_cons_of_pos (by simpa using hm), List.append_assoc, List.singleton_append]
      congr 2
      refine List.filter_congr fun x hx => ?_
      have hxk : x ≠ k := fun he => hk (he ▸ hx)
      simp [hxk]

theorem foldl_pushNew_of_subset : ∀ (log ks : List κ), (∀ k ∈ log, k ∈ ks) → log.foldl pushNew ks = ks
  | [], _, _ => rfl
  | k :: log, ks, h => by
    rw [List.foldl_cons, pushNew, if_pos (h k List.mem_cons_self)]
    exact foldl_pushNew_of_subset log ks (fun x hx => h x (List.mem_cons_of_mem k hx))

theorem mem_foldl_pushNew (k : κ) : ∀ (log ks : List κ), k ∈ log.foldl pushNew ks ↔ k ∈ ks ∨ k ∈ log
  | [], ks => by simp
  | x :: log, ks => by
    rw [List.foldl_cons, mem_foldl_pushNew k log, pushNew]
    split
    · rename_i hx
      rw [List.mem_cons]
      constructor
      · rintro (h | h)
        · exact .inl h
        · exact .inr (.inr h)
      · rintro (h | rfl | h)
        · exact .inl h
        · exact .inl hx
        · exact .inr h
    · rw [List.mem_append, List.mem_singleton, List.mem_cons, or_assoc]

theorem foldl_pushNew_foldl (l : List κ) : ∀ (log ks : List κ),
    (log.foldl pushNew ks).foldl pushNew l = log.foldl pushNew (ks.foldl pushNew l)
  | [], _ => rfl
  | k :: log, ks => by
    have hk : (pushNew ks k).foldl pushNew l = pushNew (ks.foldl pushNew l) k := by
      rw [pushNew]
      split
      · rename_i hm
        rw [pushNew, if_pos ((mem_foldl_pushNew k ks l).2 (.inr hm))]
      · rw [List.foldl_append]
        rfl
    rw [List.foldl_cons, foldl_pushNew_foldl l log, hk, List.foldl_cons]

end Keys

/-! ## Dictionaries -/

variable {α κ : Type} [DecidableEq κ] {key : α → κ} {combine : α → α → α}

section

variable (key : α → κ)

def lookup (k : κ) (l : List α) : Option α := l.find? (fun x => key x = k)

variable (combine : α → α → α)

def absorb : List α → α → List α
  | [], x     => [x]
  | y :: l, x => if key y = key x then combine y x :: l else y :: absorb l x

def union (l m : List α) : List α := m.foldl (absorb key combine) l

end

theorem lookup_cons (k : κ) (x : α) (l : List α) :
    lookup key k (x :: l) = if key x = k then some x else lookup key k l := by
  rw [lookup, List.find?_cons]
  by_cases h : key x = k
  · simp [h]
  · simp [h, lookup]

theorem key_of_lookup {k : κ} {l : List α} {x : α} (h : lookup key k l = some x) : key x = k := by
  simpa using List.find?_some h

theorem mem_of_lookup {k : κ} {l : List α} {x : α} (h : lookup key k l = some x) : x ∈ l := List.mem_of_find?_eq_some h

theorem lookup_eq_none_iff {k : κ} {l : List α} : lookup key k l = none ↔ k ∉ l.map key := by
  rw [lookup, List.find?_eq_none, List.mem_map, not_exists]
  exact forall_congr' fun x => by simp

theorem lookup_append (k : κ) (l m : List α) : lookup key k (l ++ m) = (lookup key k l).or (lookup key k m) :=
  List.find?_append

/-- An update that keeps the keys. -/
theorem lookup_map {g : α → α} (hg : ∀ x, key (g x) = key x) (k : κ) : ∀ (l : List α),
    lookup key k (l.map g) = (lookup key k l).map g
  | [] => rfl
  | x :: l => by
    rw [List.map_cons, lookup_cons, lookup_cons, hg, lookup_map hg k l]
    split <;> rfl

theorem lookup_filter (p : κ → Bool) (k : κ) : ∀ (l : List α),
    lookup key k (l.filter (fun x => p (key x))) = if p k then lookup key k l else none
  | [] => by simp [lookup]
  | x :: l => by
    have ih := lookup_filter p k l
    by_cases hp : p (key x) = true
    · rw [List.filter_cons, if_pos hp, lookup_cons, lookup_cons, ih]
      by_cases hk : key x = k
      · rw [if_pos hk, if_pos hk, ← hk, if_pos hp]
      · rw [if_neg hk, if_neg hk]
    · rw [List.filter_cons, if_neg hp, lookup_cons, ih]
      by_cases hk : key x = k
      · rw [← hk, if_neg hp, if_neg hp]
      · rw [if_neg hk]

/-- **A dictionary with distinct keys is determined by its keys and its lookups.** -/
theorem ext_lookup : ∀ {l m : List α}, l.map key = m.map key → (l.map key).Nodup →
    (∀ k, lookup key k l = lookup key k m) → l = m
  | [], [], _, _, _ => rfl
  | [], _ :: _, hk, _, _ => by cases hk
  | _ :: _, [], hk, _, _ => by cases hk
  | x :: l, y :: m, hk, hnd, hl => by
    rw [List.map_cons, List.map_cons, List.cons.injEq] at hk
    obtain ⟨hx, hnd⟩ := List.nodup_cons.1 (List.map_cons ▸ hnd)
    have hxy : x = y := by
      have := hl (key x)
      rw [lookup_cons, lookup_cons, if_pos rfl, if_pos hk.1.symm] at this
      exact Option.some.inj this
    subst hxy
    rw [ext_lookup hk.2 hnd fun k => ?_]
    by_cases h : key x = k
    · rw [lookup_eq_none_iff.2 (h ▸ hx), lookup_eq_none_iff.2 (h ▸ hk.2 ▸ hx)]
    · have := hl k
      rwa [lookup_cons, lookup_cons, if_neg h, if_neg h] at this

/-! ## The union -/

theorem map_key_absorb (hc : ∀ x y, key (combine x y) = key x) (x : α) : ∀ (l : List α),
    (absorb key combine l x).map key = pushNew (l.map key) (key x)
  | [] => by simp [absorb, pushNew]
  | y :: l => by
    rw [absorb]
    by_cases h : key y = key x
    · rw [if_pos h, List.map_cons, hc, pushNew, if_pos (by simp [h])]
      rfl
    · rw [if_neg h, List.map_cons, map_key_absorb hc x l, pushNew, pushNew, List.map_cons]
      by_cases hm : key x ∈ l.map key
      · rw [if_pos hm, if_pos (List.mem_cons_of_mem _ hm)]
      · rw [if_neg hm, if_neg (by rw [List.mem_cons, not_or]; exact ⟨Ne.symm h, hm⟩), List.cons_append]

theorem lookup_absorb (hc : ∀ x y, key (combine x y) = key x) (k : κ) (x : α) : ∀ (l : List α),
    lookup key k (absorb key combine l x) =
      if key x = k then Option.merge combine (lookup key k l) (some x) else lookup key k l
  | [] => by
    rw [absorb, lookup_cons]
    rfl
  | y :: l => by
    rw [absorb, lookup_cons]
    by_cases h : key y = key x
    · rw [if_pos h, lookup_cons, hc, h]
      by_cases hk : key x = k
      · rw [if_pos hk, if_pos hk, if_pos hk]
        rfl
      · rw [if_neg hk, if_neg hk, if_neg hk]
    · rw [if_neg h, lookup_cons, lookup_absorb hc k x l]
      by_cases hk : key y = k
      · rw [if_pos hk, if_pos hk, if_neg (fun he => h (hk.trans he.symm))]
      · rw [if_neg hk, if_neg hk]

/-- **The keys of a union**: those of the left, then the new ones of the right. -/
theorem map_key_union (hc : ∀ x y, key (combine x y) = key x) : ∀ (m l : List α),
    (union key combine l m).map key = (m.map key).foldl pushNew (l.map key)
  | [], _ => rfl
  | x :: m, l => by
    have ih := map_key_union hc m (absorb key combine l x)
    rw [map_key_absorb hc] at ih
    exact ih

/-- **A union looks up both sides.** -/
theorem lookup_union (hc : ∀ x y, key (combine x y) = key x) (k : κ) : ∀ (m l : List α), (m.map key).Nodup →
    lookup key k (union key combine l m) = Option.merge combine (lookup key k l) (lookup key k m)
  | [], l, _ => by
    show lookup key k l = Option.merge combine (lookup key k l) none
    cases lookup key k l <;> rfl
  | x :: m, l, h => by
    obtain ⟨hx, hm⟩ := List.nodup_cons.1 (List.map_cons ▸ h)
    have ih := lookup_union hc k m (absorb key combine l x) hm
    rw [union, List.foldl_cons, ← union, ih, lookup_absorb hc, lookup_cons]
    by_cases hk : key x = k
    · have hnone : lookup key k m = none := lookup_eq_none_iff.2 (hk ▸ hx)
      rw [if_pos hk, if_pos hk, hnone]
      cases lookup key k l <;> rfl
    · rw [if_neg hk, if_neg hk]

section Laws

variable (hc : ∀ x y, key (combine x y) = key x)
include hc

/-- The keys stay distinct. -/
theorem nodup_union {l m : List α} (hl : (l.map key).Nodup) : ((union key combine l m).map key).Nodup := by
  rw [map_key_union hc]
  exact nodup_foldl_pushNew _ _ hl

theorem nil_union {m : List α} (hm : (m.map key).Nodup) : union key combine [] m = m := by
  refine ext_lookup ?_ (nodup_union hc List.nodup_nil) fun k => ?_
  · rw [map_key_union hc, List.map_nil, foldl_pushNew _ _ hm]
    simp
  · rw [lookup_union hc k m [] hm]
    cases lookup key k m <;> rfl

/-- **A union as the two parts of its list**: the left elements, combined where the right has their key, and the right
ones with a new key. -/
theorem union_eq {l m : List α} (hl : (l.map key).Nodup) (hm : (m.map key).Nodup) :
    union key combine l m =
      l.map (fun x => match lookup key (key x) m with | some y => combine x y | none => x) ++
        m.filter (fun y => key y ∉ l.map key) := by
  have hg : ∀ x, key (match lookup key (key x) m with | some y => combine x y | none => x) = key x := by
    intro x
    split
    · exact hc _ _
    · rfl
  refine ext_lookup ?_ (nodup_union hc hl) fun k => ?_
  · rw [map_key_union hc, foldl_pushNew _ _ hm, List.map_append, List.map_map, List.filter_map]
    congr 1
    exact List.map_congr_left fun x _ => (hg x).symm
  · rw [lookup_union hc k m l hm, lookup_append, lookup_map hg, lookup_filter (fun k => k ∉ l.map key)]
    cases hx : lookup key k l with
    | none =>
      rw [if_pos (by simpa using lookup_eq_none_iff.1 hx)]
      cases lookup key k m <;> rfl
    | some x =>
      rw [Option.map_some, Option.some_or, key_of_lookup hx]
      cases lookup key k m <;> rfl

/-- **Absorbing the same elements again changes nothing**, if that holds of each element. -/
theorem union_union_self {l m : List α} (hl : (l.map key).Nodup) (hm : (m.map key).Nodup)
    (hself : ∀ y ∈ m, combine y y = y)
    (hagain : ∀ x ∈ l, ∀ y ∈ m, key x = key y → combine (combine x y) y = combine x y) :
    union key combine (union key combine l m) m = union key combine l m := by
  have hnd := nodup_union hc (m := m) hl
  refine ext_lookup ?_ (nodup_union hc hnd) fun k => ?_
  · rw [map_key_union hc, map_key_union hc]
    exact foldl_pushNew_of_subset _ _ fun k hk => (mem_foldl_pushNew k _ _).2 (.inr hk)
  · rw [lookup_union hc k m _ hm, lookup_union hc k m l hm]
    cases hx : lookup key k l with
    | none =>
      cases hy : lookup key k m with
      | none => rfl
      | some y => exact congrArg some (hself y (mem_of_lookup hy))
    | some x =>
      cases hy : lookup key k m with
      | none => rfl
      | some y =>
        exact congrArg some (hagain x (mem_of_lookup hx) y (mem_of_lookup hy)
          ((key_of_lookup hx).trans (key_of_lookup hy).symm))

/-- **The union is associative**, if `combine` is on the elements of one key. -/
theorem union_assoc {l m n : List α} (hl : (l.map key).Nodup) (hm : (m.map key).Nodup) (hn : (n.map key).Nodup)
    (hassoc : ∀ x ∈ l, ∀ y ∈ m, ∀ z ∈ n, key x = key y → key y = key z →
      combine (combine x y) z = combine x (combine y z)) :
    union key combine (union key combine l m) n = union key combine l (union key combine m n) := by
  have hmn := nodup_union hc (m := n) hm
  refine ext_lookup ?_ (nodup_union hc (nodup_union hc hl)) fun k => ?_
  · rw [map_key_union hc, map_key_union hc, map_key_union hc, map_key_union hc, foldl_pushNew_foldl]
  · rw [lookup_union hc k n _ hn, lookup_union hc k m l hm, lookup_union hc k _ l hmn, lookup_union hc k n m hn]
    cases hx : lookup key k l with
    | none => cases lookup key k m <;> cases lookup key k n <;> rfl
    | some x =>
      cases hy : lookup key k m with
      | none => cases lookup key k n <;> rfl
      | some y =>
        cases hz : lookup key k n with
        | none => rfl
        | some z =>
          exact congrArg some (hassoc x (mem_of_lookup hx) y (mem_of_lookup hy) z (mem_of_lookup hz)
            ((key_of_lookup hx).trans (key_of_lookup hy).symm) ((key_of_lookup hy).trans (key_of_lookup hz).symm))

end Laws

end OrderedUnion
