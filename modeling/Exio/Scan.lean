import Mathlib.Data.List.Basic
/-!
# Scan — reading a token up to a delimiter, with an escape symbol

`scan esc d` is the loop every text format with an escape symbol has: copy symbols until the delimiter `d`, and let
`esc` take the next symbol as it is.  `Token esc d t v` says what such a token is (`t` as written, `v` as read), and the
two meet in `scan_token` (a token before its delimiter is read back) and `scan_sound` (what the loop stops at is a token
before its delimiter).  `escapeWith` is the writer's side: escaping a set of symbols that holds both `esc` and `d` writes
a token (`token_escapeWith`).  Everything is over an arbitrary alphabet.
-/
namespace Scan

variable {α : Type}

/-- **A token as written and as read**: plain symbols other than `d` and `esc`, and escape pairs. -/
inductive Token (esc d : α) : List α → List α → Prop
  | nil : Token esc d [] []
  | plain {c : α} {t v : List α} : c ≠ d → c ≠ esc → Token esc d t v → Token esc d (c :: t) (c :: v)
  | pair {c : α} {t v : List α} : Token esc d t v → Token esc d (esc :: c :: t) (c :: v)

/-- The written side alone. -/
def Text (esc d : α) (t : List α) : Prop := ∃ v, Token esc d t v

theorem token_plain {esc d : α} : ∀ (t : List α), d ∉ t → esc ∉ t → Token esc d t t
  | [], _, _ => .nil
  | c :: t, hd, he => by
    simp only [List.mem_cons, not_or] at hd he
    exact .plain (Ne.symm hd.1) (Ne.symm he.1) (token_plain t hd.2 he.2)

/-! ## The writer's side -/

/-- Every symbol of `sp` gets `esc` in front of it. -/
def escapeWith (esc : α) (sp : α → Bool) (v : List α) : List α :=
  v.flatMap (fun c => if sp c then [esc, c] else [c])

theorem escapeWith_cons (esc : α) (sp : α → Bool) (c : α) (v : List α) :
    escapeWith esc sp (c :: v) = (if sp c then [esc, c] else [c]) ++ escapeWith esc sp v := by
  simp [escapeWith]

theorem escapeWith_append (esc : α) (sp : α → Bool) (u v : List α) :
    escapeWith esc sp (u ++ v) = escapeWith esc sp u ++ escapeWith esc sp v := by
  simp [escapeWith]

theorem escapeWith_of_none {esc : α} {sp : α → Bool} : ∀ (v : List α), (∀ c ∈ v, sp c = false) →
    escapeWith esc sp v = v
  | [], _ => rfl
  | c :: v, h => by
    rw [escapeWith_cons, h c (by simp), escapeWith_of_none v (fun x hx => h x (by simp [hx]))]
    rfl

/-- **Escaping a set that holds the escape symbol and the delimiter writes a token.** -/
theorem token_escapeWith {esc d : α} {sp : α → Bool} (hesc : sp esc = true) (hd : sp d = true) :
    ∀ (v : List α), Token esc d (escapeWith esc sp v) v
  | [] => .nil
  | c :: v => by
    rw [escapeWith_cons]
    have ih := token_escapeWith hesc hd v
    cases hc : sp c with
    | true => exact .pair ih
    | false =>
      refine .plain (fun h => ?_) (fun h => ?_) ih
      · rw [h, hd] at hc; cases hc
      · rw [h, hesc] at hc; cases hc

/-- An escaped text never starts with an escaped symbol other than `esc` itself. -/
theorem head?_escapeWith {esc d : α} {sp : α → Bool} (hd : sp d = true) (hne : d ≠ esc) :
    ∀ (v : List α), (escapeWith esc sp v).head? ≠ some d
  | [] => by simp [escapeWith]
  | c :: v => by
    rw [escapeWith_cons]
    cases hc : sp c with
    | true => simpa using Ne.symm hne
    | false =>
      simp only [Bool.false_eq_true, if_false, List.cons_append, List.head?_cons, ne_eq, Option.some.injEq]
      intro h
      rw [h, hd] at hc; cases hc

/-- In an escaped text an escaped symbol has the escape symbol before it. -/
theorem mem_of_escapeWith_eq {esc d : α} {sp : α → Bool} (hd : sp d = true) (hne : d ≠ esc) :
    ∀ (v u w : List α), escapeWith esc sp v = u ++ d :: w → esc ∈ u
  | [], u, w, h => by cases u <;> cases h
  | c :: v, u, w, h => by
    rw [escapeWith_cons] at h
    cases hc : sp c with
    | true =>
      rw [hc, if_pos rfl] at h
      cases u with
      | nil => exact absurd (List.cons.inj h).1.symm hne
      | cons x u =>
        rw [(List.cons.inj h).1]
        exact List.mem_cons_self
    | false =>
      rw [hc] at h
      cases u with
      | nil =>
        rw [(List.cons.inj h).1, hd] at hc
        cases hc
      | cons x u => exact List.mem_cons_of_mem _ (mem_of_escapeWith_eq hd hne v u w (List.cons.inj h).2)

/-- **Two ways to cut one list at a delimiter**: at the same place, or one part holds the delimiter. -/
theorem cut_cases {d : α} : ∀ {s t y z : List α}, s ++ d :: y = t ++ d :: z →
    (s = t ∧ y = z) ∨ (∃ u, t = s ++ d :: u ∧ y = u ++ d :: z) ∨ ∃ u, s = t ++ d :: u ∧ z = u ++ d :: y
  | [], [], y, z, h => .inl ⟨rfl, (List.cons.inj h).2⟩
  | [], c :: t, y, z, h => .inr (.inl ⟨t, by rw [(List.cons.inj h).1]; rfl, (List.cons.inj h).2⟩)
  | c :: s, [], y, z, h => .inr (.inr ⟨s, by rw [← (List.cons.inj h).1]; rfl, (List.cons.inj h).2.symm⟩)
  | c :: s, e :: t, y, z, h => by
    obtain ⟨hc, ht⟩ := List.cons.inj h
    subst hc
    rcases cut_cases ht with ⟨rfl, rfl⟩ | ⟨u, rfl, rfl⟩ | ⟨u, rfl, rfl⟩
    · exact .inl ⟨rfl, rfl⟩
    · exact .inr (.inl ⟨u, rfl, rfl⟩)
    · exact .inr (.inr ⟨u, rfl, rfl⟩)

/-! ## The reader's side -/

variable [DecidableEq α]

/-- **The scanning loop**: the symbols read, and what is left, which starts with the delimiter or is empty. -/
def scan (esc d : α) : List α → List α × List α
  | []           => ([], [])
  | [c]          => if c = d then ([], [c]) else if c = esc then ([], []) else ([c], [])
  | c :: c' :: l =>
    if c = d then ([], c :: c' :: l)
    else if c = esc then (c' :: (scan esc d l).1, (scan esc d l).2)
    else (c :: (scan esc d (c' :: l)).1, (scan esc d (c' :: l)).2)

theorem scan_delim (esc d : α) : ∀ (r : List α), scan esc d (d :: r) = ([], d :: r)
  | []     => by simp [scan]
  | _ :: _ => by simp [scan]

theorem scan_plain {esc d c : α} (hd : c ≠ d) (he : c ≠ esc) :
    ∀ (r : List α), scan esc d (c :: r) = (c :: (scan esc d r).1, (scan esc d r).2)
  | []     => by simp [scan, hd, he]
  | _ :: _ => by simp [scan, hd, he]

theorem scan_pair {esc d : α} (hne : esc ≠ d) (c : α) (r : List α) :
    scan esc d (esc :: c :: r) = (c :: (scan esc d r).1, (scan esc d r).2) := by
  simp [scan, hne]

/-- **A token before its delimiter is read back.** -/
theorem scan_token {esc d : α} (hne : esc ≠ d) {t v : List α} (h : Token esc d t v) (r : List α) :
    scan esc d (t ++ d :: r) = (v, d :: r) := by
  induction h with
  | nil => exact scan_delim esc d r
  | plain hd he _ ih => rw [List.cons_append, scan_plain hd he, ih]
  | pair _ ih => rw [List.cons_append, List.cons_append, scan_pair hne, ih]

/-- **What the loop stops at is a token before its delimiter.** -/
theorem scan_sound {esc d : α} : ∀ (l v : List α) (c : α) (r : List α), scan esc d l = (v, c :: r) →
    c = d ∧ ∃ t, Token esc d t v ∧ l = t ++ d :: r
  | [], v, c, r, h => by simp [scan] at h
  | [x], v, c, r, h => by
    simp only [scan] at h
    split at h
    · rename_i hx
      obtain ⟨rfl, h2⟩ := Prod.mk.inj h
      obtain ⟨rfl, rfl⟩ := List.cons.inj h2
      exact ⟨hx, [], .nil, by rw [hx]; rfl⟩
    · split at h <;> simp at h
  | x :: y :: l, v, c, r, h => by
    simp only [scan] at h
    split at h
    · rename_i hx
      obtain ⟨rfl, h2⟩ := Prod.mk.inj h
      obtain ⟨rfl, rfl⟩ := List.cons.inj h2
      exact ⟨hx, [], .nil, by rw [hx]; rfl⟩
    · rename_i hx
      split at h
      · rename_i he
        obtain ⟨rfl, h2⟩ := Prod.mk.inj h
        obtain ⟨hc, t, ht, hl⟩ := scan_sound l _ c r (Prod.ext rfl h2)
        subst he
        exact ⟨hc, x :: y :: t, .pair ht, by rw [hl]; rfl⟩
      · rename_i he
        obtain ⟨rfl, h2⟩ := Prod.mk.inj h
        obtain ⟨hc, t, ht, hl⟩ := scan_sound (y :: l) _ c r (Prod.ext rfl h2)
        exact ⟨hc, x :: t, .plain hx he ht, by rw [hl]; rfl⟩

theorem scan_snd_length_le (esc d : α) : ∀ (l : List α), (scan esc d l).2.length ≤ l.length
  | [] => by simp [scan]
  | [x] => by simp only [scan]; split <;> [simp; (split <;> simp)]
  | x :: y :: l => by
    have h1 := scan_snd_length_le esc d l
    have h2 := scan_snd_length_le esc d (y :: l)
    simp only [scan]
    split
    · simp
    · split
      · simp only [List.length_cons]; omega
      · simp only [List.length_cons] at h2 ⊢; omega

end Scan
