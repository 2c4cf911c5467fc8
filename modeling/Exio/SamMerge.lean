import Exio.OrderedUnion
import Exio.Sam
/-!
# SamMerge — `txContainer::merge` as an ordered override union

`merge` walks the items of its source.  A field overwrites the field of its name or goes to the end; a child is merged
into the child of its name, recursively, or goes to the end as a deep copy.  The kind and the name of an item are its key:
a field and a child of one name do not meet.

One turn of the loop is `OrderedUnion.absorb` (`mergeItem_eq_absorb`), so `merge` is a union whose elements are combined by
`merge` itself, and the union's laws carry over by induction on the depth of the source.
-/
namespace Exio
namespace Sam

open OrderedUnion (absorb lookup pushNew union)

mutual
/-- One turn of the loop of `merge`. -/
def mergeItem (is : List TxItem) : TxItem → List TxItem
  | .field n v       => putField is n v
  | .container n src =>
    match findChild n is with
    | some c => setChild n (merge c src) is
    | none   => putChildCopy is ⟨n, src⟩
/-- `merge(src)`: the items of this container after it. -/
def merge (is : List TxItem) : List TxItem → List TxItem
  | []       => is
  | i :: src => merge (mergeItem is i) src
end

/-! ## Items and their keys -/

inductive ItemKey where
  | field (name : Bytes)
  | child (name : Bytes)
deriving DecidableEq

def TxItem.key : TxItem → ItemKey
  | .field n _     => .field n
  | .container n _ => .child n

def TxItem.value? : TxItem → Option Bytes
  | .field _ v     => some v
  | .container _ _ => none

def TxItem.items? : TxItem → Option (List TxItem)
  | .field _ _      => none
  | .container _ cs => some cs

theorem TxItem.key_eq_field {i : TxItem} {n : Bytes} (h : i.key = .field n) : ∃ v, i = .field n v := by
  cases i with
  | field m v => cases h; exact ⟨v, rfl⟩
  | container m cs => cases h

theorem TxItem.key_eq_child {i : TxItem} {n : Bytes} (h : i.key = .child n) : ∃ cs, i = .container n cs := by
  cases i with
  | field m v => cases h
  | container m cs => cases h; exact ⟨cs, rfl⟩

/-- The two name maps are one map on keys. -/
theorem distinct_iff (is : List TxItem) : Distinct is ↔ (is.map TxItem.key).Nodup := by
  induction is with
  | nil => simp [Distinct, fieldNames, childNames]
  | cons i is ih =>
    have hf : ∀ n, .field n ∈ is.map TxItem.key ↔ n ∈ fieldNames is := by
      intro n
      simp only [List.mem_map, fieldNames, List.mem_filterMap]
      refine exists_congr fun j => and_congr_right fun _ => ?_
      cases j <;> simp [TxItem.key]
    have hc : ∀ n, .child n ∈ is.map TxItem.key ↔ n ∈ childNames is := by
      intro n
      simp only [List.mem_map, childNames, List.mem_filterMap]
      refine exists_congr fun j => and_congr_right fun _ => ?_
      cases j <;> simp [TxItem.key]
    rw [List.map_cons, List.nodup_cons, ← ih]
    cases i with
    | field n v =>
      rw [TxItem.key, hf]
      simp [Distinct, fieldNames, childNames, and_assoc]
    | container n cs =>
      rw [TxItem.key, hc]
      simp [Distinct, fieldNames, childNames, and_left_comm]

theorem findField_eq_lookup (f : Bytes) : ∀ (is : List TxItem),
    findField f is = (lookup TxItem.key (.field f) is).bind TxItem.value?
  | [] => rfl
  | .field n v :: is => by
    rw [findField, OrderedUnion.lookup_cons, findField_eq_lookup f is]
    by_cases h : n = f <;> simp [TxItem.key, TxItem.value?, h]
  | .container n cs :: is => by
    rw [findField, OrderedUnion.lookup_cons, findField_eq_lookup f is]
    all_goals simp [TxItem.key]

theorem findChild_eq_lookup (c : Bytes) : ∀ (is : List TxItem),
    findChild c is = (lookup TxItem.key (.child c) is).bind TxItem.items?
  | [] => rfl
  | .container n cs :: is => by
    rw [findChild, OrderedUnion.lookup_cons, findChild_eq_lookup c is]
    by_cases h : n = c <;> simp [TxItem.key, TxItem.items?, h]
  | .field n v :: is => by
    rw [findChild, OrderedUnion.lookup_cons, findChild_eq_lookup c is]
    all_goals simp [TxItem.key]

theorem mem_of_findChild {c : Bytes} {is cs : List TxItem} (h : findChild c is = some cs) : .container c cs ∈ is := by
  rw [findChild_eq_lookup, Option.bind_eq_some_iff] at h
  obtain ⟨i, hi, hcs⟩ := h
  obtain ⟨cs', rfl⟩ := TxItem.key_eq_child (OrderedUnion.key_of_lookup hi)
  cases hcs
  exact OrderedUnion.mem_of_lookup hi

theorem AllInside.of_mem {P : List TxItem → Prop} {n : Bytes} {cs : List TxItem} : ∀ {is : List TxItem}, AllInside P is →
    .container n cs ∈ is → Everywhere P cs
  | i :: is, h, hm => by
    rw [AllInside] at h
    rcases List.mem_cons.1 hm with rfl | hm
    · exact h.1
    · exact h.2.of_mem hm

theorem Everywhere.child {P : List TxItem → Prop} {is cs : List TxItem} {c : Bytes} (h : Everywhere P is)
    (hc : findChild c is = some cs) : Everywhere P cs := h.2.of_mem (mem_of_findChild hc)

/-- Induction over containers: the children first. -/
theorem items_induction {P : List TxItem → Prop} (h : ∀ is, (∀ n cs, .container n cs ∈ is → P cs) → P is)
    (is : List TxItem) : P is :=
  h is fun _ cs _ => items_induction h cs
termination_by sizeOf is
decreasing_by
  rename_i hm
  have := List.sizeOf_lt_of_mem hm
  rw [TxItem.container.sizeOf_spec] at this
  omega

/-! ## The loop is a union -/

/-- Two items of one key: the field's new value, or the children merged. -/
def combine : TxItem → TxItem → TxItem
  | .field n _, .field _ v           => .field n v
  | .container n c, .container _ src => .container n (merge c src)
  | i, _                             => i

theorem key_combine (i j : TxItem) : (combine i j).key = i.key := by
  cases i <;> cases j <;> rfl

/-- An item in front that is not the one looked for. -/
theorem mergeItem_cons {i j : TxItem} (h : i.key ≠ j.key) (is : List TxItem) :
    mergeItem (i :: is) j = i :: mergeItem is j := by
  cases j with
  | field n v =>
    cases i with
    | field m w =>
      have hne : m ≠ n := fun he => h (by rw [TxItem.key, TxItem.key, he])
      rw [mergeItem, mergeItem, putField, putField, findField, if_neg hne, setField, if_neg hne]
      cases findField n is <;> rfl
    | container m cs =>
      rw [mergeItem, mergeItem, putField, putField, findField, setField]
      · cases findField n is <;> rfl
      all_goals simp
  | container n src =>
    cases i with
    | field m w =>
      rw [mergeItem, mergeItem, putChildCopy, putChildCopy, findChild, setChild]
      · cases findChild n is <;> rfl
      all_goals simp
    | container m cs =>
      have hne : m ≠ n := fun he => h (by rw [TxItem.key, TxItem.key, he])
      rw [mergeItem, mergeItem, putChildCopy, putChildCopy, findChild, if_neg hne]
      cases findChild n is with
      | none => rfl
      | some c => simp only [setChild, if_neg hne]

theorem mergeItem_eq_absorb (j : TxItem) : ∀ (is : List TxItem), mergeItem is j = absorb TxItem.key combine is j
  | [] => by cases j <;> rfl
  | i :: is => by
    rw [absorb]
    by_cases h : i.key = j.key
    · rw [if_pos h]
      cases j with
      | field n v =>
        obtain ⟨w, rfl⟩ := TxItem.key_eq_field h
        simp [mergeItem, putField, findField, setField, combine]
      | container n src =>
        obtain ⟨c, rfl⟩ := TxItem.key_eq_child h
        simp [mergeItem, findChild, setChild, combine]
    · rw [if_neg h, mergeItem_cons h, mergeItem_eq_absorb j is]

theorem findChild_putField (is : List TxItem) (f v c : Bytes) : findChild c (putField is f v) = findChild c is := by
  show findChild c (mergeItem is (.field f v)) = _
  rw [mergeItem_eq_absorb, findChild_eq_lookup, findChild_eq_lookup, OrderedUnion.lookup_absorb key_combine,
    if_neg (by simp [TxItem.key])]

/-- **The key a put adds**, unless it is there. -/
theorem map_key_putField (is : List TxItem) (n v : Bytes) :
    (putField is n v).map TxItem.key = pushNew (is.map TxItem.key) (.field n) := by
  show (mergeItem is (.field n v)).map TxItem.key = _
  rw [mergeItem_eq_absorb, OrderedUnion.map_key_absorb key_combine]
  rfl

theorem mem_keys_iff (n : Bytes) (is : List TxItem) : .child n ∈ is.map TxItem.key ↔ findChild n is ≠ none := by
  rw [findChild_eq_lookup]
  cases h : OrderedUnion.lookup TxItem.key (.child n) is with
  | none => simpa using OrderedUnion.lookup_eq_none_iff.1 h
  | some i =>
    obtain ⟨cs, rfl⟩ := TxItem.key_eq_child (OrderedUnion.key_of_lookup h)
    exact ⟨fun _ => by simp [TxItem.items?], fun _ => List.mem_map.2 ⟨_, OrderedUnion.mem_of_lookup h, rfl⟩⟩

theorem map_key_putChild (is : List TxItem) (n : Bytes) :
    (putChild is n).map TxItem.key = pushNew (is.map TxItem.key) (.child n) := by
  rw [putChild, pushNew]
  cases h : findChild n is with
  | none => rw [if_neg (by rw [mem_keys_iff]; simp [h]), List.map_append]; rfl
  | some cs => rw [if_pos (by rw [mem_keys_iff]; simp [h])]

theorem map_key_setChild (n : Bytes) (cs : List TxItem) : ∀ (is : List TxItem),
    (setChild n cs is).map TxItem.key = is.map TxItem.key
  | [] => rfl
  | .field m v :: is => by
    have ih := map_key_setChild n cs is
    simp [setChild, ih]
  | .container m ds :: is => by
    have ih := map_key_setChild n cs is
    rw [setChild]
    split <;> simp [TxItem.key, ih]

theorem merge_eq_union : ∀ (src is : List TxItem), merge is src = union TxItem.key combine is src
  | [], _ => rfl
  | i :: src, is => by
    rw [merge, mergeItem_eq_absorb, merge_eq_union src]
    rfl

/-! ## Lookups in a merged container -/

theorem findField_merge (f : Bytes) {is src : List TxItem} (hsrc : Distinct src) :
    findField f (merge is src) = (findField f src).or (findField f is) := by
  rw [findField_eq_lookup, findField_eq_lookup, findField_eq_lookup, merge_eq_union,
    OrderedUnion.lookup_union key_combine _ _ _ ((distinct_iff src).1 hsrc)]
  cases hx : lookup TxItem.key (.field f) is with
  | none => cases lookup TxItem.key (.field f) src <;> simp [Option.merge]
  | some x =>
    obtain ⟨v, rfl⟩ := TxItem.key_eq_field (OrderedUnion.key_of_lookup hx)
    cases hy : lookup TxItem.key (.field f) src with
    | none => rfl
    | some y =>
      obtain ⟨w, rfl⟩ := TxItem.key_eq_field (OrderedUnion.key_of_lookup hy)
      rfl

theorem findChild_merge (c : Bytes) {is src : List TxItem} (hsrc : Distinct src) :
    findChild c (merge is src) = Option.merge merge (findChild c is) (findChild c src) := by
  rw [findChild_eq_lookup, findChild_eq_lookup, findChild_eq_lookup, merge_eq_union,
    OrderedUnion.lookup_union key_combine _ _ _ ((distinct_iff src).1 hsrc)]
  cases hx : lookup TxItem.key (.child c) is with
  | none =>
    cases hy : lookup TxItem.key (.child c) src with
    | none => rfl
    | some y =>
      obtain ⟨ds, rfl⟩ := TxItem.key_eq_child (OrderedUnion.key_of_lookup hy)
      rfl
  | some x =>
    obtain ⟨cs, rfl⟩ := TxItem.key_eq_child (OrderedUnion.key_of_lookup hx)
    cases hy : lookup TxItem.key (.child c) src with
    | none => rfl
    | some y =>
      obtain ⟨ds, rfl⟩ := TxItem.key_eq_child (OrderedUnion.key_of_lookup hy)
      rfl

/-- The container at the end of a path of child names. -/
def descend : List Bytes → List TxItem → Option (List TxItem)
  | [], is     => some is
  | n :: p, is => (findChild n is).bind (descend p)

theorem Everywhere.descend {P : List TxItem → Prop} : ∀ {p : List Bytes} {is cs : List TxItem}, Everywhere P is →
    Sam.descend p is = some cs → Everywhere P cs
  | [], _, _, h, hd => Option.some.inj hd ▸ h
  | _ :: _, _, _, h, hd => by
    obtain ⟨ds, hds, hd⟩ := Option.bind_eq_some_iff.1 hd
    exact (h.child hds).descend hd

theorem findFieldQ_append (f : Bytes) : ∀ (p : List Bytes) (is : List TxItem),
    findFieldQ (p ++ [f]) is = (descend p is).bind (findField f)
  | [], _ => rfl
  | [n], is => by
    show (findChild n is).bind (findField f) = ((findChild n is).bind some).bind (findField f)
    cases findChild n is <;> rfl
  | n :: m :: p, is => by
    have ih := findFieldQ_append f (m :: p)
    rw [descend, Option.bind_assoc]
    show (findChild n is).bind (findFieldQ ((m :: p) ++ [f])) = _
    exact congrArg _ (funext ih)

/-- **The containers of a merge**: merged where both sides have one, as they are otherwise. -/
theorem descend_merge : ∀ (p : List Bytes) {a b : List TxItem}, Everywhere Distinct b →
    descend p (merge a b) = Option.merge merge (descend p a) (descend p b)
  | [], _, _, _ => rfl
  | n :: p, a, b, hb => by
    rw [descend, descend, descend, findChild_merge n hb.1]
    cases ha' : findChild n a with
    | none =>
      cases findChild n b with
      | none => rfl
      | some ds => cases hd : descend p ds <;> simp [Option.merge, hd]
    | some cs =>
      cases hb' : findChild n b with
      | none => cases hd : descend p cs <;> simp [Option.merge, hd]
      | some ds => exact descend_merge p (hb.child hb')

/-! ## The laws -/

/-- An item of the left side, seen from the merged container. -/
def overlaid (src : List TxItem) : TxItem → TxItem
  | .field n v     => .field n ((findField n src).getD v)
  | .container n c => .container n (match findChild n src with | some ds => merge c ds | none => c)

theorem merge_eq_append {is src : List TxItem} (his : Distinct is) (hsrc : Distinct src) :
    merge is src = is.map (overlaid src) ++ src.filter (fun i => i.key ∉ is.map TxItem.key) := by
  rw [merge_eq_union, OrderedUnion.union_eq key_combine ((distinct_iff is).1 his) ((distinct_iff src).1 hsrc)]
  congr 1
  refine List.map_congr_left fun i _ => ?_
  cases i with
  | field n v =>
    rw [overlaid, findField_eq_lookup, TxItem.key]
    cases hy : lookup TxItem.key (.field n) src with
    | none => rfl
    | some y =>
      obtain ⟨w, rfl⟩ := TxItem.key_eq_field (OrderedUnion.key_of_lookup hy)
      rfl
  | container n c =>
    rw [overlaid, findChild_eq_lookup, TxItem.key]
    cases hy : lookup TxItem.key (.child n) src with
    | none => rfl
    | some y =>
      obtain ⟨ds, rfl⟩ := TxItem.key_eq_child (OrderedUnion.key_of_lookup hy)
      rfl

theorem merge_nil (a : List TxItem) : merge a [] = a := rfl

theorem nil_merge {a : List TxItem} (ha : Distinct a) : merge [] a = a := by
  rw [merge_eq_union, OrderedUnion.nil_union key_combine ((distinct_iff a).1 ha)]

/-- **Merging the same source again changes nothing.** -/
theorem merge_merge_self : ∀ (b : List TxItem) {a : List TxItem}, Everywhere Distinct a → Everywhere Distinct b →
    merge (merge a b) b = merge a b := by
  refine items_induction fun b ih a ha hb => ?_
  simp only [merge_eq_union]
  refine OrderedUnion.union_union_self key_combine ((distinct_iff a).1 ha.1) ((distinct_iff b).1 hb.1) ?_ ?_
  · intro y hy
    cases y with
    | field n v => rfl
    | container n ds =>
      have hds := hb.2.of_mem hy
      have hself := ih n ds hy (a := []) ⟨by decide, trivial⟩ hds
      rw [nil_merge hds.1] at hself
      rw [combine, hself]
  · intro x hx y hy hk
    cases y with
    | field n v =>
      obtain ⟨w, rfl⟩ := TxItem.key_eq_field hk
      rfl
    | container n ds =>
      obtain ⟨cs, rfl⟩ := TxItem.key_eq_child hk
      rw [combine, combine, ih n ds hy (ha.2.of_mem hx) (hb.2.of_mem hy)]

/-- **`merge` is associative.** -/
theorem merge_assoc : ∀ (c : List TxItem) {a b : List TxItem}, Everywhere Distinct a → Everywhere Distinct b →
    Everywhere Distinct c → merge (merge a b) c = merge a (merge b c) := by
  refine items_induction fun c ih a b ha hb hc => ?_
  simp only [merge_eq_union]
  refine OrderedUnion.union_assoc key_combine ((distinct_iff a).1 ha.1) ((distinct_iff b).1 hb.1)
    ((distinct_iff c).1 hc.1) ?_
  intro x hx y hy z hz hxy hyz
  cases z with
  | field n v =>
    obtain ⟨w, rfl⟩ := TxItem.key_eq_field hyz
    obtain ⟨u, rfl⟩ := TxItem.key_eq_field hxy
    rfl
  | container n es =>
    obtain ⟨ds, rfl⟩ := TxItem.key_eq_child hyz
    obtain ⟨cs, rfl⟩ := TxItem.key_eq_child hxy
    simp only [combine]
    rw [ih n es hz (ha.2.of_mem hx) (hb.2.of_mem hy) (hc.2.of_mem hz)]

/-- **`merge` is an ordered override union.** -/
theorem merge_ordered_override {a b c : List TxItem} (ha : Everywhere Distinct a) (hb : Everywhere Distinct b)
    (hc : Everywhere Distinct c) :
    (∀ (p : List Bytes) (f : Bytes),
      findFieldQ (p ++ [f]) (merge a b) = (findFieldQ (p ++ [f]) b).or (findFieldQ (p ++ [f]) a)) ∧
    (∀ (p : List Bytes) (is src : List TxItem), descend p a = some is → descend p b = some src →
      descend p (merge a b) = some (is.map (overlaid src) ++ src.filter (fun i => i.key ∉ is.map TxItem.key))) ∧
    (∀ p : List Bytes, descend p b = none → descend p (merge a b) = descend p a) ∧
    (∀ p : List Bytes, descend p a = none → descend p (merge a b) = descend p b) ∧
    merge (merge a b) b = merge a b ∧ merge a [] = a ∧ merge [] a = a ∧
    merge (merge a b) c = merge a (merge b c) := by
  refine ⟨fun p f => ?_, fun p is src hp hq => ?_, fun p hp => ?_, fun p hp => ?_, merge_merge_self b ha hb,
    merge_nil a, nil_merge ha.1, merge_assoc c ha hb hc⟩
  · rw [findFieldQ_append, findFieldQ_append, findFieldQ_append, descend_merge p hb]
    cases descend p a with
    | none => cases descend p b <;> simp [Option.merge]
    | some is =>
      cases hq : descend p b with
      | none => rfl
      | some src => exact findField_merge f (hb.descend hq).1
  · rw [descend_merge p hb, hp, hq, Option.merge, merge_eq_append (ha.descend hp).1 (hb.descend hq).1]
  · rw [descend_merge p hb, hp]
    cases descend p a <;> rfl
  · rw [descend_merge p hb, hp]
    cases descend p b <;> rfl

def sampleLeft : List TxItem :=
  [.field (ascii "x") (ascii "1"), .container (ascii "y") [.field (ascii "u") (ascii "2")]]

def sampleRight : List TxItem :=
  [.container (ascii "x") [], .container (ascii "y") [.field (ascii "v") (ascii "3")], .field (ascii "x") (ascii "4")]

theorem merge_ordered_override_sample :
    merge sampleLeft sampleRight =
        [.field (ascii "x") (ascii "4"),
          .container (ascii "y") [.field (ascii "u") (ascii "2"), .field (ascii "v") (ascii "3")],
          .container (ascii "x") []] ∧
      merge (merge sampleLeft sampleRight) sampleRight = merge sampleLeft sampleRight ∧
      merge (merge sampleLeft sampleRight) sampleLeft = merge sampleLeft (merge sampleRight sampleLeft) := by
  have hl : Everywhere Distinct sampleLeft := by decide
  have hr : Everywhere Distinct sampleRight := by decide
  obtain ⟨-, -, -, -, hself, -, -, hassoc⟩ := merge_ordered_override hl hr hl
  exact ⟨by decide, hself, hassoc⟩

end Sam
end Exio
