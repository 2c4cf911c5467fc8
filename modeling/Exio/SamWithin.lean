import Exio.SamHistory
/-!
# SamWithin — sources in the tree that is written

`put_child(const txContainer&)`, `merge` and `operator=` take their source by reference, and the source may be a container of
the same tree.  The target is emptied before the source is read, and the loops walk the source's list as it is by then:

* a source strictly below the container that it replaces was deleted with its contents; the assignment reads freed memory
  (`none` of `assignWithin`, and `assignWithin_eq_none_iff` says when);
* a container assigned from itself ends empty;
* a source above its target is copied with what was already copied into the target.

Where there is a result, list and maps agree in it and the events account for the change (`assignWithin_sound`,
`putChildWithin_sound`, `mergeWithin_sound`).
-/
namespace Exio
namespace Sam

open ContainerEvent (below orderStep)

/-- The name of the container at a path below one of that name. -/
def nameAt (name : Bytes) (p : List Bytes) : Bytes := p.getLast?.getD name

namespace Contents

/-- An item of the container at a path. -/
def itemAt (c : Contents) (p : List Bytes) (i : Nat) : Option TxNode := (c.descend p).bind fun d => d.items[i]?

/-- One turn of the loop of `operator=`: the next item, as it is by then. -/
def copyNext (p q : List Bytes) (s : Contents × List ContainerEvent) (i : Nat) : Contents × List ContainerEvent :=
  match s.1.itemAt q i with
  | some x => (s.1.alter (fun d => d.addInternally x.clone) p, s.2 ++ x.erase.insertions.map (below p))
  | none   => s

/-- `operator=` on the container at `p`, from the one at `q` of the same name.  The list of the source keeps its length
while it is copied into another container. -/
def assignWithin (p q : List Bytes) (c : Contents) : Option (Contents × List ContainerEvent) :=
  let cleared := c.alter Contents.clear p
  (cleared.descend q).map fun src => (List.range src.items.length).foldl (copyNext p q) (cleared, [.reset p])

/-- `put_child(src)` on the container at `p`, for the container at `q`; `name` is that of the root. -/
def putChildWithin (name : Bytes) (p q : List Bytes) (c : Contents) : Option (Contents × List ContainerEvent) :=
  match c.descend p, c.descend q with
  | some d, some src =>
    match d.findChild (nameAt name q) with
    | some _ => c.assignWithin (p ++ [nameAt name q]) q
    | none   => some (c.alter (fun d => d.addInternally (copyConstruct (nameAt name q) src)) p,
        (TxItem.container (nameAt name q) src.erase).insertions.map (below p))
  | _, _ => none

/-- `merge(src)` on the container at `p`, from item `i` of the container at `q` on: what is put may lengthen the list that is
walked.  `none` if the fuel does not last. -/
def mergeWithin : Nat → List Bytes → List Bytes → Nat → Contents → Option (Contents × List ContainerEvent)
  | 0, _, _, _, _          => none
  | fuel + 1, p, q, i, c =>
    match c.itemAt q i with
    | none   => some (c, [])
    | some x =>
      let turn : Option (Contents × List ContainerEvent) := match x with
        | .field n v            => some (c.alter (fun d => d.putField n v) p, x.erase.insertions.map (below p))
        | .container n is fm cm =>
          match (c.descend p).bind fun d => d.findChild n with
          | some _ => mergeWithin fuel (p ++ [n]) (q ++ [n]) 0 c
          | none   => some (c.alter (fun d => d.putChildCopy n ⟨is, fm, cm⟩) p, x.erase.insertions.map (below p))
      turn.bind fun r => (mergeWithin fuel p q (i + 1) r.1).map fun r' => (r'.1, r.2 ++ r'.2)

end Contents

/-! ## One item -/

/-- **`add_internally` of a copy whose name is not taken is a turn of `merge`.** -/
theorem Contents.Inv.addInternally_clone {d : Contents} (h : d.Inv) {x : TxNode} (hx : x.erase.key ∉ d.erase.map TxItem.key) :
    d.addInternally x.clone = d.mergeItem x := by
  have hd : Distinct (d.erase ++ x.erase :: []) := by
    rw [distinct_iff, List.map_append, List.map_singleton]
    exact List.nodup_append.2 ⟨(distinct_iff _).1 h.distinct, List.nodup_singleton _, fun a ha b hb heq => by
      rw [List.mem_singleton.1 hb] at heq
      exact hx (heq ▸ ha)⟩
  obtain ⟨hfield, hchild⟩ := h.fresh hd
  cases x with
  | field n v =>
    rw [Contents.mergeItem, Contents.putField, hfield n rfl]
    rfl
  | container n is fm cm =>
    rw [Contents.mergeItem, Contents.putChildCopy, hchild n rfl]
    rfl

/-- Only what is at the path matters. -/
theorem Contents.alter_congr {f g : Contents → Contents} : ∀ {p : List Bytes} {c d : Contents}, c.descend p = some d →
    f d = g d → c.alter f p = c.alter g p
  | [], _, _, hd, h => by
    cases hd
    exact h
  | n :: p, c, d, hd, h => by
    obtain ⟨e, he, hd⟩ := Option.bind_eq_some_iff.1 hd
    obtain ⟨i, m, hi, hx⟩ := Contents.findChild_eq_some he
    have hrun : TxNode.run (Contents.alter f p) (e.node m) = TxNode.run (Contents.alter g p) (e.node m) :=
      congrArg (fun d : Contents => d.node m) (Contents.alter_congr hd h)
    have hitems : c.items.modify i (TxNode.run (Contents.alter f p)) =
        c.items.modify i (TxNode.run (Contents.alter g p)) := by
      refine List.ext_getElem? fun j => ?_
      rw [List.getElem?_modify, List.getElem?_modify]
      split
      · rename_i heq
        rw [← heq, hx]
        exact congrArg some hrun
      · rfl
    rw [Contents.alter, Contents.alter, Contents.withChild, Contents.withChild, hi]
    exact congrArg (fun items => { c with items := items }) hitems

/-- One item taken into the container at a path. -/
theorem Contents.Inv.takeItem {c d : Contents} (h : c.Inv) {p : List Bytes} (hd : c.descend p = some d) {x : TxNode}
    (hx : x.Inv) {f : Contents → Contents} (hf : f d = d.mergeItem x) :
    (c.alter f p).Inv ∧ Follows c.erase (x.erase.insertions.map (below p)) (c.alter f p).erase ∧
      Sam.descend p (c.alter f p).erase = some (Sam.mergeItem d.erase x.erase) := by
  rw [Contents.alter_congr (g := fun d => d.mergeItem x) hd hf]
  obtain ⟨hinv, hfollows⟩ := h.alter hd hx.mergeItem (follows_mergeItem hx.inside d.erase)
  refine ⟨hinv, hfollows, ?_⟩
  rw [(refines_alter hx.mergeItem p c h).2]
  exact descend_alter _ (h.descend_some hd)

theorem map_key_mergeItem (is : List TxItem) (i : TxItem) :
    (mergeItem is i).map TxItem.key = OrderedUnion.pushNew (is.map TxItem.key) i.key := by
  rw [mergeItem_eq_absorb, OrderedUnion.map_key_absorb key_combine]

/-! ## Assignment -/

/-- The item at a position, from the names at the path. -/
theorem Contents.Inv.exists_itemAt {c : Contents} (h : c.Inv) {q : List Bytes} {i : Nat} {k : ItemKey}
    (hk : (keysAt q c.erase)[i]? = some k) : ∃ x, c.itemAt q i = some x ∧ x.Inv ∧ x.erase.key = k := by
  cases hd : Sam.descend q c.erase with
  | none =>
    rw [keysAt, hd] at hk
    simp at hk
  | some is =>
    obtain ⟨d, hd', rfl, hinv⟩ := h.exists_descend hd
    rw [keysAt, hd] at hk
    simp only [Option.map_some, Option.getD_some, List.getElem?_map, Contents.erase, getElem?_eraseAll, Option.map_map] at hk
    obtain ⟨x, hx, rfl⟩ := Option.map_eq_some_iff.1 hk
    refine ⟨x, ?_, hinv.items x (List.mem_of_getElem? hx), rfl⟩
    rw [Contents.itemAt, hd', Option.bind_some, hx]

/-- **The copy loop**, after `n` turns: the names of the source so far, and the source has kept its own. -/
theorem copyNext_loop {p q : List Bytes} (hpre : ¬ p <+: q) {c : Contents} (h : c.Inv) {K : List ItemKey}
    (hempty : Sam.descend p c.erase = some []) (hK : keysAt q c.erase = K) (hnodup : K.Nodup)
    {es : List ContainerEvent} {is : List TxItem} (hes : Follows is es c.erase) : ∀ n, n ≤ K.length →
    ∃ c' es', (List.range n).foldl (Contents.copyNext p q) (c, es) = (c', es') ∧ c'.Inv ∧ keysAt q c'.erase = K ∧
      (∃ cs, Sam.descend p c'.erase = some cs ∧ cs.map TxItem.key = K.take n) ∧ Follows is es' c'.erase
  | 0, _ => ⟨c, es, rfl, h, hK, ⟨[], hempty, rfl⟩, hes⟩
  | n + 1, hn => by
    obtain ⟨c₁, es₁, hloop, h₁, hK₁, ⟨cs, hcs, hkeys⟩, hes₁⟩ :=
      copyNext_loop hpre h hempty hK hnodup hes n (Nat.le_of_succ_le hn)
    obtain ⟨x, hx, hxinv, hkey⟩ := h₁.exists_itemAt (q := q) (i := n) (k := K[n]) (by
      rw [hK₁]
      exact List.getElem?_eq_getElem hn)
    obtain ⟨d, hd, rfl, hdinv⟩ := h₁.exists_descend hcs
    have hfresh : x.erase.key ∉ d.erase.map TxItem.key := by
      have hnext : (K.take n ++ [K[n]]).Nodup :=
        List.take_succ_eq_append_getElem hn ▸ hnodup.sublist (List.take_sublist _ _)
      rw [hkeys, hkey]
      exact fun hmem => (List.nodup_append.1 hnext).2.2 _ hmem _ (List.mem_singleton.2 rfl) rfl
    obtain ⟨hinv, hfollows, hdescend⟩ := h₁.takeItem hd hxinv (f := fun d => d.addInternally x.clone)
      (hdinv.addInternally_clone hfresh)
    refine ⟨_, _, ?_, hinv, ?_, ⟨_, hdescend, ?_⟩, hes₁.trans hfollows⟩
    · rw [List.range_succ, List.foldl_append, hloop, List.foldl_cons, List.foldl_nil, Contents.copyNext, hx]
    · rw [hfollows q, ContainerEvent.foldl_below hpre, hK₁]
    · rw [map_key_mergeItem, OrderedUnion.pushNew, if_neg hfresh, hkeys, hkey, List.take_succ_eq_append_getElem hn]

theorem Contents.Inv.clearAt {c d : Contents} (h : c.Inv) {p : List Bytes} (hd : c.descend p = some d) :
    (c.alter Contents.clear p).Inv ∧ Follows c.erase [.reset p] (c.alter Contents.clear p).erase ∧
      (c.alter Contents.clear p).erase = Sam.alter (fun _ => []) p c.erase := by
  obtain ⟨hinv, hfollows⟩ := h.alter hd refines_clear (follows_reset d.erase)
  rw [List.map_singleton, ContainerEvent.below_reset, List.append_nil] at hfollows
  exact ⟨hinv, hfollows, (refines_alter refines_clear p c h).2⟩

/-- **An assignment within a tree has no result exactly if its source lies strictly inside the container it replaces.** -/
theorem assignWithin_eq_none_iff {c d e : Contents} (h : c.Inv) {p q : List Bytes} (hp : c.descend p = some d)
    (hq : c.descend q = some e) : c.assignWithin p q = none ↔ p <+: q ∧ p ≠ q := by
  obtain ⟨hinv, -, hlist⟩ := h.clearAt hp
  rw [Contents.assignWithin, Option.map_eq_none_iff, ← descend_alter_clear (h.descend_some hp) (h.descend_some hq), ← hlist,
    ← (hinv.descend q).1, Option.map_eq_none_iff]

theorem assignWithin_sound {c d : Contents} (h : c.Inv) {p q : List Bytes} (hp : c.descend p = some d)
    {r : Contents × List ContainerEvent} (hr : c.assignWithin p q = some r) :
    r.1.Inv ∧ Follows c.erase r.2 r.1.erase := by
  obtain ⟨hinv, hreset, hlist⟩ := h.clearAt hp
  have hempty : Sam.descend p (c.alter Contents.clear p).erase = some [] := by
    rw [hlist]
    exact descend_alter _ (h.descend_some hp)
  obtain ⟨src, hsrc, rfl⟩ := Option.map_eq_some_iff.1 hr
  have hsrcinv := (hinv.descend q).2 src hsrc
  have hsrc' := hinv.descend_some hsrc
  by_cases hpre : p <+: q
  · -- what is left of the source is an emptied container
    obtain ⟨t, rfl⟩ := hpre
    rw [descend_append, hempty, Option.bind_some] at hsrc'
    have hnil : src.items.length = 0 := by
      cases t with
      | nil =>
        have herase : [] = src.erase := Option.some.inj hsrc'
        rw [Contents.erase, eraseAll_eq_map] at herase
        rw [← List.length_map TxNode.erase, ← herase, List.length_nil]
      | cons n t => simp [Sam.descend, findChild] at hsrc'
    rw [hnil]
    exact ⟨hinv, hreset⟩
  · have hK : keysAt q (c.alter Contents.clear p).erase = src.erase.map TxItem.key := by
      rw [keysAt, hsrc']
      rfl
    have hlen : src.items.length = (src.erase.map TxItem.key).length := by
      rw [List.length_map, Contents.erase, eraseAll_eq_map, List.length_map]
    obtain ⟨c', es', hloop, hinv', -, -, hfollows⟩ := copyNext_loop hpre hinv hempty hK
      ((distinct_iff _).1 hsrcinv.distinct) hreset _ (Nat.le_refl _)
    rw [hlen, hloop]
    exact ⟨hinv', hfollows⟩

/-! ## `put_child` -/

theorem putChildWithin_sound {c : Contents} (h : c.Inv) {name : Bytes} {p q : List Bytes}
    {r : Contents × List ContainerEvent} (hr : c.putChildWithin name p q = some r) :
    r.1.Inv ∧ Follows c.erase r.2 r.1.erase := by
  unfold Contents.putChildWithin at hr
  split at hr
  · rename_i d src hp hq
    have hdinv := (h.descend p).2 d hp
    cases hchild : d.findChild (nameAt name q) with
    | some e =>
      rw [hchild] at hr
      exact assignWithin_sound h ((Contents.descend_concat _ hp).trans hchild) hr
    | none =>
      rw [hchild] at hr
      cases hr
      have hsrc := ((h.descend q).2 src hq).node (nameAt name q)
      have hfresh : (src.node (nameAt name q)).erase.key ∉ d.erase.map TxItem.key := by
        show ItemKey.child (nameAt name q) ∉ _
        rw [mem_keys_iff, ← (hdinv.findChild _).1, hchild]
        simp
      obtain ⟨hinv, hfollows, -⟩ := h.takeItem hp hsrc
        (f := fun d => d.addInternally (copyConstruct (nameAt name q) src)) (hdinv.addInternally_clone hfresh)
      exact ⟨hinv, hfollows⟩
  · cases hr

/-- `put_child` fails with the assignment it makes, and only with it. -/
theorem putChildWithin_eq_none_iff {c d e : Contents} (h : c.Inv) {name : Bytes} {p q : List Bytes}
    (hp : c.descend p = some d) (hq : c.descend q = some e) :
    c.putChildWithin name p q = none ↔ p ++ [nameAt name q] <+: q ∧ p ++ [nameAt name q] ≠ q := by
  have hchild := Contents.descend_concat (nameAt name q) hp
  unfold Contents.putChildWithin
  simp only [hp, hq]
  cases hfind : d.findChild (nameAt name q) with
  | some e' => exact assignWithin_eq_none_iff h (hchild.trans hfind) hq
  | none =>
    -- the source cannot lie below a child that is not there
    refine iff_of_false (by simp) fun hpre => ?_
    obtain ⟨⟨t, ht⟩, -⟩ := hpre
    have hnone : Sam.descend (p ++ [nameAt name q]) c.erase = none := by
      rw [← (h.descend _).1, hchild, hfind]
      rfl
    have hsrc := h.descend_some hq
    rw [← ht, descend_append, hnone] at hsrc
    cases hsrc

/-! ## `merge` -/

/-- No container below is taken away. -/
def Extends (is is' : List TxItem) : Prop := ∀ p, (descend p is).isSome = true → (descend p is').isSome = true

theorem Extends.refl (is : List TxItem) : Extends is is := fun _ h => h

theorem Extends.trans {a b c : List TxItem} (h : Extends a b) (h' : Extends b c) : Extends a c := fun p hp => h' p (h p hp)

theorem extends_of_findChild {is is' : List TxItem}
    (h : ∀ n cs, findChild n is = some cs → ∃ cs', findChild n is' = some cs' ∧ Extends cs cs') : Extends is is'
  | [], _ => rfl
  | n :: p, hp => by
    rw [descend] at hp ⊢
    cases hc : findChild n is with
    | none =>
      rw [hc] at hp
      cases hp
    | some cs =>
      obtain ⟨cs', hcs', hext⟩ := h n cs hc
      rw [hc] at hp
      rw [hcs']
      exact hext p hp

theorem extends_putField (is : List TxItem) (n v : Bytes) : Extends is (putField is n v) :=
  extends_of_findChild fun m cs hc => ⟨cs, (findChild_putField is n v m).trans hc, .refl cs⟩

theorem extends_putChildCopy {is : List TxItem} {n : Bytes} (hn : findChild n is = none) (cs : List TxItem) :
    Extends is (putChildCopy is ⟨n, cs⟩) := by
  refine extends_of_findChild fun m ds hm => ⟨ds, ?_, .refl ds⟩
  rw [findChild_putChildCopy, if_neg, hm]
  rintro rfl
  rw [hn] at hm
  cases hm

theorem extends_alter {g : List TxItem → List TxItem} : ∀ {p : List Bytes} {is cs : List TxItem}, descend p is = some cs →
    Extends cs (g cs) → Extends is (alter g p is)
  | [], _, _, hd, h => by
    cases hd
    exact h
  | n :: p, is, cs, hd, h => by
    obtain ⟨ds, hds, hd⟩ := Option.bind_eq_some_iff.1 hd
    rw [alter, onChild, hds]
    refine extends_of_findChild fun m es hm => ?_
    rw [findChild_setChild]
    by_cases heq : n = m
    · subst heq
      obtain rfl : ds = es := Option.some.inj (hds.symm.trans hm)
      rw [if_pos rfl, hm]
      exact ⟨_, rfl, extends_alter hd h⟩
    · rw [if_neg heq]
      exact ⟨es, hm, .refl es⟩

/-- What a merge keeps: the agreement, the account, and every container that is there. -/
structure Merged (c : Contents) (r : Contents × List ContainerEvent) : Prop where
  inv     : r.1.Inv
  follows : Follows c.erase r.2 r.1.erase
  kept    : Extends c.erase r.1.erase

theorem Merged.trans {c : Contents} {r r' : Contents × List ContainerEvent} (h : Merged c r) (h' : Merged r.1 r') :
    Merged c (r'.1, r.2 ++ r'.2) := ⟨h'.inv, h.follows.trans h'.follows, h.kept.trans h'.kept⟩

/-- A turn that takes one item. -/
theorem Contents.Inv.merged {c d : Contents} (h : c.Inv) {p : List Bytes} (hd : c.descend p = some d) {x : TxNode}
    (hx : x.Inv) {f : Contents → Contents} (hf : f d = d.mergeItem x)
    (hext : Extends d.erase (Sam.mergeItem d.erase x.erase)) :
    Merged c (c.alter f p, x.erase.insertions.map (below p)) := by
  obtain ⟨hinv, hfollows, -⟩ := h.takeItem hd hx hf
  refine ⟨hinv, hfollows, ?_⟩
  show Extends _ (c.alter f p).erase
  rw [Contents.alter_congr (g := fun d => d.mergeItem x) hd hf, (refines_alter hx.mergeItem p c h).2]
  exact extends_alter (h.descend_some hd) hext

/-- A child that is not there is copied. -/
theorem Contents.Inv.mergeItem_of_none {d : Contents} (h : d.Inv) {n : Bytes} (hn : d.findChild n = none)
    (is : List TxNode) (fm cm : Std.TreeMap Bytes Nat) :
    d.putChildCopy n ⟨is, fm, cm⟩ = d.mergeItem (.container n is fm cm) ∧
      Extends d.erase (Sam.mergeItem d.erase (.container n (eraseAll is))) := by
  have hnone : Sam.findChild n d.erase = none := by
    rw [← (h.findChild n).1, hn]
    rfl
  have hmap : d.childMap[n]? = none := by
    cases hi : d.childMap[n]? with
    | none => rfl
    | some j =>
      obtain ⟨b, hb, -⟩ := h.child_at hi
      rw [Contents.findChild, hi, Option.bind_some, hb] at hn
      cases hn
  refine ⟨by rw [Contents.mergeItem, hmap], ?_⟩
  rw [Sam.mergeItem, hnone]
  exact extends_putChildCopy hnone _

/-- **A merge within a tree**, from any item on. -/
theorem mergeWithin_sound : ∀ (fuel : Nat) {p q : List Bytes} {i : Nat} {c d : Contents}
    {r : Contents × List ContainerEvent}, c.Inv → c.descend p = some d → Contents.mergeWithin fuel p q i c = some r →
    Merged c r
  | 0, _, _, _, _, _, _, _, _, hr => by cases hr
  | fuel + 1, p, q, i, c, d, r, h, hp, hr => by
    have hpath := h.descend_some hp
    have hdinv := (h.descend p).2 d hp
    rw [Contents.mergeWithin] at hr
    split at hr
    · cases hr
      exact ⟨h, .refl _, .refl _⟩
    · rename_i x hx
      obtain ⟨r₁, hturn, hr⟩ := Option.bind_eq_some_iff.1 hr
      obtain ⟨r₂, hrest, rfl⟩ := Option.map_eq_some_iff.1 hr
      have hxinv : x.Inv := by
        obtain ⟨src, hsrc, hxi⟩ := Option.bind_eq_some_iff.1 hx
        exact ((h.descend q).2 src hsrc).items x (List.mem_of_getElem? hxi)
      have h₁ : Merged c r₁ := by
        split at hturn
        · rename_i n v
          cases hturn
          exact h.merged hp hxinv rfl (extends_putField _ n v)
        · rename_i n is fm cm
          rw [hp, Option.bind_some] at hturn
          cases hchild : d.findChild n with
          | some e =>
            rw [hchild] at hturn
            exact mergeWithin_sound fuel h ((Contents.descend_concat n hp).trans hchild) hturn
          | none =>
            rw [hchild] at hturn
            cases hturn
            obtain ⟨hmerge, hext⟩ := hdinv.mergeItem_of_none hchild is fm cm
            exact h.merged hp hxinv (f := fun d => d.putChildCopy n ⟨is, fm, cm⟩) hmerge hext
      -- the container at the path is still there for the rest of the loop
      obtain ⟨is, his⟩ := Option.isSome_iff_exists.1 (h₁.kept p (by rw [hpath]; rfl))
      obtain ⟨d₁, hd₁, -, -⟩ := h₁.inv.exists_descend his
      exact h₁.trans (mergeWithin_sound fuel h₁.inv hd₁ hrest)

end Sam
end Exio
