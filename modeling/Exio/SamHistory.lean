import Exio.SamContainer
/-!
# SamHistory — what was inserted into a container, and where

A container is known by its history: which names were inserted into which of the containers below it, and which of them were
emptied.  `Follows is es is'` says that the events account for a change, at every path: the list of a container is in the
order in which its names were first inserted since it was last emptied.

An operation on the container at a path is an operation on the whole tree (`alter`), with the same events, seen from above
(`below`), and takes away nothing that is not below the path (`isSome_descend_alter`).
-/
namespace Exio
namespace Sam

open OrderedUnion (pushNew firsts)

/-! ## The history of a container -/

/-- A name inserted into the container at a path, or that container emptied. -/
inductive ContainerEvent where
  | insert (path : List Bytes) (key : ItemKey)
  | reset (path : List Bytes)

namespace ContainerEvent

/-- The event, seen from the parent of a child `n`. -/
def under (n : Bytes) : ContainerEvent → ContainerEvent
  | insert p k => insert (n :: p) k
  | reset p    => reset (n :: p)

/-- The event, seen from the container that the path starts at. -/
def below (p : List Bytes) (e : ContainerEvent) : ContainerEvent := p.foldr under e

theorem below_insert (k : ItemKey) (q : List Bytes) : ∀ (p : List Bytes), below p (.insert q k) = .insert (p ++ q) k
  | []     => rfl
  | n :: p => congrArg (under n) (below_insert k q p)

theorem below_reset (q : List Bytes) : ∀ (p : List Bytes), below p (.reset q) = .reset (p ++ q)
  | []     => rfl
  | n :: p => congrArg (under n) (below_reset q p)

def logStep (p : List Bytes) (log : List ItemKey) : ContainerEvent → List ItemKey
  | insert q k => if q = p then log ++ [k] else log
  | reset q    => if q <+: p then [] else log

/-- **What was inserted into the container at `p` since it was last emptied.** -/
def logAt (p : List Bytes) (es : List ContainerEvent) : List ItemKey := es.foldl (logStep p) []

/-- The order of first insertion, kept up to date. -/
def orderStep (p : List Bytes) (ks : List ItemKey) : ContainerEvent → List ItemKey
  | insert q k => if q = p then pushNew ks k else ks
  | reset q    => if q <+: p then [] else ks

theorem foldl_orderStep (p : List Bytes) : ∀ (es : List ContainerEvent) (log : List ItemKey),
    es.foldl (orderStep p) (firsts log) = firsts (es.foldl (logStep p) log)
  | [], _ => rfl
  | e :: es, log => by
    have hstep : orderStep p (firsts log) e = firsts (logStep p log e) := by
      cases e with
      | insert q k =>
        rw [orderStep, logStep]
        split
        · rw [firsts, firsts, List.foldl_append]
          rfl
        · rfl
      | reset q =>
        rw [orderStep, logStep]
        split <;> rfl
    rw [List.foldl_cons, List.foldl_cons, hstep, foldl_orderStep p es]

theorem orderStep_under_nil (n : Bytes) (ks : List ItemKey) (e : ContainerEvent) : orderStep [] ks (e.under n) = ks := by
  cases e <;> simp [under, orderStep]

theorem orderStep_under_cons (n m : Bytes) (p : List Bytes) (ks : List ItemKey) (e : ContainerEvent) :
    orderStep (m :: p) ks (e.under n) = if n = m then orderStep p ks e else ks := by
  by_cases h : n = m
  · subst h
    cases e <;> simp [under, orderStep]
  · cases e <;> simp [under, orderStep, h]

theorem foldl_under_nil (n : Bytes) : ∀ (es : List ContainerEvent) (ks : List ItemKey),
    (es.map (under n)).foldl (orderStep []) ks = ks
  | [], _ => rfl
  | e :: es, ks => by rw [List.map_cons, List.foldl_cons, orderStep_under_nil, foldl_under_nil n es]

theorem foldl_under_cons (n m : Bytes) (p : List Bytes) : ∀ (es : List ContainerEvent) (ks : List ItemKey),
    (es.map (under n)).foldl (orderStep (m :: p)) ks = if n = m then es.foldl (orderStep p) ks else ks
  | [], _ => by simp
  | e :: es, ks => by
    rw [List.map_cons, List.foldl_cons, orderStep_under_cons, foldl_under_cons n m p es, List.foldl_cons]
    split <;> rfl

/-- What is done at a path leaves the containers that are not below it. -/
theorem foldl_below {p q : List Bytes} (h : ¬ p <+: q) : ∀ (es : List ContainerEvent) (ks : List ItemKey),
    (es.map (below p)).foldl (orderStep q) ks = ks
  | [], _ => rfl
  | e :: es, ks => by
    have hstep : orderStep q ks (below p e) = ks := by
      cases e with
      | insert r k =>
        rw [below_insert, orderStep, if_neg]
        rintro rfl
        exact h (List.prefix_append p r)
      | reset r =>
        rw [below_reset, orderStep, if_neg]
        exact fun hr => h ((List.prefix_append p r).trans hr)
    rw [List.map_cons, List.foldl_cons, hstep, foldl_below h es]

end ContainerEvent

open ContainerEvent (under below logAt orderStep)

/-- The names in the container at a path, in the order of its list. -/
def keysAt (p : List Bytes) (is : List TxItem) : List ItemKey := ((descend p is).map (List.map TxItem.key)).getD []

/-- **The events account for the change**, at every path. -/
def Follows (is : List TxItem) (es : List ContainerEvent) (is' : List TxItem) : Prop :=
  ∀ p, keysAt p is' = es.foldl (orderStep p) (keysAt p is)

theorem keysAt_nil (is : List TxItem) : keysAt [] is = is.map TxItem.key := rfl

theorem keysAt_cons (n : Bytes) (p : List Bytes) (is : List TxItem) :
    keysAt (n :: p) is = ((findChild n is).map (keysAt p)).getD [] := by
  rw [keysAt, descend]
  cases findChild n is <;> rfl

theorem keysAt_empty : ∀ (p : List Bytes), keysAt p [] = []
  | []     => rfl
  | _ :: _ => rfl

theorem Follows.refl (is : List TxItem) : Follows is [] is := fun _ => rfl

theorem Follows.trans {a b c : List TxItem} {es es' : List ContainerEvent} (h : Follows a es b) (h' : Follows b es' c) :
    Follows a (es ++ es') c := fun p => by rw [h' p, h p, List.foldl_append]

/-- Two containers with the same children. -/
theorem follows_of_keys {is is' : List TxItem} {k : ItemKey} (hk : is'.map TxItem.key = pushNew (is.map TxItem.key) k)
    (hc : ∀ n p, keysAt (n :: p) is' = keysAt (n :: p) is) : Follows is [.insert [] k] is'
  | []     => by simp [keysAt_nil, orderStep, hk]
  | n :: p => by simp [hc, orderStep]

theorem follows_putField (is : List TxItem) (n v : Bytes) : Follows is [.insert [] (.field n)] (putField is n v) := by
  refine follows_of_keys (map_key_putField is n v) fun m p => ?_
  rw [keysAt_cons, keysAt_cons, findChild_putField]

theorem follows_putChild (is : List TxItem) (n : Bytes) : Follows is [.insert [] (.child n)] (putChild is n) := by
  refine follows_of_keys (map_key_putChild is n) fun m p => ?_
  rw [keysAt_cons, keysAt_cons, findChild_putChild]
  by_cases hn : n = m
  · subst hn
    rw [if_pos rfl]
    cases findChild n is with
    | none => exact keysAt_empty p
    | some cs => rfl
  · rw [if_neg hn]

/-- **What happens to a child, seen from its parent.** -/
theorem follows_setChild {is cs cs' : List TxItem} {n : Bytes} {es : List ContainerEvent} (hc : findChild n is = some cs)
    (h : Follows cs es cs') : Follows is (es.map (under n)) (setChild n cs' is)
  | []     => by rw [keysAt_nil, keysAt_nil, map_key_setChild, ContainerEvent.foldl_under_nil]
  | m :: p => by
    rw [keysAt_cons, keysAt_cons, findChild_setChild, ContainerEvent.foldl_under_cons]
    by_cases hn : n = m
    · subst hn
      rw [if_pos rfl, if_pos rfl, hc]
      exact h p
    · rw [if_neg hn, if_neg hn]

/-- A child created where it is missing, and then changed. -/
theorem follows_modifyChild {is cs' : List TxItem} {n : Bytes} {es : List ContainerEvent}
    (h : Follows ((findChild n is).getD []) es cs') :
    Follows is (.insert [] (.child n) :: es.map (under n)) (setChild n cs' (putChild is n)) :=
  (follows_putChild is n).trans (follows_setChild (by rw [findChild_putChild, if_pos rfl]) h)

theorem follows_reset (is : List TxItem) : Follows is [.reset []] [] := fun p => by
  simp [keysAt_empty, orderStep]

mutual
/-- The insertions that build an item. -/
def TxItem.insertions : TxItem → List ContainerEvent
  | .field n _      => [.insert [] (.field n)]
  | .container n cs => .insert [] (.child n) :: (insertions cs).map (under n)
/-- The insertions that build the items of a container. -/
def insertions : List TxItem → List ContainerEvent
  | []      => []
  | i :: is => i.insertions ++ insertions is
end

theorem putChildCopy_eq (is : List TxItem) (n : Bytes) (cs : List TxItem) :
    putChildCopy is ⟨n, cs⟩ = setChild n cs (putChild is n) := by
  cases h : findChild n is with
  | none =>
    have hn := (findChild_eq_none_iff n is).1 h
    rw [putChildCopy, putChild, h, setChild_append_of_not_mem n cs is _ hn]
    simp [setChild]
  | some ds => rw [putChildCopy, putChild, h]

theorem mergeItem_container (is : List TxItem) (n : Bytes) {cs : List TxItem} (hcs : Distinct cs) :
    mergeItem is (.container n cs) = setChild n (merge ((findChild n is).getD []) cs) (putChild is n) := by
  rw [mergeItem]
  cases h : findChild n is with
  | none => rw [putChildCopy_eq, Option.getD_none, nil_merge hcs]
  | some ds => rw [putChild, h]; rfl

/-- A child's turn in a merge, where a merge with the child's items is known. -/
theorem follows_mergeItem_container {cs : List TxItem} (hcs : Distinct cs)
    (h : ∀ is, Follows is (insertions cs) (merge is cs)) (n : Bytes) (is : List TxItem) :
    Follows is (TxItem.container n cs).insertions (mergeItem is (.container n cs)) := by
  rw [mergeItem_container is n hcs, TxItem.insertions]
  exact follows_modifyChild (h _)

/-- **A merge inserts the source's names in the source's order**, at every depth. -/
theorem follows_merge : ∀ (src : List TxItem), Everywhere Distinct src → ∀ is, Follows is (insertions src) (merge is src) := by
  refine items_induction fun src ih hsrc => ?_
  have hitem : ∀ i ∈ src, ∀ is, Follows is i.insertions (mergeItem is i) := by
    intro i hi is
    cases i with
    | field n v => exact follows_putField is n v
    | container n cs =>
      have hcs := hsrc.2.of_mem hi
      exact follows_mergeItem_container hcs.1 (ih n cs hi hcs) n is
  clear ih hsrc
  induction src with
  | nil => exact fun is => .refl is
  | cons i src ihs =>
    intro is
    exact (hitem i List.mem_cons_self is).trans (ihs (fun j hj => hitem j (List.mem_cons_of_mem i hj)) _)

/-- One turn of a merge. -/
theorem follows_mergeItem {i : TxItem} (h : i.Inside Distinct) (is : List TxItem) :
    Follows is i.insertions (mergeItem is i) := by
  cases i with
  | field n v => exact follows_putField is n v
  | container n cs => exact follows_mergeItem_container h.1 (follows_merge cs h) n is

/-- A copy into an empty container. -/
theorem follows_insertions {cs : List TxItem} (h : Everywhere Distinct cs) : Follows [] (insertions cs) cs := by
  have := follows_merge cs h []
  rwa [nil_merge h.1] at this

/-- Assignment. -/
theorem follows_assign (is : List TxItem) {cs : List TxItem} (h : Everywhere Distinct cs) :
    Follows is (.reset [] :: insertions cs) cs := (follows_reset is).trans (follows_insertions h)

/-! ## Operations at a path -/

/-- A member function run on the container at the end of a path of `find_child`s. -/
def Contents.alter (f : Contents → Contents) : List Bytes → Contents → Contents
  | [], c     => f c
  | n :: p, c => c.withChild n (TxNode.run (Contents.alter f p))

def alter (g : List TxItem → List TxItem) : List Bytes → List TxItem → List TxItem
  | [], is     => g is
  | n :: p, is => onChild n (alter g p) is

def Contents.descend : List Bytes → Contents → Option Contents
  | [], c     => some c
  | n :: p, c => (c.findChild n).bind (Contents.descend p)

theorem Contents.descend_concat (n : Bytes) : ∀ {p : List Bytes} {c d : Contents}, c.descend p = some d →
    c.descend (p ++ [n]) = d.findChild n
  | [], c, _, h => by
    cases h
    exact Option.bind_fun_some (c.findChild n)
  | m :: p, c, d, h => by
    obtain ⟨e, he, h⟩ := Option.bind_eq_some_iff.1 h
    rw [List.cons_append, Contents.descend, he, Option.bind_some]
    exact Contents.descend_concat n h

theorem refines_alter {f : Contents → Contents} {g : List TxItem → List TxItem} (h : Refines f g) : ∀ (p : List Bytes),
    Refines (Contents.alter f p) (alter g p)
  | []     => h
  | n :: p => refines_withChild n (refines_alter h p)

theorem Contents.Inv.descend : ∀ (p : List Bytes) {c : Contents}, c.Inv →
    (c.descend p).map Contents.erase = Sam.descend p c.erase ∧ ∀ d, c.descend p = some d → d.Inv
  | [], _, h => ⟨rfl, fun d hd => by cases hd; exact h⟩
  | n :: p, c, h => by
    obtain ⟨hmap, hinv⟩ := h.findChild n
    rw [Contents.descend, Sam.descend, ← hmap]
    cases hc : c.findChild n with
    | none => exact ⟨rfl, fun d hd => by cases hd⟩
    | some e => exact Contents.Inv.descend p (hinv e hc)

theorem follows_alter {g : List TxItem → List TxItem} {es : List ContainerEvent} : ∀ {p : List Bytes} {is cs : List TxItem},
    descend p is = some cs → Follows cs es (g cs) → Follows is (es.map (below p)) (alter g p is)
  | [], is, cs, hd, h => by
    cases hd
    rw [show es.map (below []) = es from List.map_id es]
    exact h
  | n :: p, is, cs, hd, h => by
    obtain ⟨ds, hds, hd⟩ := Option.bind_eq_some_iff.1 hd
    have := follows_setChild hds (follows_alter hd h)
    rw [List.map_map] at this
    rw [alter, onChild, hds]
    exact this

theorem descend_append (q : List Bytes) : ∀ (p : List Bytes) (is : List TxItem),
    descend (p ++ q) is = (descend p is).bind (descend q)
  | [], _      => rfl
  | n :: p, is => by
    rw [List.cons_append, descend, descend]
    cases findChild n is with
    | none => rfl
    | some cs => exact descend_append q p cs

theorem descend_alter (g : List TxItem → List TxItem) : ∀ {p : List Bytes} {is cs : List TxItem},
    descend p is = some cs → descend p (alter g p is) = some (g cs)
  | [], _, _, h => by
    cases h
    rfl
  | n :: p, is, cs, h => by
    obtain ⟨ds, hds, h⟩ := Option.bind_eq_some_iff.1 h
    rw [alter, onChild, hds, descend, findChild_setChild, if_pos rfl, hds]
    exact descend_alter g h

/-- **What is done at a path takes no container away that is not below it.** -/
theorem isSome_descend_alter (g : List TxItem → List TxItem) : ∀ {p q : List Bytes}, ¬ p <+: q → ∀ (is : List TxItem),
    (descend q (alter g p is)).isSome = (descend q is).isSome
  | [], _, h, _ => absurd List.nil_prefix h
  | _ :: _, [], _, _ => rfl
  | n :: p, m :: q, h, is => by
    rw [alter, onChild]
    cases hc : findChild n is with
    | none => rfl
    | some cs =>
      rw [descend, descend, findChild_setChild]
      by_cases hn : n = m
      · subst hn
        rw [if_pos rfl, hc]
        exact isSome_descend_alter g (fun hp => h (List.cons_prefix_cons.2 ⟨rfl, hp⟩)) cs
      · rw [if_neg hn]

/-- A container emptied at a path: those strictly below it are gone. -/
theorem descend_alter_clear {p q : List Bytes} {is cs ds : List TxItem} (hp : descend p is = some cs)
    (hq : descend q is = some ds) : descend q (alter (fun _ => []) p is) = none ↔ p <+: q ∧ p ≠ q := by
  by_cases hpre : p <+: q
  · obtain ⟨r, rfl⟩ := hpre
    rw [descend_append, descend_alter _ hp, Option.bind_some]
    cases r with
    | nil => simp [descend]
    | cons n r => simp [descend, findChild]
  · have hsome := isSome_descend_alter (fun _ => []) hpre is
    rw [hq, Option.isSome_some] at hsome
    refine iff_of_false (fun hnone => ?_) fun h => hpre h.1
    rw [hnone] at hsome
    cases hsome

theorem TxNode.Inv.inside {o : TxNode} (h : o.Inv) : o.erase.Inside Distinct := by
  induction h with
  | field n v => exact trivial
  | @container n is fm cm hf hc hi ih =>
    refine ⟨Contents.Inv.distinct (c := ⟨is, fm, cm⟩) ⟨hf, hc, hi⟩, ?_⟩
    clear hf hc hi
    induction is with
    | nil => exact trivial
    | cons i is ihs => exact ⟨ih i List.mem_cons_self, ihs fun j hj => ih j (List.mem_cons_of_mem i hj)⟩

theorem Contents.Inv.everywhere {c : Contents} (h : c.Inv) : Everywhere Distinct c.erase := (h.node []).inside

theorem Contents.Inv.descend_some {c d : Contents} (h : c.Inv) {p : List Bytes} (hd : c.descend p = some d) :
    Sam.descend p c.erase = some d.erase := by
  rw [← (h.descend p).1, hd]
  rfl

theorem Contents.Inv.exists_descend {c : Contents} (h : c.Inv) {p : List Bytes} {is : List TxItem}
    (hd : Sam.descend p c.erase = some is) : ∃ d, c.descend p = some d ∧ d.erase = is ∧ d.Inv := by
  rw [← (h.descend p).1] at hd
  obtain ⟨d, hd', rfl⟩ := Option.map_eq_some_iff.1 hd
  exact ⟨d, hd', rfl, (h.descend p).2 d hd'⟩

/-- An operation on the container at a path, with its events. -/
theorem Contents.Inv.alter {c d : Contents} (h : c.Inv) {p : List Bytes} (hd : c.descend p = some d)
    {f : Contents → Contents} {g : List TxItem → List TxItem} {es : List ContainerEvent} (hf : Refines f g)
    (hg : Follows d.erase es (g d.erase)) :
    (c.alter f p).Inv ∧ Follows c.erase (es.map (below p)) (c.alter f p).erase := by
  obtain ⟨hinv, he⟩ := refines_alter hf p c h
  exact ⟨hinv, by rw [he]; exact follows_alter (h.descend_some hd) hg⟩

theorem Contents.findChild_eq_some {d e : Contents} {n : Bytes} (h : d.findChild n = some e) :
    ∃ i m, d.childMap[n]? = some i ∧ d.items[i]? = some (e.node m) := by
  obtain ⟨i, hi, h⟩ := Option.bind_eq_some_iff.1 h
  obtain ⟨x, hx, h⟩ := Option.bind_eq_some_iff.1 h
  cases x with
  | field m v => cases h
  | container m is fm cm =>
    cases h
    exact ⟨i, m, hi, hx⟩

/-- A copy is built by inserting what the original has, in its order. -/
theorem follows_cloneItems {c : Contents} (hc : c.Inv) : Follows [] (insertions c.erase) (cloneItems .empty c.items).erase := by
  rw [hc.cloneItems.2]
  exact follows_insertions hc.everywhere

end Sam
end Exio
