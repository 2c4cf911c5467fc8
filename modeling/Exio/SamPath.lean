import Exio.SamBuilt
/-!
# SamPath — putting and finding along a qname

A put descends with `put_child` and creates what is missing, a find descends with `find_child` and gives up where something
is missing; the last part of the qname is a field or a child of the container they reach.  The empty qname is the name
`""`.  A put is found under its own qname and disturbs no other (`findFieldQ_putFieldQ`, `findFieldQ_putChildQ`), whatever
fields and children share a name on the way.
-/
namespace Exio
namespace Sam

/-- The qname with the empty one replaced by the one-part name `""`. -/
def norm (q : List Bytes) : List Bytes := if q = [] then [[]] else q

theorem norm_ne_nil (q : List Bytes) : norm q ≠ [] := by
  cases q <;> simp [norm]

theorem findFieldQ_norm (q : List Bytes) : findFieldQ (norm q) = findFieldQ q := by
  cases q <;> rfl

theorem putFieldQ_norm (v : Bytes) (q : List Bytes) : putFieldQ v (norm q) = putFieldQ v q := by
  cases q <;> rfl

theorem findFieldQ_empty : ∀ (q : List Bytes), findFieldQ q [] = none
  | []          => rfl
  | [_]         => rfl
  | _ :: _ :: _ => rfl

theorem findField_putChild (is : List TxItem) (c f : Bytes) : findField f (putChild is c) = findField f is := by
  rw [putChild]
  split
  · rfl
  · rw [findField_append]
    exact Option.or_none

theorem findField_modifyChild (is : List TxItem) (c f : Bytes) (g : List TxItem → List TxItem) :
    findField f (modifyChild is c g) = findField f is := by
  rw [modifyChild, findField_setChild, findField_putChild]

/-- A find below a child, where the child is read as empty if it is missing. -/
theorem findFieldQ_cons (n m : Bytes) (q : List Bytes) (is : List TxItem) :
    findFieldQ (n :: m :: q) is = findFieldQ (m :: q) ((findChild n is).getD []) := by
  rw [findFieldQ]
  cases findChild n is with
  | none => exact (findFieldQ_empty (m :: q)).symm
  | some cs => rfl

/-! ## Fields -/

theorem findFieldQ_putFieldQ_self (v : Bytes) : ∀ (q : List Bytes) (is : List TxItem), findFieldQ q (putFieldQ v q is) = some v
  | [], is => by rw [findFieldQ, putFieldQ, findField_putField, if_pos rfl]
  | [n], is => by rw [findFieldQ, putFieldQ, findField_putField, if_pos rfl]
  | n :: m :: q, is => by
    rw [findFieldQ_cons, putFieldQ, findChild_modifyChild, if_pos rfl]
    exact findFieldQ_putFieldQ_self v (m :: q) _

/-- Below a child that was changed, or anywhere else. -/
theorem findFieldQ_modifyChild {q : List Bytes} {g : List TxItem → List TxItem} (n : Bytes) (is : List TxItem)
    (h : ∀ m r, q = n :: m :: r → ∀ cs, findFieldQ (m :: r) (g cs) = findFieldQ (m :: r) cs) :
    findFieldQ q (modifyChild is n g) = findFieldQ q is := by
  cases q with
  | nil => exact findField_modifyChild is n [] g
  | cons k q =>
    cases q with
    | nil => exact findField_modifyChild is n k g
    | cons m r =>
      rw [findFieldQ_cons, findFieldQ_cons, findChild_modifyChild]
      by_cases hk : n = k
      · subst hk
        rw [if_pos rfl]
        exact h m r rfl _
      · rw [if_neg hk]

/-- **A put disturbs no other qname.** -/
theorem findFieldQ_putFieldQ (v : Bytes) : ∀ (q q' : List Bytes) (is : List TxItem), q ≠ [] → q' ≠ [] → q' ≠ q →
    findFieldQ q' (putFieldQ v q is) = findFieldQ q' is
  | [n], [k], is, _, _, hne => by
    rw [findFieldQ, putFieldQ, findField_putField, if_neg (fun h => hne (by rw [h]))]
    rfl
  | [n], k :: m :: r, is, _, _, _ => by
    rw [findFieldQ, putFieldQ, findChild_putField]
    rfl
  | n :: m :: q, q', is, _, _, hne => by
    refine findFieldQ_modifyChild n is fun k r hq cs => ?_
    subst hq
    exact findFieldQ_putFieldQ v (m :: q) (k :: r) cs (by simp) (by simp) (fun h => hne (by rw [h]))

/-! ## Children -/

theorem findChildQ_putChildQ_self : ∀ (q : List Bytes) (is : List TxItem), findChildQ q (putChildQ q is) ≠ none
  | [], is => by rw [findChildQ, putChildQ, findChild_putChild, if_pos rfl]; simp
  | [n], is => by rw [findChildQ, putChildQ, findChild_putChild, if_pos rfl]; simp
  | n :: m :: q, is => by
    rw [findChildQ, putChildQ, findChild_modifyChild, if_pos rfl]
    exact findChildQ_putChildQ_self (m :: q) _

theorem modifyChild_id (is : List TxItem) (n : Bytes) : modifyChild is n id = putChild is n := by
  rw [modifyChild, findChild_putChild, if_pos rfl]
  exact setChild_self n (by rw [findChild_putChild, if_pos rfl]; rfl)

/-- **A `put_child` disturbs no field.** -/
theorem findFieldQ_putChildQ : ∀ (q q' : List Bytes) (is : List TxItem),
    findFieldQ q' (putChildQ q is) = findFieldQ q' is
  | [], q', is => by
    rw [putChildQ, ← modifyChild_id]
    exact findFieldQ_modifyChild [] is fun _ _ _ _ => rfl
  | [n], q', is => by
    rw [putChildQ, ← modifyChild_id]
    exact findFieldQ_modifyChild n is fun _ _ _ _ => rfl
  | n :: m :: q, q', is => findFieldQ_modifyChild n is fun k r _ cs => findFieldQ_putChildQ (m :: q) (k :: r) cs

theorem findChildQ_modifyChild {q : List Bytes} {g : List TxItem → List TxItem} (n : Bytes) {is : List TxItem}
    (h : ∀ m r, q = n :: m :: r → ∀ cs, findChildQ (m :: r) cs ≠ none → findChildQ (m :: r) (g cs) ≠ none)
    (hq : findChildQ q is ≠ none) : findChildQ q (modifyChild is n g) ≠ none := by
  have hfound : ∀ k, findChild k is ≠ none → findChild k (modifyChild is n g) ≠ none := by
    intro k hk
    rw [findChild_modifyChild]
    split
    · simp
    · exact hk
  cases q with
  | nil => exact hfound [] hq
  | cons k q =>
    cases q with
    | nil => exact hfound k hq
    | cons m r =>
      rw [findChildQ] at hq ⊢
      rw [findChild_modifyChild]
      by_cases hk : n = k
      · subst hk
        rw [if_pos rfl]
        cases hc : findChild n is with
        | none => rw [hc] at hq; exact absurd rfl hq
        | some cs =>
          rw [hc] at hq
          exact h m r rfl cs hq
      · rw [if_neg hk]
        exact hq

/-- **A child that was found is still found.** -/
theorem findChildQ_putChildQ : ∀ (q q' : List Bytes) (is : List TxItem), findChildQ q' is ≠ none →
    findChildQ q' (putChildQ q is) ≠ none
  | [], q', is, h => by
    rw [putChildQ, ← modifyChild_id]
    exact findChildQ_modifyChild [] (fun _ _ _ _ hc => hc) h
  | [n], q', is, h => by
    rw [putChildQ, ← modifyChild_id]
    exact findChildQ_modifyChild n (fun _ _ _ _ hc => hc) h
  | n :: m :: q, q', is, h =>
    findChildQ_modifyChild n (fun k r _ cs hc => findChildQ_putChildQ (m :: q) (k :: r) cs hc) h

/-! ## Through the maps -/

theorem Contents.Inv.findChildQ_ne_none {c : Contents} (h : c.Inv) (q : List Bytes) :
    c.findChildQ q ≠ none ↔ Sam.findChildQ q c.erase ≠ none := by
  rw [← Contents.Inv.findChildQ q h, ne_eq, ne_eq, Option.map_eq_none_iff]

/-- **The path laws of a container whose list and maps agree.** -/
theorem path_laws {c : Contents} (h : c.Inv) (q : List Bytes) (v : Bytes) :
    (c.putFieldQ v q).findFieldQ q = some v ∧
    (∀ q', norm q' ≠ norm q → (c.putFieldQ v q).findFieldQ q' = c.findFieldQ q') ∧
    (c.putChildQ q).findChildQ q ≠ none ∧
    (∀ q', (c.putChildQ q).findFieldQ q' = c.findFieldQ q') ∧
    ∀ q', c.findChildQ q' ≠ none → (c.putChildQ q).findChildQ q' ≠ none := by
  obtain ⟨hf, hfe⟩ := refines_putFieldQ v q c h
  obtain ⟨hc, hce⟩ := refines_putChildQ q c h
  refine ⟨?_, fun q' hne => ?_, ?_, fun q' => ?_, fun q' hq' => ?_⟩
  · rw [Contents.Inv.findFieldQ q hf, hfe]
    exact findFieldQ_putFieldQ_self v q c.erase
  · rw [Contents.Inv.findFieldQ q' hf, Contents.Inv.findFieldQ q' h, hfe, ← findFieldQ_norm q', ← putFieldQ_norm v q]
    exact findFieldQ_putFieldQ v (norm q) (norm q') c.erase (norm_ne_nil q) (norm_ne_nil q') hne
  · rw [hc.findChildQ_ne_none, hce]
    exact findChildQ_putChildQ_self q c.erase
  · rw [Contents.Inv.findFieldQ q' hc, Contents.Inv.findFieldQ q' h, hce]
    exact findFieldQ_putChildQ q q' c.erase
  · rw [h.findChildQ_ne_none] at hq'
    rw [hc.findChildQ_ne_none, hce]
    exact findChildQ_putChildQ q q' c.erase hq'

/-- A field named like the container before it. -/
theorem path_laws_sample :
    ((Contents.empty.putField (ascii "a") (ascii "1")).putFieldQ (ascii "2") [ascii "a", ascii "a"]).findFieldQ
        [ascii "a", ascii "a"] = some (ascii "2") ∧
      ((Contents.empty.putField (ascii "a") (ascii "1")).putFieldQ (ascii "2") [ascii "a", ascii "a"]).findFieldQ [ascii "a"] =
        (Contents.empty.putField (ascii "a") (ascii "1")).findFieldQ [ascii "a"] := by
  have h := (refines_putField (ascii "a") (ascii "1") .empty Contents.empty_inv).1
  obtain ⟨hself, hother, -⟩ := path_laws h [ascii "a", ascii "a"] (ascii "2")
  exact ⟨hself, hother _ (by decide)⟩

end Sam
end Exio
