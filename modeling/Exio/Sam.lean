import Mathlib.Data.List.Nodup
import Exio.Scan
import Exio.Decimal
/-!
# Sam — the message tree

A SAM message is a type and an ordered tree of named items (`sam.h`, `sam.cc`): fields hold a byte string, containers
hold items.  A `txContainer` keeps its items in a list and two maps from names to the list's elements; here the list is
the container, and a lookup takes the first item of its kind with that name.  The name of a message's root container is
the message type.

`Everywhere P` carries a condition on one container to every depth, and `Distinct` is the condition the two maps impose:
no two fields and no two children of a container share a name.
-/
namespace Exio

abbrev Bytes := List UInt8

instance : LawfulBEq Bytes := inferInstanceAs (LawfulBEq (List UInt8))

/-- The bytes of an ASCII literal of the source. -/
def ascii (s : String) : Bytes := s.toList.map (fun c => UInt8.ofNat c.toNat)

namespace Sam

/-! ## The delimiters of `sam.h` -/

def msgStart   : UInt8 := 123
def msgEnd     : UInt8 := 125
def msgDelim   : UInt8 := 10
def seqStart   : UInt8 := 91
def seqEnd     : UInt8 := 93
def fieldDelim : UInt8 := 44
def valueDelim : UInt8 := 61
def metaDelim  : UInt8 := 58
def escape     : UInt8 := 92

def sam0100 : Bytes := ascii "SAM0100"
def sam0101 : Bytes := ascii "SAM0101"

/-- `MAX_MSG_LEN`, the longest message five digits can announce. -/
def maxMsgLen : Nat := 99999

def isSpecialChar (c : UInt8) : Bool :=
  c == msgStart || c == msgEnd || c == msgDelim || c == seqStart || c == seqEnd || c == fieldDelim ||
    c == valueDelim || c == metaDelim || c == escape

/-! ## Items, containers and messages -/

inductive TxItem where
  | field (name value : Bytes)
  | container (name : Bytes) (items : List TxItem)

structure TxContainer where
  name  : Bytes
  items : List TxItem

structure TxMessage where
  type : Bytes
  root : List TxItem

def TxItem.name : TxItem → Bytes
  | .field n _     => n
  | .container n _ => n

def TxMessage.empty : TxMessage := ⟨[], []⟩

mutual
def TxItem.decEq : (a b : TxItem) → Decidable (a = b)
  | .field n v, .field n' v' =>
    decidable_of_iff (n = n' ∧ v = v') (by simp)
  | .field _ _, .container _ _ => isFalse (by simp)
  | .container _ _, .field _ _ => isFalse (by simp)
  | .container n is, .container n' is' =>
    match decEq n n', itemsDecEq is is' with
    | isTrue h, isTrue h'  => isTrue (by rw [h, h'])
    | isFalse h, _         => isFalse (by simp [h])
    | _, isFalse h         => isFalse (by simp [h])
def itemsDecEq : (a b : List TxItem) → Decidable (a = b)
  | [], []           => isTrue rfl
  | [], _ :: _       => isFalse (by simp)
  | _ :: _, []       => isFalse (by simp)
  | i :: is, j :: js =>
    match TxItem.decEq i j, itemsDecEq is js with
    | isTrue h, isTrue h'  => isTrue (by rw [h, h'])
    | isFalse h, _         => isFalse (by simp [h])
    | _, isFalse h         => isFalse (by simp [h])
end

instance : DecidableEq TxItem := TxItem.decEq

deriving instance DecidableEq for TxContainer, TxMessage

/-! ## Lookups and updates by name -/

def findField (f : Bytes) : List TxItem → Option Bytes
  | []               => none
  | .field n v :: is => if n = f then some v else findField f is
  | _ :: is          => findField f is

def findChild (c : Bytes) : List TxItem → Option (List TxItem)
  | []                     => none
  | .container n cs :: is  => if n = c then some cs else findChild c is
  | _ :: is                => findChild c is

/-- Overwrite the value of the first field of that name. -/
def setField (f v : Bytes) : List TxItem → List TxItem
  | []                => []
  | .field n v' :: is => if n = f then .field n v :: is else .field n v' :: setField f v is
  | i :: is           => i :: setField f v is

/-- Overwrite the items of the first child of that name. -/
def setChild (c : Bytes) (cs : List TxItem) : List TxItem → List TxItem
  | []                      => []
  | .container n cs' :: is  => if n = c then .container n cs :: is else .container n cs' :: setChild c cs is
  | i :: is                 => i :: setChild c cs is

/-- `put_field(name, value)`: an existing field gets the value, otherwise a new field goes to the end. -/
def putField (is : List TxItem) (f v : Bytes) : List TxItem :=
  match findField f is with
  | some _ => setField f v is
  | none   => is ++ [.field f v]

/-- `put_child(name)`: the container with the child in it. -/
def putChild (is : List TxItem) (c : Bytes) : List TxItem :=
  match findChild c is with
  | some _ => is
  | none   => is ++ [.container c []]

/-- What the reference `put_child(name)` returns is then used for: `f` runs on the child's items in place. -/
def modifyChild (is : List TxItem) (c : Bytes) (f : List TxItem → List TxItem) : List TxItem :=
  setChild c (f ((findChild c (putChild is c)).getD [])) (putChild is c)

/-- `put_child(const txContainer&)`: a deep copy replaces the child of that name, or goes to the end. -/
def putChildCopy (is : List TxItem) (src : TxContainer) : List TxItem :=
  match findChild src.name is with
  | some _ => setChild src.name src.items is
  | none   => is ++ [.container src.name src.items]

/-- `put_field(qname, value)`; the empty qname names the field with the empty name. -/
def putFieldQ (v : Bytes) : List Bytes → List TxItem → List TxItem
  | [], is          => putField is [] v
  | [n], is         => putField is n v
  | n :: m :: q, is => modifyChild is n (putFieldQ v (m :: q))

def findFieldQ : List Bytes → List TxItem → Option Bytes
  | [], is          => findField [] is
  | [n], is         => findField n is
  | n :: m :: q, is => (findChild n is).bind (findFieldQ (m :: q))

def findChildQ : List Bytes → List TxItem → Option (List TxItem)
  | [], is          => findChild [] is
  | [n], is         => findChild n is
  | n :: m :: q, is => (findChild n is).bind (findChildQ (m :: q))

def checkFieldQ (q : List Bytes) (v : Bytes) (is : List TxItem) : Bool := findFieldQ q is == some v

def fieldNames (is : List TxItem) : List Bytes :=
  is.filterMap (fun i => match i with | .field n _ => some n | .container _ _ => none)

def childNames (is : List TxItem) : List Bytes :=
  is.filterMap (fun i => match i with | .field _ _ => none | .container n _ => some n)

/-- `count_child`, the size of the child map. -/
def countChild (is : List TxItem) : Nat := (childNames is).length

theorem findField_eq_none_iff (f : Bytes) : ∀ (is : List TxItem), findField f is = none ↔ f ∉ fieldNames is
  | [] => by simp [findField, fieldNames]
  | .field n v :: is => by
    have ih := findField_eq_none_iff f is
    by_cases h : n = f
    · simp [findField, fieldNames, h]
    · simp only [findField, h, if_false, ih]
      simp [fieldNames, Ne.symm h]
  | .container n cs :: is => by
    have ih := findField_eq_none_iff f is
    simpa [findField, fieldNames] using ih

theorem findChild_eq_none_iff (c : Bytes) : ∀ (is : List TxItem), findChild c is = none ↔ c ∉ childNames is
  | [] => by simp [findChild, childNames]
  | .container n cs :: is => by
    have ih := findChild_eq_none_iff c is
    by_cases h : n = c
    · simp [findChild, childNames, h]
    · simp only [findChild, h, if_false, ih]
      simp [childNames, Ne.symm h]
  | .field n v :: is => by
    have ih := findChild_eq_none_iff c is
    simpa [findChild, childNames] using ih

theorem fieldNames_append (is js : List TxItem) : fieldNames (is ++ js) = fieldNames is ++ fieldNames js := by
  simp [fieldNames]

theorem childNames_append (is js : List TxItem) : childNames (is ++ js) = childNames is ++ childNames js := by
  simp [childNames]

theorem putField_of_not_mem {is : List TxItem} {f : Bytes} (h : f ∉ fieldNames is) (v : Bytes) :
    putField is f v = is ++ [.field f v] := by
  rw [putField, (findField_eq_none_iff f is).2 h]

theorem setChild_append_of_not_mem (c : Bytes) (cs : List TxItem) : ∀ (is js : List TxItem), c ∉ childNames is →
    setChild c cs (is ++ js) = is ++ setChild c cs js
  | [], _, _ => rfl
  | .container n cs' :: is, js, h => by
    simp only [childNames, List.filterMap_cons, List.mem_cons, not_or] at h
    rw [List.cons_append, setChild, if_neg (Ne.symm h.1), setChild_append_of_not_mem c cs is js h.2, List.cons_append]
  | .field n v :: is, js, h => by
    have h' : c ∉ childNames is := by simpa [childNames] using h
    rw [List.cons_append, setChild, setChild_append_of_not_mem c cs is js h', List.cons_append]
    simp

theorem findChild_append_of_not_mem (c : Bytes) : ∀ (is js : List TxItem), c ∉ childNames is →
    findChild c (is ++ js) = findChild c js
  | [], _, _ => rfl
  | .container n cs' :: is, js, h => by
    simp only [childNames, List.filterMap_cons, List.mem_cons, not_or] at h
    rw [List.cons_append, findChild, if_neg (Ne.symm h.1), findChild_append_of_not_mem c is js h.2]
  | .field n v :: is, js, h => by
    have h' : c ∉ childNames is := by simpa [childNames] using h
    rw [List.cons_append, findChild, findChild_append_of_not_mem c is js h']
    simp

/-- A new child goes to the end, with what `f` puts into it. -/
theorem modifyChild_of_not_mem {is : List TxItem} {c : Bytes} (h : c ∉ childNames is)
    (f : List TxItem → List TxItem) : modifyChild is c f = is ++ [.container c (f [])] := by
  have hp : putChild is c = is ++ [.container c []] := by
    rw [putChild, (findChild_eq_none_iff c is).2 h]
  rw [modifyChild, hp, findChild_append_of_not_mem c is _ h, setChild_append_of_not_mem c _ is _ h]
  simp [findChild, setChild]

/-! ### What a lookup sees after an update -/

theorem findField_append (f : Bytes) : ∀ (is js : List TxItem),
    findField f (is ++ js) = (findField f is).or (findField f js)
  | [], _ => rfl
  | .field n v :: is, js => by
    rw [List.cons_append, findField, findField, findField_append f is js]
    split <;> rfl
  | .container n cs :: is, js => by
    rw [List.cons_append, findField, findField, findField_append f is js]
    all_goals simp

theorem findField_setField (f v c : Bytes) : ∀ (is : List TxItem),
    findField c (setField f v is) = if f = c then (findField c is).map (fun _ => v) else findField c is
  | [] => by simp [setField, findField]
  | .container n cs :: is => by
    have ih := findField_setField f v c is
    simpa [setField, findField] using ih
  | .field n v' :: is => by
    have ih := findField_setField f v c is
    rw [setField]
    by_cases hn : n = f
    · rw [if_pos hn, findField, findField, ← hn]
      by_cases hc : n = c <;> simp [hc]
    · rw [if_neg hn, findField, findField, ih]
      by_cases hc : n = c
      · rw [if_pos hc, if_pos hc, if_neg (fun h => hn (hc.trans h.symm))]
      · rw [if_neg hc, if_neg hc]

theorem findField_putField (is : List TxItem) (f v c : Bytes) :
    findField c (putField is f v) = if f = c then some v else findField c is := by
  unfold putField
  split
  · rename_i v' h
    rw [findField_setField]
    by_cases hc : f = c
    · rw [if_pos hc, if_pos hc, ← hc, h]
      rfl
    · rw [if_neg hc, if_neg hc]
  · rename_i h
    rw [findField_append, findField, findField]
    by_cases hc : f = c
    · rw [if_pos hc, if_pos hc, ← hc, h]
      rfl
    · rw [if_neg hc, if_neg hc, Option.or_none]

theorem findField_setChild (c f : Bytes) (cs : List TxItem) : ∀ (is : List TxItem),
    findField f (setChild c cs is) = findField f is
  | [] => rfl
  | .field n v :: is => by
    have ih := findField_setChild c f cs is
    simp [setChild, findField, ih]
  | .container n cs' :: is => by
    have ih := findField_setChild c f cs is
    rw [setChild]
    split <;> simp [findField, ih]

theorem findField_putChildCopy (is : List TxItem) (src : TxContainer) (f : Bytes) :
    findField f (putChildCopy is src) = findField f is := by
  unfold putChildCopy
  split
  · exact findField_setChild src.name f src.items is
  · rw [findField_append]
    exact Option.or_none

theorem findChild_append (c : Bytes) : ∀ (is js : List TxItem),
    findChild c (is ++ js) = (findChild c is).or (findChild c js)
  | [], _ => rfl
  | .container n cs :: is, js => by
    rw [List.cons_append, findChild, findChild, findChild_append c is js]
    split <;> rfl
  | .field n v :: is, js => by
    rw [List.cons_append, findChild, findChild, findChild_append c is js]
    all_goals simp

theorem findChild_setChild (c' : Bytes) (cs : List TxItem) (c : Bytes) : ∀ (is : List TxItem),
    findChild c (setChild c' cs is) = if c' = c then (findChild c is).map (fun _ => cs) else findChild c is
  | [] => by simp [setChild, findChild]
  | .field n v :: is => by
    have ih := findChild_setChild c' cs c is
    simpa [setChild, findChild] using ih
  | .container n cs' :: is => by
    have ih := findChild_setChild c' cs c is
    rw [setChild]
    by_cases hn : n = c'
    · rw [if_pos hn, findChild, findChild, ← hn]
      by_cases hc : n = c <;> simp [hc]
    · rw [if_neg hn, findChild, findChild, ih]
      by_cases hc : n = c
      · rw [if_pos hc, if_pos hc, if_neg (fun h => hn (hc.trans h.symm))]
      · rw [if_neg hc, if_neg hc]

theorem findChild_putChild (is : List TxItem) (c' c : Bytes) :
    findChild c (putChild is c') = if c' = c then some ((findChild c is).getD []) else findChild c is := by
  unfold putChild
  split
  · rename_i cs h
    by_cases hc : c' = c
    · rw [if_pos hc, ← hc, h]
      rfl
    · rw [if_neg hc]
  · rename_i h
    rw [findChild_append, findChild, findChild]
    by_cases hc : c' = c
    · rw [if_pos hc, if_pos hc, ← hc, h]
      rfl
    · rw [if_neg hc, if_neg hc, Option.or_none]

theorem findChild_modifyChild (is : List TxItem) (c' : Bytes) (f : List TxItem → List TxItem) (c : Bytes) :
    findChild c (modifyChild is c' f) = if c' = c then some (f ((findChild c is).getD [])) else findChild c is := by
  rw [modifyChild, findChild_setChild, findChild_putChild, findChild_putChild]
  by_cases hc : c' = c
  · subst hc
    simp
  · simp [hc]

theorem findChild_putChildCopy (is : List TxItem) (src : TxContainer) (c : Bytes) :
    findChild c (putChildCopy is src) = if src.name = c then some src.items else findChild c is := by
  unfold putChildCopy
  split
  · rename_i cs h
    rw [findChild_setChild]
    by_cases hc : src.name = c
    · rw [if_pos hc, if_pos hc, ← hc, h, Option.map_some]
    · rw [if_neg hc, if_neg hc]
  · rename_i h
    rw [findChild_append, findChild, findChild]
    by_cases hc : src.name = c
    · rw [if_pos hc, if_pos hc, ← hc, h, Option.none_or]
    · rw [if_neg hc, if_neg hc, Option.or_none]

/-! ## A condition at every depth -/

mutual
def TxItem.Inside (P : List TxItem → Prop) : TxItem → Prop
  | .field _ _      => True
  | .container _ is => P is ∧ AllInside P is
def AllInside (P : List TxItem → Prop) : List TxItem → Prop
  | []      => True
  | i :: is => i.Inside P ∧ AllInside P is
end

/-- **`P` holds of these items and of the items of every container below them.** -/
def Everywhere (P : List TxItem → Prop) (is : List TxItem) : Prop := P is ∧ AllInside P is

mutual
def TxItem.decInside (P : List TxItem → Prop) [DecidablePred P] : (i : TxItem) → Decidable (i.Inside P)
  | .field _ _      => isTrue trivial
  | .container _ is => @instDecidableAnd (P is) (AllInside P is) _ (decAllInside P is)
def decAllInside (P : List TxItem → Prop) [DecidablePred P] : (is : List TxItem) → Decidable (AllInside P is)
  | []      => isTrue trivial
  | i :: is => @instDecidableAnd (i.Inside P) (AllInside P is) (TxItem.decInside P i) (decAllInside P is)
end

instance (P : List TxItem → Prop) [DecidablePred P] (is : List TxItem) : Decidable (Everywhere P is) :=
  @instDecidableAnd (P is) (AllInside P is) _ (decAllInside P is)

/-- **What the two name maps impose on one container.** -/
def Distinct (is : List TxItem) : Prop := (fieldNames is).Nodup ∧ (childNames is).Nodup

instance : DecidablePred Distinct := fun is => inferInstanceAs (Decidable ((fieldNames is).Nodup ∧ (childNames is).Nodup))

theorem distinct_field {is js : List TxItem} {n v : Bytes} (h : Distinct (is ++ .field n v :: js)) :
    n ∉ fieldNames is := by
  have h1 := h.1
  rw [fieldNames_append, List.nodup_append] at h1
  exact fun hn => h1.2.2 n hn n (by simp [fieldNames]) rfl

theorem distinct_child {is js cs : List TxItem} {n : Bytes} (h : Distinct (is ++ .container n cs :: js)) :
    n ∉ childNames is := by
  have h2 := h.2
  rw [childNames_append, List.nodup_append] at h2
  exact fun hn => h2.2.2 n hn n (by simp [childNames]) rfl

end Sam
end Exio
