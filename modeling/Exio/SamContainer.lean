import Exio.KeyIndex
import Exio.SamMerge
/-!
# SamContainer — the item list and the two maps of a `txContainer`

A `txContainer` keeps its items in a list, and for each kind of item a map from names to pointers into that list.  Lookups
use the maps, while copies, merges and the encoder walk the list.  `add_internally` appends to the list whether or not
the name is taken, and `std::map::insert` keeps the old entry: that list and maps agree is up to its callers.

A pointer is the position of its item; items are only ever added at the end, or all removed.  `TxNode.Inv` is the agreement
at every depth.  Every operation keeps it and does to the list alone what the model of `Sam` says (`Refines`), so that
lookups may be read there.
-/
namespace Exio
namespace Sam

open KeyIndex (Indexes)

/-! ## The representation -/

/-- A `txField`, or a `txContainer` with its list and its maps. -/
inductive TxNode where
  | field (name value : Bytes)
  | container (name : Bytes) (items : List TxNode) (fieldMap childMap : Std.TreeMap Bytes Nat)

/-- What a `txContainer` has besides its name. -/
structure Contents where
  items    : List TxNode
  fieldMap : Std.TreeMap Bytes Nat
  childMap : Std.TreeMap Bytes Nat

def Contents.empty : Contents := ⟨[], ∅, ∅⟩

def Contents.node (c : Contents) (name : Bytes) : TxNode := .container name c.items c.fieldMap c.childMap

def TxNode.fieldName : TxNode → Option Bytes
  | .field n _         => some n
  | .container _ _ _ _ => none

def TxNode.childName : TxNode → Option Bytes
  | .field _ _         => none
  | .container n _ _ _ => some n

/-- What `value()` is, of a field. -/
def TxNode.value : TxNode → Option Bytes
  | .field _ v         => some v
  | .container _ _ _ _ => none

def TxNode.contents : TxNode → Option Contents
  | .field _ _            => none
  | .container _ is fm cm => some ⟨is, fm, cm⟩

/-- `value(newvalue)`, of a field. -/
def TxNode.setValue (newvalue : Bytes) : TxNode → TxNode
  | .field n _            => .field n newvalue
  | .container n is fm cm => .container n is fm cm

/-- A member function of a container run on the object. -/
def TxNode.run (f : Contents → Contents) : TxNode → TxNode
  | .field n v            => .field n v
  | .container n is fm cm => (f ⟨is, fm, cm⟩).node n

def Contents.addInternally (c : Contents) (item : TxNode) : Contents :=
  match item with
  | .field n _         => { c with items := c.items ++ [item], fieldMap := c.fieldMap.insertIfNew n c.items.length }
  | .container n _ _ _ => { c with items := c.items ++ [item], childMap := c.childMap.insertIfNew n c.items.length }

/-- `find_field(name)`, as the value of the field that is found. -/
def Contents.findField (c : Contents) (f : Bytes) : Option Bytes :=
  c.fieldMap[f]?.bind fun i => c.items[i]?.bind TxNode.value

/-- `find_child(name)`. -/
def Contents.findChild (c : Contents) (n : Bytes) : Option Contents :=
  c.childMap[n]?.bind fun i => c.items[i]?.bind TxNode.contents

def Contents.countAny (c : Contents) : Nat := c.items.length

def Contents.countField (c : Contents) : Nat := c.fieldMap.size

def Contents.countChild (c : Contents) : Nat := c.childMap.size

def Contents.putField (c : Contents) (f v : Bytes) : Contents :=
  match c.fieldMap[f]? with
  | some i => { c with items := c.items.modify i (TxNode.setValue v) }
  | none   => c.addInternally (.field f v)

def Contents.putChild (c : Contents) (n : Bytes) : Contents :=
  match c.childMap[n]? with
  | some _ => c
  | none   => c.addInternally (.container n [] ∅ ∅)

/-- What is done through the pointer that `find_child(name)` returns. -/
def Contents.withChild (c : Contents) (n : Bytes) (f : TxNode → TxNode) : Contents :=
  match c.childMap[n]? with
  | some i => { c with items := c.items.modify i f }
  | none   => c

/-- `clear()`. -/
def Contents.clear (_ : Contents) : Contents := .empty

mutual
def TxNode.clone : TxNode → TxNode
  | .field n v          => .field n v
  | .container n is _ _ => (cloneItems .empty is).node n
/-- The loop of the copy constructor, of `operator=` and of `clone`. -/
def cloneItems (c : Contents) : List TxNode → Contents
  | []      => c
  | i :: is => cloneItems (c.addInternally i.clone) is
end

/-- `txContainer(const txContainer& rhs)`. -/
def copyConstruct (name : Bytes) (rhs : Contents) : TxNode := (cloneItems .empty rhs.items).node name

/-- `operator=(rhs)`: the name is assigned too. -/
def Contents.assign (this : Contents) (name : Bytes) (rhs : Contents) : TxNode :=
  (cloneItems this.clear rhs.items).node name

/-- `operator=(rhs)` on an object. -/
def TxNode.assign (name : Bytes) (rhs : Contents) : TxNode → TxNode
  | .field n v           => .field n v
  | .container _ is fm cm => Contents.assign ⟨is, fm, cm⟩ name rhs

/-- `put_child(src)`, for a `src` of that name. -/
def Contents.putChildCopy (c : Contents) (name : Bytes) (src : Contents) : Contents :=
  match c.childMap[name]? with
  | some i => { c with items := c.items.modify i (TxNode.assign name src) }
  | none   => c.addInternally (copyConstruct name src)

mutual
/-- One turn of the loop of `merge`. -/
def Contents.mergeItem (c : Contents) : TxNode → Contents
  | .field n v            => c.putField n v
  | .container n is fm cm =>
    match c.childMap[n]? with
    | some i => { c with items := c.items.modify i (TxNode.run fun d => d.merge is) }
    | none   => c.putChildCopy n ⟨is, fm, cm⟩
/-- `merge(src)`, over the items of `src`. -/
def Contents.merge (c : Contents) : List TxNode → Contents
  | []       => c
  | i :: src => (c.mergeItem i).merge src
end

/-- `put_field(qname, value)`. -/
def Contents.putFieldQ (v : Bytes) : List Bytes → Contents → Contents
  | [], c          => c.putField [] v
  | [n], c         => c.putField n v
  | n :: m :: q, c => (c.putChild n).withChild n (TxNode.run (Contents.putFieldQ v (m :: q)))

/-- `put_child(qname)`. -/
def Contents.putChildQ : List Bytes → Contents → Contents
  | [], c          => c.putChild []
  | [n], c         => c.putChild n
  | n :: m :: q, c => (c.putChild n).withChild n (TxNode.run (Contents.putChildQ (m :: q)))

def Contents.findFieldQ : List Bytes → Contents → Option Bytes
  | [], c          => c.findField []
  | [n], c         => c.findField n
  | n :: m :: q, c => (c.findChild n).bind (Contents.findFieldQ (m :: q))

def Contents.findChildQ : List Bytes → Contents → Option Contents
  | [], c          => c.findChild []
  | [n], c         => c.findChild n
  | n :: m :: q, c => (c.findChild n).bind (Contents.findChildQ (m :: q))

/-! ## The invariant -/

/-- **List and maps agree, at every depth**: a map holds exactly the positions of the items of its kind, each under the
item's own name. -/
inductive TxNode.Inv : TxNode → Prop
  | field (n v : Bytes) : Inv (.field n v)
  | container {n : Bytes} {is : List TxNode} {fm cm : Std.TreeMap Bytes Nat} : Indexes TxNode.fieldName is fm →
      Indexes TxNode.childName is cm → (∀ i ∈ is, Inv i) → Inv (.container n is fm cm)

structure Contents.Inv (c : Contents) : Prop where
  fields   : Indexes TxNode.fieldName c.items c.fieldMap
  children : Indexes TxNode.childName c.items c.childMap
  items    : ∀ i ∈ c.items, i.Inv

theorem Contents.Inv.node {c : Contents} (h : c.Inv) (n : Bytes) : (c.node n).Inv := .container h.fields h.children h.items

theorem TxNode.Inv.contents {n : Bytes} {is : List TxNode} {fm cm : Std.TreeMap Bytes Nat}
    (h : (TxNode.container n is fm cm).Inv) : Contents.Inv ⟨is, fm, cm⟩ := by
  cases h with
  | container hf hc hi => exact ⟨hf, hc, hi⟩

theorem Contents.empty_inv : Contents.empty.Inv := ⟨.empty, .empty, fun _ h => absurd h List.not_mem_nil⟩

mutual
/-- The item as `Sam` has it, without the maps. -/
def TxNode.erase : TxNode → TxItem
  | .field n v          => .field n v
  | .container n is _ _ => .container n (eraseAll is)
def eraseAll : List TxNode → List TxItem
  | []      => []
  | i :: is => i.erase :: eraseAll is
end

def Contents.erase (c : Contents) : List TxItem := eraseAll c.items

theorem eraseAll_eq_map : ∀ (is : List TxNode), eraseAll is = is.map TxNode.erase
  | []      => rfl
  | i :: is => by rw [eraseAll, eraseAll_eq_map is, List.map_cons]

theorem eraseAll_append (is js : List TxNode) : eraseAll (is ++ js) = eraseAll is ++ eraseAll js := by
  simp [eraseAll_eq_map]

theorem getElem?_eraseAll (is : List TxNode) (i : Nat) : (eraseAll is)[i]? = is[i]?.map TxNode.erase := by
  rw [eraseAll_eq_map, List.getElem?_map]

theorem fieldNames_eraseAll : ∀ (is : List TxNode), fieldNames (eraseAll is) = is.filterMap TxNode.fieldName
  | []                       => rfl
  | .field n _ :: is         => congrArg (n :: ·) (fieldNames_eraseAll is)
  | .container _ _ _ _ :: is => fieldNames_eraseAll is

theorem childNames_eraseAll : ∀ (is : List TxNode), childNames (eraseAll is) = is.filterMap TxNode.childName
  | []                       => rfl
  | .field _ _ :: is         => childNames_eraseAll is
  | .container n _ _ _ :: is => congrArg (n :: ·) (childNames_eraseAll is)

/-- **The names of a container are distinct.** -/
theorem Contents.Inv.distinct {c : Contents} (h : c.Inv) : Distinct c.erase :=
  ⟨fieldNames_eraseAll c.items ▸ h.fields.nodup, childNames_eraseAll c.items ▸ h.children.nodup⟩

theorem length_filterMap_kinds : ∀ (is : List TxNode),
    is.length = (is.filterMap TxNode.fieldName).length + (is.filterMap TxNode.childName).length
  | [] => rfl
  | .field n v :: is => by
    have ih := length_filterMap_kinds is
    simp only [List.filterMap_cons, TxNode.fieldName, TxNode.childName, List.length_cons]
    omega
  | .container n _ _ _ :: is => by
    have ih := length_filterMap_kinds is
    simp only [List.filterMap_cons, TxNode.fieldName, TxNode.childName, List.length_cons]
    omega

/-- **`count_any() = count_field() + count_child()`.** -/
theorem Contents.Inv.count {c : Contents} (h : c.Inv) : c.countAny = c.countField + c.countChild := by
  rw [Contents.countAny, Contents.countField, Contents.countChild, h.fields.size_eq, h.children.size_eq]
  exact length_filterMap_kinds c.items

/-! ## Lookups through the maps are lookups in the list -/

theorem field_of_getElem? : ∀ {L : List TxItem} {i : Nat} {n v : Bytes}, (fieldNames L).Nodup →
    L[i]? = some (.field n v) → findField n L = some v ∧ ∀ w, setField n w L = L.set i (.field n w)
  | .field m u :: L, 0, n, v, _, h => by
    cases h
    exact ⟨by rw [findField, if_pos rfl], fun w => by rw [setField, if_pos rfl]; rfl⟩
  | .field m u :: L, i + 1, n, v, hnd, h => by
    obtain ⟨hm, hnd⟩ := List.nodup_cons.1 (show (m :: fieldNames L).Nodup from hnd)
    rw [List.getElem?_cons_succ] at h
    have hne : m ≠ n := by
      rintro rfl
      exact hm (List.mem_filterMap.2 ⟨_, List.mem_of_getElem? h, rfl⟩)
    obtain ⟨hf, hs⟩ := field_of_getElem? hnd h
    exact ⟨by rw [findField, if_neg hne, hf], fun w => by rw [setField, if_neg hne, hs]; rfl⟩
  | .container m cs :: L, i + 1, n, v, hnd, h => by
    obtain ⟨hf, hs⟩ := field_of_getElem? (L := L) hnd h
    exact ⟨by simpa [findField] using hf, fun w => by simp [setField, hs]⟩

theorem child_of_getElem? : ∀ {L : List TxItem} {i : Nat} {n : Bytes} {cs : List TxItem}, (childNames L).Nodup →
    L[i]? = some (.container n cs) → findChild n L = some cs ∧ ∀ ds, setChild n ds L = L.set i (.container n ds)
  | .container m u :: L, 0, n, cs, _, h => by
    cases h
    exact ⟨by rw [findChild, if_pos rfl], fun ds => by rw [setChild, if_pos rfl]; rfl⟩
  | .container m u :: L, i + 1, n, cs, hnd, h => by
    obtain ⟨hm, hnd⟩ := List.nodup_cons.1 (show (m :: childNames L).Nodup from hnd)
    rw [List.getElem?_cons_succ] at h
    have hne : m ≠ n := by
      rintro rfl
      exact hm (List.mem_filterMap.2 ⟨_, List.mem_of_getElem? h, rfl⟩)
    obtain ⟨hf, hs⟩ := child_of_getElem? hnd h
    exact ⟨by rw [findChild, if_neg hne, hf], fun ds => by rw [setChild, if_neg hne, hs]; rfl⟩
  | .field m v :: L, i + 1, n, cs, hnd, h => by
    obtain ⟨hf, hs⟩ := child_of_getElem? (L := L) hnd h
    exact ⟨by simpa [findChild] using hf, fun ds => by simp [setChild, hs]⟩

/-- A pointer of the field map. -/
theorem Contents.Inv.field_at {c : Contents} (h : c.Inv) {f : Bytes} {i : Nat} (hi : c.fieldMap[f]? = some i) :
    ∃ v, c.items[i]? = some (.field f v) := by
  obtain ⟨x, hx, hf⟩ := Option.bind_eq_some_iff.1 ((h.fields f i).1 hi)
  cases x with
  | field n v => cases hf; exact ⟨v, hx⟩
  | container n _ _ _ => cases hf

/-- A pointer of the child map. -/
theorem Contents.Inv.child_at {c : Contents} (h : c.Inv) {n : Bytes} {i : Nat} (hi : c.childMap[n]? = some i) :
    ∃ d : Contents, c.items[i]? = some (d.node n) ∧ d.Inv := by
  obtain ⟨x, hx, hc⟩ := Option.bind_eq_some_iff.1 ((h.children n i).1 hi)
  cases x with
  | field m v => cases hc
  | container m is fm cm =>
    cases hc
    exact ⟨⟨is, fm, cm⟩, hx, (h.items _ (List.mem_of_getElem? hx)).contents⟩

theorem Contents.Inv.findField {c : Contents} (h : c.Inv) (f : Bytes) : c.findField f = Sam.findField f c.erase := by
  rw [Contents.findField]
  cases hi : c.fieldMap[f]? with
  | none =>
    rw [h.fields.eq_none_iff, ← fieldNames_eraseAll] at hi
    exact ((findField_eq_none_iff f c.erase).2 hi).symm
  | some i =>
    obtain ⟨v, hv⟩ := h.field_at hi
    have hL : c.erase[i]? = some (.field f v) := by rw [Contents.erase, getElem?_eraseAll, hv]; rfl
    rw [Option.bind_some, hv, (field_of_getElem? h.distinct.1 hL).1]
    rfl

/-- What `find_child` returns, and what the list holds under that name. -/
theorem Contents.Inv.findChild {c : Contents} (h : c.Inv) (n : Bytes) :
    (c.findChild n).map Contents.erase = Sam.findChild n c.erase ∧ ∀ d, c.findChild n = some d → d.Inv := by
  rw [Contents.findChild]
  cases hi : c.childMap[n]? with
  | none =>
    rw [h.children.eq_none_iff, ← childNames_eraseAll] at hi
    exact ⟨((findChild_eq_none_iff n c.erase).2 hi).symm, fun d hd => by cases hd⟩
  | some i =>
    obtain ⟨d, hd, hinv⟩ := h.child_at hi
    have hL : c.erase[i]? = some (.container n d.erase) := by rw [Contents.erase, getElem?_eraseAll, hd]; rfl
    rw [Option.bind_some, hd, (child_of_getElem? h.distinct.2 hL).1]
    exact ⟨rfl, fun e he => by cases he; exact hinv⟩

theorem Contents.Inv.findFieldQ : ∀ (q : List Bytes) {c : Contents}, c.Inv →
    c.findFieldQ q = Sam.findFieldQ q c.erase
  | [], _, h => h.findField []
  | [n], _, h => h.findField n
  | n :: m :: q, c, h => by
    obtain ⟨hmap, hinv⟩ := h.findChild n
    rw [Contents.findFieldQ, Sam.findFieldQ, ← hmap]
    cases hc : c.findChild n with
    | none => rfl
    | some d => exact Contents.Inv.findFieldQ (m :: q) (hinv d hc)

theorem Contents.Inv.findChildQ : ∀ (q : List Bytes) {c : Contents}, c.Inv →
    (c.findChildQ q).map Contents.erase = Sam.findChildQ q c.erase
  | [], _, h => (h.findChild []).1
  | [n], _, h => (h.findChild n).1
  | n :: m :: q, c, h => by
    obtain ⟨hmap, hinv⟩ := h.findChild n
    rw [Contents.findChildQ, Sam.findChildQ, ← hmap]
    cases hc : c.findChild n with
    | none => rfl
    | some d => exact Contents.Inv.findChildQ (m :: q) (hinv d hc)

/-! ## The operations keep the agreement -/

/-- **`f` keeps the agreement, and does to the list what `g` does.** -/
def Refines (f : Contents → Contents) (g : List TxItem → List TxItem) : Prop :=
  ∀ c : Contents, c.Inv → (f c).Inv ∧ (f c).erase = g c.erase

theorem Refines.comp {f f' : Contents → Contents} {g g' : List TxItem → List TxItem} (h : Refines f g)
    (h' : Refines f' g') : Refines (fun c => f' (f c)) (fun is => g' (g is)) := by
  intro c hc
  obtain ⟨hi, he⟩ := h c hc
  obtain ⟨hi', he'⟩ := h' (f c) hi
  exact ⟨hi', by rw [he', he]⟩

/-- **`add_internally` of a name that is not taken.** -/
theorem Contents.Inv.addInternally {c : Contents} (h : c.Inv) {x : TxNode} (hx : x.Inv)
    (hf : ∀ n, x.fieldName = some n → c.fieldMap[n]? = none) (hc : ∀ n, x.childName = some n → c.childMap[n]? = none) :
    (c.addInternally x).Inv ∧ (c.addInternally x).erase = c.erase ++ [x.erase] := by
  have hitems : ∀ i ∈ c.items ++ [x], i.Inv := by
    intro i hi
    rcases List.mem_append.1 hi with hi | hi
    · exact h.items i hi
    · rw [List.mem_singleton.1 hi]
      exact hx
  have herase : eraseAll (c.items ++ [x]) = c.erase ++ [x.erase] := eraseAll_append c.items [x]
  cases x with
  | field n v => exact ⟨⟨h.fields.push rfl (hf n rfl), h.children.push_none rfl, hitems⟩, herase⟩
  | container n is fm cm => exact ⟨⟨h.fields.push_none rfl, h.children.push rfl (hc n rfl), hitems⟩, herase⟩

/-- **An update through a pointer** that keeps the kind and the name. -/
theorem Contents.Inv.modify {c : Contents} (h : c.Inv) {i : Nat} {x : TxNode} (hi : c.items[i]? = some x)
    {f : TxNode → TxNode} (hinv : (f x).Inv) (hfield : (f x).fieldName = x.fieldName)
    (hchild : (f x).childName = x.childName) :
    Contents.Inv { c with items := c.items.modify i f } ∧
      Contents.erase { c with items := c.items.modify i f } = c.erase.set i (f x).erase := by
  refine ⟨⟨h.fields.modify fun y hy => ?_, h.children.modify fun y hy => ?_, fun y hy => ?_⟩, ?_⟩
  · rw [hi] at hy
    cases hy
    exact hfield
  · rw [hi] at hy
    cases hy
    exact hchild
  · obtain ⟨j, hj⟩ := List.mem_iff_getElem?.1 hy
    rw [List.getElem?_modify] at hj
    by_cases hij : i = j
    · subst hij
      rw [hi] at hj
      simp only [if_true, Option.map_eq_map, Option.map_some, Option.some.injEq] at hj
      exact hj ▸ hinv
    · simp only [hij, if_false, id_map'] at hj
      exact h.items y (List.mem_of_getElem? hj)
  · refine List.ext_getElem? fun j => ?_
    rw [Contents.erase, Contents.erase, getElem?_eraseAll, List.getElem?_set, List.getElem?_modify, getElem?_eraseAll,
      eraseAll_eq_map, List.length_map]
    by_cases hij : i = j
    · subst hij
      rw [hi, if_pos rfl, if_pos (List.getElem?_eq_some_iff.1 hi).1]
      simp
    · simp [hij]

theorem refines_putField (f v : Bytes) : Refines (fun c => c.putField f v) (fun is => putField is f v) := by
  intro c h
  have hfind := h.findField f
  simp only [Contents.putField, putField, ← hfind, Contents.findField]
  cases hi : c.fieldMap[f]? with
  | none => exact h.addInternally (.field f v) (fun n hn => by cases hn; exact hi) (fun n hn => by cases hn)
  | some i =>
    obtain ⟨w, hw⟩ := h.field_at hi
    have hL : c.erase[i]? = some (.field f w) := by rw [Contents.erase, getElem?_eraseAll, hw]; rfl
    obtain ⟨hinv, he⟩ := h.modify hw (f := TxNode.setValue v) (.field f v) rfl rfl
    refine ⟨hinv, ?_⟩
    rw [Option.bind_some, hw, he]
    exact ((field_of_getElem? h.distinct.1 hL).2 v).symm

theorem refines_putChild (n : Bytes) : Refines (fun c => c.putChild n) (fun is => putChild is n) := by
  intro c h
  have hfind := (h.findChild n).1
  simp only [Contents.putChild, putChild, ← hfind, Contents.findChild]
  cases hi : c.childMap[n]? with
  | none =>
    exact h.addInternally (Contents.empty_inv.node n) (fun m hm => by cases hm) (fun m hm => by cases hm; exact hi)
  | some i =>
    obtain ⟨d, hd, -⟩ := h.child_at hi
    rw [Option.bind_some, hd]
    exact ⟨h, rfl⟩

/-- What is done to the child of a name. -/
def onChild (n : Bytes) (g : List TxItem → List TxItem) (is : List TxItem) : List TxItem :=
  match findChild n is with
  | some cs => setChild n (g cs) is
  | none    => is

/-- **A child updated through its pointer.** -/
theorem Contents.Inv.withChild {c : Contents} (h : c.Inv) {n : Bytes} {f : TxNode → TxNode} {g : List TxItem → List TxItem}
    (hf : ∀ d : Contents, d.Inv → ∃ d' : Contents, f (d.node n) = d'.node n ∧ d'.Inv ∧ d'.erase = g d.erase) :
    (c.withChild n f).Inv ∧ (c.withChild n f).erase = onChild n g c.erase := by
  have hfind := (h.findChild n).1
  simp only [Contents.withChild, onChild, ← hfind, Contents.findChild]
  cases hi : c.childMap[n]? with
  | none => exact ⟨h, rfl⟩
  | some i =>
    obtain ⟨d, hd, hinv⟩ := h.child_at hi
    have hL : c.erase[i]? = some (.container n d.erase) := by rw [Contents.erase, getElem?_eraseAll, hd]; rfl
    obtain ⟨d', hd', hinv', he'⟩ := hf d hinv
    obtain ⟨hm, he⟩ := h.modify hd (f := f) (hd' ▸ hinv'.node n) (by rw [hd']; rfl) (by rw [hd']; rfl)
    refine ⟨hm, ?_⟩
    rw [Option.bind_some, hd, he, hd']
    show c.erase.set i (.container n d'.erase) = setChild n (g d.erase) c.erase
    rw [he', (child_of_getElem? h.distinct.2 hL).2]

theorem refines_withChild (n : Bytes) {f : Contents → Contents} {g : List TxItem → List TxItem} (h : Refines f g) :
    Refines (fun c => c.withChild n (TxNode.run f)) (onChild n g) :=
  fun _ hc => hc.withChild fun d hd => ⟨f d, rfl, (h d hd).1, (h d hd).2⟩

theorem modifyChild_eq_onChild (is : List TxItem) (n : Bytes) (g : List TxItem → List TxItem) :
    modifyChild is n g = onChild n g (putChild is n) := by
  rw [modifyChild, onChild, findChild_putChild, if_pos rfl]
  rfl

/-- One step down a qname. -/
theorem refines_modifyChild (n : Bytes) {f : Contents → Contents} {g : List TxItem → List TxItem} (h : Refines f g) :
    Refines (fun c => (c.putChild n).withChild n (TxNode.run f)) (fun is => modifyChild is n g) := by
  simp only [modifyChild_eq_onChild]
  exact (refines_putChild n).comp (refines_withChild n h)

theorem refines_putFieldQ (v : Bytes) : ∀ (q : List Bytes), Refines (Contents.putFieldQ v q) (putFieldQ v q)
  | []          => refines_putField [] v
  | [n]         => refines_putField n v
  | n :: m :: q => refines_modifyChild n (refines_putFieldQ v (m :: q))

/-- `put_child(qname)` on the list alone. -/
def putChildQ : List Bytes → List TxItem → List TxItem
  | [], is          => putChild is []
  | [n], is         => putChild is n
  | n :: m :: q, is => modifyChild is n (putChildQ (m :: q))

theorem refines_putChildQ : ∀ (q : List Bytes), Refines (Contents.putChildQ q) (putChildQ q)
  | []          => refines_putChild []
  | [n]         => refines_putChild n
  | n :: m :: q => refines_modifyChild n (refines_putChildQ (m :: q))

theorem refines_clear : Refines Contents.clear (fun _ => []) := fun _ _ => ⟨Contents.empty_inv, rfl⟩

/-! ## Copies and merges -/

theorem TxNode.fieldName_eq_some {o : TxNode} {n : Bytes} (h : o.fieldName = some n) : ∃ v, o = .field n v := by
  cases o with
  | field m v => cases h; exact ⟨v, rfl⟩
  | container m is fm cm => cases h

theorem TxNode.childName_eq_some {o : TxNode} {n : Bytes} (h : o.childName = some n) : ∃ d : Contents, o = d.node n := by
  cases o with
  | field m v => cases h
  | container m is fm cm => cases h; exact ⟨⟨is, fm, cm⟩, rfl⟩

/-- The name of an item that comes next in a list of distinct names is not taken. -/
theorem Contents.Inv.fresh {c : Contents} (h : c.Inv) {o : TxNode} {js : List TxItem}
    (hd : Distinct (c.erase ++ o.erase :: js)) :
    (∀ n, o.fieldName = some n → c.fieldMap[n]? = none) ∧ ∀ n, o.childName = some n → c.childMap[n]? = none := by
  constructor
  · intro n hn
    obtain ⟨v, rfl⟩ := TxNode.fieldName_eq_some hn
    rw [h.fields.eq_none_iff, ← fieldNames_eraseAll]
    exact distinct_field hd
  · intro n hn
    obtain ⟨d, rfl⟩ := TxNode.childName_eq_some hn
    rw [h.children.eq_none_iff, ← childNames_eraseAll]
    exact distinct_child hd

/-- The copy loop, where each item's copy is one. -/
theorem cloneItems_spec : ∀ (js : List TxNode) {c : Contents}, c.Inv → Distinct (c.erase ++ eraseAll js) →
    (∀ j ∈ js, j.clone.Inv ∧ j.clone.erase = j.erase) →
    (cloneItems c js).Inv ∧ (cloneItems c js).erase = c.erase ++ eraseAll js
  | [], c, hc, _, _ => ⟨hc, by rw [cloneItems, eraseAll, List.append_nil]⟩
  | j :: js, c, hc, hd, hjs => by
    obtain ⟨hjinv, hje⟩ := hjs j List.mem_cons_self
    have hd' : Distinct (c.erase ++ j.clone.erase :: eraseAll js) := by rw [hje]; exact hd
    obtain ⟨hinv, he⟩ := hc.addInternally hjinv (hc.fresh hd').1 (hc.fresh hd').2
    rw [hje] at he
    have ih := cloneItems_spec js hinv (by rw [he, List.append_assoc]; exact hd)
      (fun k hk => hjs k (List.mem_cons_of_mem j hk))
    rw [he, List.append_assoc] at ih
    exact ih

/-- **A copy agrees, and has the same items**: no name comes twice. -/
theorem TxNode.Inv.clone {o : TxNode} (h : o.Inv) : o.clone.Inv ∧ o.clone.erase = o.erase := by
  induction h with
  | field n v => exact ⟨.field n v, rfl⟩
  | @container n is fm cm hf hc hi ih =>
    have hd := Contents.Inv.distinct (c := ⟨is, fm, cm⟩) ⟨hf, hc, hi⟩
    obtain ⟨hinv, he⟩ := cloneItems_spec is Contents.empty_inv hd ih
    rw [TxNode.clone]
    exact ⟨hinv.node n, congrArg (TxItem.container n) he⟩

/-- What the copy constructor and `operator=` make of a container. -/
theorem Contents.Inv.cloneItems {c : Contents} (h : c.Inv) :
    (cloneItems .empty c.items).Inv ∧ (Sam.cloneItems .empty c.items).erase = c.erase :=
  cloneItems_spec c.items Contents.empty_inv h.distinct fun i hi => (h.items i hi).clone

theorem refines_putChildCopy (name : Bytes) {src : Contents} (hsrc : src.Inv) :
    Refines (fun c => c.putChildCopy name src) (fun is => putChildCopy is ⟨name, src.erase⟩) := by
  intro c h
  obtain ⟨hcopy, hce⟩ := hsrc.cloneItems
  have hfind := (h.findChild name).1
  simp only [Contents.putChildCopy, putChildCopy, ← hfind, Contents.findChild]
  cases hi : c.childMap[name]? with
  | none =>
    obtain ⟨hinv, he⟩ := h.addInternally (hcopy.node name) (fun m hm => by cases hm) (fun m hm => by cases hm; exact hi)
    refine ⟨hinv, he.trans ?_⟩
    show c.erase ++ [.container name (Contents.erase _)] = _
    rw [hce]
    rfl
  | some i =>
    have hset := h.withChild (n := name) (f := TxNode.assign name src) (g := fun _ => src.erase)
      fun d _ => ⟨_, rfl, hcopy, hce⟩
    obtain ⟨d, hd, -⟩ := h.child_at hi
    simp only [Contents.withChild, onChild, ← hfind, Contents.findChild, hi, Option.bind_some, hd] at hset
    rw [Option.bind_some, hd]
    exact hset

theorem refines_mergeLoop : ∀ {js : List TxNode},
    (∀ j ∈ js, Refines (fun c => c.mergeItem j) (fun is => mergeItem is j.erase)) →
    Refines (fun c => c.merge js) (fun is => merge is (eraseAll js))
  | [], _ => fun _ hc => ⟨hc, rfl⟩
  | j :: _, h => (h j List.mem_cons_self).comp (refines_mergeLoop fun k hk => h k (List.mem_cons_of_mem j hk))

/-- **`merge` through the maps is `merge` on the lists.** -/
theorem TxNode.Inv.mergeItem {o : TxNode} (h : o.Inv) : Refines (fun c => c.mergeItem o) (fun is => mergeItem is o.erase) := by
  induction h with
  | field n v => exact refines_putField n v
  | @container n is fm cm hf hc hi ih =>
    intro c h
    have hsrc : Contents.Inv ⟨is, fm, cm⟩ := ⟨hf, hc, hi⟩
    have hfind := (h.findChild n).1
    have hcopy := refines_putChildCopy n hsrc c h
    have hmerge := refines_withChild n (refines_mergeLoop ih) c h
    simp only [Contents.withChild, onChild, ← hfind, Contents.findChild] at hmerge
    simp only [Contents.mergeItem, TxNode.erase, Sam.mergeItem, ← hfind, Contents.findChild]
    cases hc' : c.childMap[n]? with
    | none => exact hcopy
    | some i =>
      obtain ⟨d, hd, -⟩ := h.child_at hc'
      simp only [hc', Option.bind_some, hd] at hmerge ⊢
      exact hmerge

theorem refines_merge {src : List TxNode} (h : ∀ i ∈ src, i.Inv) :
    Refines (fun c => c.merge src) (fun is => merge is (eraseAll src)) :=
  refines_mergeLoop fun i hi => (h i hi).mergeItem

end Sam
end Exio
