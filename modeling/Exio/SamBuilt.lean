import Exio.SamDecode
import Exio.SamWithin
/-!
# SamBuilt — the containers that can be built

`Built o es` are the containers that the public operations build: from nothing or as a copy, by puts, merges, clears,
assignments and decodes, on the container itself and on every container below it, from sources in other objects and from
sources in the same tree.  `es` is the history.  In a built container list and maps agree at every depth, and every list is
in the order of first insertion (`built_representation`).

Two operations have to be used with care.  `operator=` copies the name as well; on a child, which its parent knows by name,
the agreement survives exactly if the name is the same (`assignChild_inv_iff`).  And it empties the container before it
reads the source, which must not lie inside (`assignWithin_eq_none_iff`).
-/
namespace Exio
namespace Sam

open OrderedUnion (firsts)
open ContainerEvent (under below logAt)
open Scan (scan)

/-! ## Decoding as a sequence of puts -/

/-- A `put_field` or `put_child` of the decoder, on the container at a path. -/
inductive Put where
  | field (path : List Bytes) (name value : Bytes)
  | child (path : List Bytes) (name : Bytes)

namespace Put

def under (n : Bytes) : Put → Put
  | field p f v => field (n :: p) f v
  | child p c   => child (n :: p) c

def run : Put → Contents → Contents
  | field p f v => Contents.alter (fun c => c.putField f v) p
  | child p n   => Contents.alter (fun c => c.putChild n) p

/-- The same on the list alone. -/
def list : Put → List TxItem → List TxItem
  | field p f v => alter (fun is => putField is f v) p
  | child p n   => alter (fun is => putChild is n) p

def event : Put → ContainerEvent
  | field p f _ => .insert p (.field f)
  | child p n   => .insert p (.child n)

theorem refines : ∀ (a : Put), Refines a.run a.list
  | field p f v => refines_alter (refines_putField f v) p
  | child p n   => refines_alter (refines_putChild n) p

theorem event_under (n : Bytes) : ∀ (a : Put), (a.under n).event = a.event.under n
  | field _ _ _ => rfl
  | child _ _   => rfl

theorem list_under (n : Bytes) : ∀ (a : Put) (is : List TxItem), (a.under n).list is = onChild n a.list is
  | field _ _ _, _ => rfl
  | child _ _, _   => rfl

end Put

def runPuts (puts : List Put) (c : Contents) : Contents := puts.foldl (fun c a => a.run c) c

def listPuts (puts : List Put) (is : List TxItem) : List TxItem := puts.foldl (fun is a => a.list is) is

def fieldEndPuts (next : Bytes → List Put × Except DecodeError Bytes) : Bytes → List Put × Except DecodeError Bytes
  | []     => ([], .error .noFieldDelim)
  | c :: p => if c ≠ fieldDelim then ([], .error .notFieldDelim) else next p

def decodeValuePuts (next : Bytes → List Put × Except DecodeError Bytes) (past : Option UInt8) (fieldname p : Bytes) :
    List Put × Except DecodeError Bytes :=
  match peek past p with
  | none   => ([], .error .overrun)
  | some b =>
    if b = seqStart then
      match next (p.drop 1) with
      | (subcont, .error e) => (.child [] fieldname :: subcont.map (Put.under fieldname), .error e)
      | (subcont, .ok p)    =>
        let rest := fieldEndPuts next p
        (.child [] fieldname :: (subcont.map (Put.under fieldname) ++ rest.1), rest.2)
    else
      let value := scan escape fieldDelim p
      let rest := fieldEndPuts next value.2
      (.field [] fieldname value.1 :: rest.1, rest.2)

/-- What the loop of `decode` puts, up to its return or its throw: nothing of it depends on what is there. -/
def decodeLoopPuts (past : Option UInt8) : Nat → Bytes → List Put × Except DecodeError Bytes
  | 0, _             => ([], .error .outOfFuel)
  | _ + 1, []        => ([], .ok [])
  | fuel + 1, c :: p =>
    if c = seqEnd then ([], .ok p)
    else
      match scan escape valueDelim (c :: p) with
      | (_, [])             => ([], .error .noValueDelim)
      | (fieldname, d :: p) =>
        if d ≠ valueDelim then ([], .error .notValueDelim)
        else decodeValuePuts (decodeLoopPuts past fuel) past fieldname p

def decodePuts (past : Option UInt8) (p : Bytes) : List Put × Except DecodeError Bytes :=
  decodeLoopPuts past (p.length + 1) (p.drop 1)

/-- The puts of a container's text: fields, and children with the puts of their own text. -/
inductive Reads : List Put → Prop
  | nil : Reads []
  | field {f v : Bytes} {rest : List Put} : Reads rest → Reads (.field [] f v :: rest)
  | child {n : Bytes} {inner rest : List Put} : Reads inner → Reads rest →
      Reads (.child [] n :: (inner.map (Put.under n) ++ rest))

theorem setChild_self (n : Bytes) : ∀ {is cs : List TxItem}, findChild n is = some cs → setChild n cs is = is
  | .field m v :: is, cs, h => by
    rw [setChild, setChild_self n (by simpa [findChild] using h)]
    simp
  | .container m ds :: is, cs, h => by
    rw [findChild] at h
    rw [setChild]
    split
    · rename_i hm
      rw [if_pos hm] at h
      rw [Option.some.inj h]
    · rename_i hm
      rw [if_neg hm] at h
      rw [setChild_self n h]

theorem setChild_setChild (n : Bytes) (cs ds : List TxItem) : ∀ (is : List TxItem),
    setChild n cs (setChild n ds is) = setChild n cs is
  | [] => rfl
  | .field m v :: is => by
    have ih := setChild_setChild n cs ds is
    simpa [setChild] using ih
  | .container m es :: is => by
    have ih := setChild_setChild n cs ds is
    by_cases hm : m = n
    · simp [setChild, hm]
    · simp [setChild, hm, ih]

/-- Puts below a child are puts on the child. -/
theorem listPuts_under (n : Bytes) : ∀ (puts : List Put) {is cs : List TxItem}, findChild n is = some cs →
    listPuts (puts.map (Put.under n)) is = setChild n (listPuts puts cs) is
  | [], is, cs, h => (setChild_self n h).symm
  | a :: puts, is, cs, h => by
    have hstep : (a.under n).list is = setChild n (a.list cs) is := by rw [Put.list_under, onChild, h]
    have hfind : findChild n (setChild n (a.list cs) is) = some (a.list cs) := by
      rw [findChild_setChild, if_pos rfl, h]
      rfl
    have ih := listPuts_under n puts hfind
    rw [listPuts, List.map_cons, List.foldl_cons, hstep, ← listPuts, ih, setChild_setChild]
    rfl

theorem listPuts_append (a b : List Put) (is : List TxItem) : listPuts (a ++ b) is = listPuts b (listPuts a is) :=
  List.foldl_append

/-- A child and the puts below it. -/
theorem listPuts_child (n : Bytes) (inner : List Put) (is : List TxItem) :
    listPuts (.child [] n :: inner.map (Put.under n)) is =
      setChild n (listPuts inner ((findChild n (putChild is n)).getD [])) (putChild is n) := by
  have hfind : findChild n (putChild is n) = some ((findChild n is).getD []) := by rw [findChild_putChild, if_pos rfl]
  show listPuts (inner.map (Put.under n)) (putChild is n) = _
  rw [listPuts_under n inner hfind, hfind]
  rfl

/-- The puts, and how the run ended, as `decode` returns them. -/
def outcome (r : List Put × Except DecodeError Bytes) (is : List TxItem) : Except DecodeError (List TxItem × Bytes) :=
  r.2.map fun rest => (listPuts r.1 is, rest)

theorem fieldEnd_eq_puts {f : List TxItem → Bytes → Except DecodeError (List TxItem × Bytes)}
    {next : Bytes → List Put × Except DecodeError Bytes} (h : ∀ is p, f is p = outcome (next p) is) (is : List TxItem)
    (p : Bytes) : fieldEnd (f is) p = outcome (fieldEndPuts next p) is := by
  cases p with
  | nil => rfl
  | cons c p =>
    rw [fieldEnd, fieldEndPuts]
    split
    · rfl
    · exact h is p

theorem decodeValue_eq_puts {f : List TxItem → Bytes → Except DecodeError (List TxItem × Bytes)}
    {next : Bytes → List Put × Except DecodeError Bytes} (h : ∀ is p, f is p = outcome (next p) is)
    (past : Option UInt8) (is : List TxItem) (n p : Bytes) :
    decodeValue f past is n p = outcome (decodeValuePuts next past n p) is := by
  rw [decodeValue, decodeValuePuts]
  cases peek past p with
  | none => rfl
  | some b =>
    simp only
    split
    · rw [h, outcome]
      cases hnext : next (p.drop 1) with
      | mk subcont r =>
        cases r with
        | error e => rfl
        | ok p' =>
          simp only [Except.map]
          rw [fieldEnd_eq_puts h, outcome, outcome, ← listPuts_child, ← List.cons_append]
          simp only [listPuts_append]
    · rw [fieldEnd_eq_puts h]
      rfl

/-- **`decode` is the sequence of its puts.** -/
theorem decodeLoop_eq_puts (past : Option UInt8) : ∀ (fuel : Nat) (is : List TxItem) (p : Bytes),
    decodeLoop past fuel is p = outcome (decodeLoopPuts past fuel p) is
  | 0, _, _ => rfl
  | _ + 1, _, [] => rfl
  | fuel + 1, is, c :: p => by
    rw [decodeLoop, decodeLoopPuts]
    by_cases hc : c = seqEnd
    · rw [if_pos hc, if_pos hc]
      rfl
    rw [if_neg hc, if_neg hc]
    cases scan escape valueDelim (c :: p) with
    | mk n r =>
      cases r with
      | nil => rfl
      | cons d q =>
        simp only
        by_cases hd : d ≠ valueDelim
        · rw [if_pos hd, if_pos hd]
          rfl
        · rw [if_neg hd, if_neg hd]
          exact decodeValue_eq_puts (decodeLoop_eq_puts past fuel) past is n q

theorem decode_eq_puts (past : Option UInt8) (is : List TxItem) (p : Bytes) :
    decode past is p = outcome (decodePuts past p) is := decodeLoop_eq_puts past _ is _

theorem fieldEndPuts_reads {next : Bytes → List Put × Except DecodeError Bytes} (h : ∀ p, Reads (next p).1) (p : Bytes) :
    Reads (fieldEndPuts next p).1 := by
  cases p with
  | nil => exact .nil
  | cons c p =>
    rw [fieldEndPuts]
    split
    · exact .nil
    · exact h p

theorem decodeLoopPuts_reads (past : Option UInt8) : ∀ (fuel : Nat) (p : Bytes), Reads (decodeLoopPuts past fuel p).1
  | 0, _ => .nil
  | _ + 1, [] => .nil
  | fuel + 1, c :: p => by
    have ih := decodeLoopPuts_reads past fuel
    rw [decodeLoopPuts]
    split
    · exact .nil
    split
    · exact .nil
    rename_i n d q _
    split
    · exact .nil
    rw [decodeValuePuts]
    cases peek past q with
    | none => exact .nil
    | some b =>
      simp only
      split
      · have hin := ih (q.drop 1)
        cases hnext : decodeLoopPuts past fuel (q.drop 1) with
        | mk subcont r =>
          rw [hnext] at hin
          cases r with
          | error e =>
            have := Reads.child (n := n) hin .nil
            rwa [List.append_nil] at this
          | ok q' => exact .child hin (fieldEndPuts_reads ih q')
      · exact .field (fieldEndPuts_reads ih _)

theorem Reads.follows {puts : List Put} (h : Reads puts) : ∀ is, Follows is (puts.map Put.event) (listPuts puts is) := by
  induction h with
  | nil => exact fun is => .refl is
  | @field f v rest _ ih =>
    intro is
    exact (follows_putField is f v).trans (ih (putField is f v))
  | @child n inner rest _ _ ihi ih =>
    intro is
    rw [← List.cons_append, listPuts_append, List.map_append, listPuts_child]
    refine Follows.trans ?_ (ih _)
    have hev : (inner.map (Put.under n)).map Put.event = (inner.map Put.event).map (ContainerEvent.under n) := by
      rw [List.map_map, List.map_map]
      exact List.map_congr_left fun a _ => Put.event_under n a
    rw [List.map_cons, hev, findChild_putChild, if_pos rfl]
    exact follows_modifyChild (ihi _)

theorem refines_runPuts : ∀ (puts : List Put), Refines (runPuts puts) (listPuts puts)
  | []        => fun _ hc => ⟨hc, rfl⟩
  | a :: puts => a.refines.comp (refines_runPuts puts)

/-! ## The operations -/

/-- An operation without a source. -/
inductive PutOp where
  /-- `put_field(name, value)` -/
  | field (name value : Bytes)
  /-- `put_field(const txField&)` -/
  | fieldCopy (name value : Bytes)
  | fieldQ (q : List Bytes) (value : Bytes)
  | child (name : Bytes)
  | childQ (q : List Bytes)
  | clear
  /-- `decode(this, p, end)`, returned or thrown -/
  | decode (past : Option UInt8) (p : Bytes)

/-- The insertions along a qname. -/
def qnameEvents (key : Bytes → ItemKey) : List Bytes → List ContainerEvent
  | []          => [.insert [] (key [])]
  | [n]         => [.insert [] (key n)]
  | n :: m :: q => .insert [] (.child n) :: (qnameEvents key (m :: q)).map (under n)

namespace PutOp

def run : PutOp → Contents → Contents
  | field n v, c       => c.putField n v
  | fieldCopy n v, c   => c.putField n v
  | fieldQ q v, c      => c.putFieldQ v q
  | child n, c         => c.putChild n
  | childQ q, c        => c.putChildQ q
  | clear, c           => c.clear
  | decode past p, c   => runPuts (decodePuts past p).1 c

def list : PutOp → List TxItem → List TxItem
  | field n v, is       => putField is n v
  | fieldCopy n v, is   => putField is n v
  | fieldQ q v, is      => putFieldQ v q is
  | child n, is         => putChild is n
  | childQ q, is        => putChildQ q is
  | clear, _            => []
  | decode past p, is   => listPuts (decodePuts past p).1 is

def events : PutOp → List ContainerEvent
  | field n _      => [.insert [] (.field n)]
  | fieldCopy n _  => [.insert [] (.field n)]
  | fieldQ q _     => qnameEvents .field q
  | child n        => [.insert [] (.child n)]
  | childQ q       => qnameEvents .child q
  | clear          => [.reset []]
  | decode past p  => (decodePuts past p).1.map Put.event

theorem refines : ∀ (op : PutOp), Refines op.run op.list
  | field n v     => refines_putField n v
  | fieldCopy n v => refines_putField n v
  | fieldQ q v    => refines_putFieldQ v q
  | child n       => refines_putChild n
  | childQ q      => refines_putChildQ q
  | clear         => refines_clear
  | decode past p => refines_runPuts (decodePuts past p).1

end PutOp

theorem follows_putFieldQ (v : Bytes) : ∀ (q : List Bytes) (is : List TxItem),
    Follows is (qnameEvents .field q) (putFieldQ v q is)
  | [], is => follows_putField is [] v
  | [n], is => follows_putField is n v
  | n :: m :: q, is => by
    rw [putFieldQ, modifyChild, qnameEvents, findChild_putChild, if_pos rfl]
    exact follows_modifyChild (follows_putFieldQ v (m :: q) _)

theorem follows_putChildQ : ∀ (q : List Bytes) (is : List TxItem), Follows is (qnameEvents .child q) (putChildQ q is)
  | [], is => follows_putChild is []
  | [n], is => follows_putChild is n
  | n :: m :: q, is => by
    rw [putChildQ, modifyChild, qnameEvents, findChild_putChild, if_pos rfl]
    exact follows_modifyChild (follows_putChildQ (m :: q) _)

theorem PutOp.follows : ∀ (op : PutOp) (is : List TxItem), Follows is op.events (op.list is)
  | field n v, is     => follows_putField is n v
  | fieldCopy n v, is => follows_putField is n v
  | fieldQ q v, is    => follows_putFieldQ v q is
  | child n, is       => follows_putChild is n
  | childQ q, is      => follows_putChildQ q is
  | clear, is         => follows_reset is
  | decode past _, is => (decodeLoopPuts_reads past _ _).follows is

/-- An operation that copies from a source container. -/
inductive TakeOp where
  /-- `put_child(const txContainer&)` -/
  | child
  | merge

namespace TakeOp

def run : TakeOp → Bytes → Contents → Contents → Contents
  | child, name, src, c => c.putChildCopy name src
  | merge, _, src, c    => c.merge src.items

def list : TakeOp → Bytes → List TxItem → List TxItem → List TxItem
  | child, name, src, is => putChildCopy is ⟨name, src⟩
  | merge, _, src, is    => Sam.merge is src

def events : TakeOp → Bytes → List TxItem → List ContainerEvent
  | child, name, src => .insert [] (.child name) :: (.reset [] :: insertions src).map (under name)
  | merge, _, src    => insertions src

theorem refines (op : TakeOp) (name : Bytes) {src : Contents} (h : src.Inv) :
    Refines (op.run name src) (op.list name src.erase) := by
  cases op with
  | child => exact refines_putChildCopy name h
  | merge => exact refines_merge h.items

theorem follows (op : TakeOp) (name : Bytes) {src : List TxItem} (h : Everywhere Distinct src) (is : List TxItem) :
    Follows is (op.events name src) (op.list name src is) := by
  cases op with
  | child =>
    rw [list, putChildCopy_eq]
    exact follows_modifyChild (follows_assign _ h)
  | merge => exact follows_merge src h is

end TakeOp

/-- `d.find_child(n)` assigned from `src`. -/
def Contents.assignChild (name n : Bytes) (src d : Contents) : Contents := d.withChild n (TxNode.assign name src)

/-- **The containers that can be built**, each with its history.  A source is a container of another object, at any path
`q`, or one of the same tree; and a child is assigned only from a container of its name. -/
inductive Built : TxNode → List ContainerEvent → Prop
  | new (name : Bytes) : Built (Contents.empty.node name) []
  | copy {name : Bytes} {c src : Contents} {es : List ContainerEvent} {q : List Bytes} : Built (c.node name) es →
      c.descend q = some src → Built (copyConstruct (nameAt name q) src) (insertions src.erase)
  | clone {name : Bytes} {c src : Contents} {es : List ContainerEvent} {q : List Bytes} : Built (c.node name) es →
      c.descend q = some src → Built (src.node (nameAt name q)).clone (insertions src.erase)
  | put {name : Bytes} {c d : Contents} {es : List ContainerEvent} (op : PutOp) {p : List Bytes} : Built (c.node name) es →
      c.descend p = some d → Built ((c.alter op.run p).node name) (es ++ op.events.map (below p))
  /- sources in another object -/
  | take {name oname : Bytes} {c d o src : Contents} {es es' : List ContainerEvent} (op : TakeOp) {p q : List Bytes} :
      Built (c.node name) es → c.descend p = some d → Built (o.node oname) es' → o.descend q = some src →
      Built ((c.alter (op.run (nameAt oname q) src) p).node name)
        (es ++ (op.events (nameAt oname q) src.erase).map (below p))
  | assign {name oname : Bytes} {c o src : Contents} {es es' : List ContainerEvent} {q : List Bytes} :
      Built (c.node name) es → Built (o.node oname) es' → o.descend q = some src →
      Built (c.assign (nameAt oname q) src) (es ++ .reset [] :: insertions src.erase)
  | assignChild {name oname n : Bytes} {c d e o src : Contents} {es es' : List ContainerEvent} {p q : List Bytes} :
      Built (c.node name) es → c.descend p = some d → d.findChild n = some e →
      Built (o.node oname) es' → o.descend q = some src → nameAt oname q = n →
      Built ((c.alter (Contents.assignChild n n src) p).node name)
        (es ++ ((.reset [] :: insertions src.erase).map (under n)).map (below p))
  /- sources in the same tree -/
  | putChildWithin {name : Bytes} {c c' : Contents} {es es' : List ContainerEvent} {p q : List Bytes} :
      Built (c.node name) es → c.putChildWithin name p q = some (c', es') → Built (c'.node name) (es ++ es')
  | mergeWithin {name : Bytes} {c c' d : Contents} {es es' : List ContainerEvent} {fuel : Nat} {p q : List Bytes} :
      Built (c.node name) es → c.descend p = some d → Contents.mergeWithin fuel p q 0 c = some (c', es') →
      Built (c'.node name) (es ++ es')
  | assignWithin {name n : Bytes} {c c' d : Contents} {es es' : List ContainerEvent} {p q : List Bytes} :
      Built (c.node name) es → c.descend (p ++ [n]) = some d → nameAt name q = n →
      c.assignWithin (p ++ [n]) q = some (c', es') → Built (c'.node name) (es ++ es')

/-! ## Every built container is represented -/

theorem Contents.node_inj {c c' : Contents} {n n' : Bytes} (h : c.node n = c'.node n') : n = n' ∧ c = c' := by
  cases c
  cases c'
  cases h
  exact ⟨rfl, rfl⟩

theorem refines_assignChild (n : Bytes) {src : Contents} (h : src.Inv) :
    Refines (Contents.assignChild n n src) (onChild n fun _ => src.erase) :=
  fun _ hc => hc.withChild fun _ _ => ⟨_, rfl, h.cloneItems.1, h.cloneItems.2⟩

/-- What is known of a built object, read at a container. -/
theorem sound_node {name : Bytes} {c : Contents} {es : List ContainerEvent}
    (h : ∃ (name' : Bytes) (c' : Contents), c.node name = c'.node name' ∧ c'.Inv ∧ Follows [] es c'.erase) :
    c.Inv ∧ Follows [] es c.erase := by
  obtain ⟨_, _, heq, hc, hf⟩ := h
  obtain ⟨rfl, rfl⟩ := Contents.node_inj heq
  exact ⟨hc, hf⟩

theorem Built.sound {o : TxNode} {es : List ContainerEvent} (h : Built o es) :
    ∃ (name : Bytes) (c : Contents), o = c.node name ∧ c.Inv ∧ Follows [] es c.erase := by
  induction h with
  | new name => exact ⟨name, _, rfl, Contents.empty_inv, .refl []⟩
  | @copy name c src es q _ hq ih =>
    obtain ⟨hc, -⟩ := sound_node ih
    have hs := (hc.descend q).2 src hq
    exact ⟨nameAt name q, _, rfl, hs.cloneItems.1, follows_cloneItems hs⟩
  | @clone name c src es q _ hq ih =>
    obtain ⟨hc, -⟩ := sound_node ih
    have hs := (hc.descend q).2 src hq
    exact ⟨nameAt name q, _, rfl, hs.cloneItems.1, follows_cloneItems hs⟩
  | @put name c d es op p _ hd ih =>
    obtain ⟨hc, hf⟩ := sound_node ih
    obtain ⟨hinv, hnext⟩ := hc.alter hd op.refines (op.follows d.erase)
    exact ⟨name, _, rfl, hinv, hf.trans hnext⟩
  | @take name oname c d o src es es' op p q _ hd _ hq ih ihs =>
    obtain ⟨hc, hf⟩ := sound_node ih
    have hs := ((sound_node ihs).1.descend q).2 src hq
    obtain ⟨hinv, hnext⟩ := hc.alter hd (op.refines (nameAt oname q) hs) (op.follows (nameAt oname q) hs.everywhere d.erase)
    exact ⟨name, _, rfl, hinv, hf.trans hnext⟩
  | @assign name oname c o src es es' q _ _ hq ih ihs =>
    obtain ⟨hc, hf⟩ := sound_node ih
    have hs := ((sound_node ihs).1.descend q).2 src hq
    refine ⟨nameAt oname q, _, rfl, hs.cloneItems.1, hf.trans ?_⟩
    rw [Contents.clear, hs.cloneItems.2]
    exact follows_assign c.erase hs.everywhere
  | @assignChild name oname n c d e o src es es' p q _ hd he _ hq _ ih ihs =>
    obtain ⟨hc, hf⟩ := sound_node ih
    have hs := ((sound_node ihs).1.descend q).2 src hq
    have hchild : findChild n d.erase = some e.erase := by
      rw [← (((hc.descend p).2 d hd).findChild n).1, he]
      rfl
    have hg : Follows d.erase ((.reset [] :: insertions src.erase).map (under n)) (onChild n (fun _ => src.erase) d.erase) := by
      rw [onChild, hchild]
      exact follows_setChild hchild (follows_assign e.erase hs.everywhere)
    obtain ⟨hinv, hnext⟩ := hc.alter hd (refines_assignChild n hs) hg
    exact ⟨name, _, rfl, hinv, hf.trans hnext⟩
  | @putChildWithin name c c' es es' p q _ hr ih =>
    obtain ⟨hc, hf⟩ := sound_node ih
    obtain ⟨hinv, hnext⟩ := putChildWithin_sound hc hr
    exact ⟨name, c', rfl, hinv, hf.trans hnext⟩
  | @mergeWithin name c c' d es es' fuel p q _ hd hr ih =>
    obtain ⟨hc, hf⟩ := sound_node ih
    have hm := mergeWithin_sound fuel hc hd hr
    exact ⟨name, c', rfl, hm.inv, hf.trans hm.follows⟩
  | @assignWithin name n c c' d es es' p q _ hd _ hr ih =>
    obtain ⟨hc, hf⟩ := sound_node ih
    obtain ⟨hinv, hnext⟩ := assignWithin_sound hc hd hr
    exact ⟨name, c', rfl, hinv, hf.trans hnext⟩

/-- **A child assigned from another container is still known to its parent exactly if it has the same name.** -/
theorem assignChild_inv_iff {src : Contents} (hs : src.Inv) {name n : Bytes} : ∀ {p : List Bytes} {c d e : Contents},
    c.Inv → c.descend p = some d → d.findChild n = some e →
    ((c.alter (Contents.assignChild name n src) p).Inv ↔ name = n)
  | [], c, d, e, hc, hd, he => by
    cases hd
    refine ⟨fun h => ?_, fun h => by rw [h]; exact (refines_assignChild n hs c hc).1⟩
    obtain ⟨i, m, hi, hx⟩ := Contents.findChild_eq_some he
    rw [Contents.alter, Contents.assignChild, Contents.withChild, hi] at h
    have hkey := (h.children n i).1 hi
    simp only [List.getElem?_modify, if_true, hx] at hkey
    exact Option.some.inj hkey
  | m :: p, c, d, e, hc, hd, he => by
    obtain ⟨b, hb, hd⟩ := Option.bind_eq_some_iff.1 hd
    have ih : (b.alter (Contents.assignChild name n src) p).Inv ↔ name = n :=
      assignChild_inv_iff hs ((hc.findChild m).2 b hb) hd he
    refine ⟨fun h => ?_, fun h => ?_⟩
    · obtain ⟨i, m', hi, hx⟩ := Contents.findChild_eq_some hb
      rw [Contents.alter, Contents.withChild, hi] at h
      have hat : (c.items.modify i (TxNode.run (Contents.alter (Contents.assignChild name n src) p)))[i]? =
          some ((b.alter (Contents.assignChild name n src) p).node m') := by
        simp only [List.getElem?_modify, if_true, hx]
        rfl
      exact ih.1 (h.items _ (List.mem_of_getElem? hat)).contents
    · rw [h]
      exact (refines_alter (refines_assignChild n hs) (m :: p) c hc).1

/-- **The representation invariant**: in every built container, at every depth, list and maps agree, names are distinct,
the counts add up and the list is in the order of first insertion.  What is kept out of `Built` are the assignment of a child
from a container of another name, which breaks the agreement, and the assignment and `put_child` from a source strictly
inside the container that is replaced, which has no result; every other assignment and `put_child` has one. -/
theorem built_representation {o : TxNode} {es : List ContainerEvent} (h : Built o es) :
    o.Inv ∧ ∃ (name : Bytes) (c : Contents), o = c.node name ∧
      (∀ (p : List Bytes) (d : Contents), c.descend p = some d →
        d.Inv ∧ Distinct d.erase ∧ d.countAny = d.countField + d.countChild ∧
        d.erase.map TxItem.key = firsts (logAt p es)) ∧
      (∀ (p q : List Bytes) (d e o' src : Contents) (n oname : Bytes) (es' : List ContainerEvent), c.descend p = some d →
        d.findChild n = some e → Built (o'.node oname) es' → o'.descend q = some src →
        (((c.alter (Contents.assignChild (nameAt oname q) n src) p).node name).Inv ↔ nameAt oname q = n)) ∧
      ∀ (p q : List Bytes) (d e : Contents), c.descend p = some d → c.descend q = some e →
        (c.assignWithin p q = none ↔ p <+: q ∧ p ≠ q) ∧
        (c.putChildWithin name p q = none ↔ p ++ [nameAt name q] <+: q ∧ p ++ [nameAt name q] ≠ q) := by
  obtain ⟨name, c, rfl, hc, hf⟩ := h.sound
  refine ⟨hc.node name, name, c, rfl, ?_, ?_, ?_⟩
  · intro p d hd
    have hinv := (hc.descend p).2 d hd
    refine ⟨hinv, hinv.distinct, hinv.count, ?_⟩
    have hkeys := hf p
    rw [keysAt_empty, keysAt, hc.descend_some hd] at hkeys
    exact hkeys.trans (ContainerEvent.foldl_orderStep p es [])
  · intro p q d e o' src n oname es' hd he ho hq
    have hs := ((sound_node ho.sound).1.descend q).2 src hq
    rw [← assignChild_inv_iff hs hc hd he]
    exact ⟨fun h => h.contents, fun h => h.node name⟩
  · intro p q d e hp hq
    exact ⟨assignWithin_eq_none_iff hc hp hq, putChildWithin_eq_none_iff hc hp hq⟩

/-- A container with a child `x`. -/
def sampleParent : Contents := Contents.empty.putChild (ascii "x")

theorem sampleParent_built : Built (sampleParent.node []) [.insert [] (.child (ascii "x"))] :=
  .put (.child (ascii "x")) (p := []) (.new []) rfl

theorem sampleParent_child : sampleParent.findChild (ascii "x") = some .empty := by
  rfl

theorem built_representation_sample :
    sampleParent.countAny = sampleParent.countField + sampleParent.countChild ∧
      sampleParent.erase.map TxItem.key = [.child (ascii "x")] := by
  obtain ⟨-, _, _, heq, h, -⟩ := built_representation sampleParent_built
  obtain ⟨-, rfl⟩ := Contents.node_inj heq
  obtain ⟨-, -, hcount, hkeys⟩ := h [] sampleParent rfl
  exact ⟨hcount, hkeys⟩

/-- `parent.put_child("x") = y`, with an empty container `y`. -/
def renamedChild : Contents := Contents.assignChild (ascii "y") (ascii "x") .empty sampleParent

/-- `parent.put_child("g").put_child("g")`. -/
def nestedParent : Contents := (Contents.empty.putChild (ascii "g")).alter (fun d => d.putChild (ascii "g")) [ascii "g"]

/-- The renamed child: the list has a child `y`, which the map knows as `x`.  And the child `g` of `g` put into the outermost
container, whose child `g` it replaces: it is gone when it is to be read. -/
theorem renamedChild_not_inv :
    (¬ (renamedChild.node []).Inv ∧ childNames renamedChild.erase = [ascii "y"] ∧
      renamedChild.findChild (ascii "x") ≠ none ∧ renamedChild.findChild (ascii "y") = none) ∧
    Built (nestedParent.node []) [.insert [] (.child (ascii "g")), .insert [ascii "g"] (.child (ascii "g"))] ∧
    nestedParent.putChildWithin [] [] [ascii "g", ascii "g"] = none := by
  obtain ⟨hc, -⟩ := sound_node sampleParent_built.sound
  refine ⟨⟨fun h => ?_, by decide, by decide, by decide⟩, ?_, by decide⟩
  · have hinv : (sampleParent.alter (Contents.assignChild (ascii "y") (ascii "x") .empty) []).Inv := h.contents
    exact absurd ((assignChild_inv_iff Contents.empty_inv hc rfl sampleParent_child).1 hinv) (by decide)
  · exact .put (.child (ascii "g")) (p := [ascii "g"]) (.put (.child (ascii "g")) (p := []) (.new []) rfl) rfl

end Sam
end Exio
