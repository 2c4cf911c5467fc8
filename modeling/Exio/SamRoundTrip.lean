import Exio.SamMerge
import Exio.SamEncode
import Exio.SamDecode
/-!
# SamRoundTrip — what is written is read back

An encoded tree is a text of `Items` (`items_itemsBytes`), as long as the names are free of the bytes the reader gives a
meaning to; the values need no condition, since `write_str` escapes them.  With the header's digits read back
(`Decimal.value_decimal`) the decoder returns the message that was encoded, whatever follows it in the buffer.
-/
namespace Exio
namespace Sam

open DynamicSamBuffer
open Scan (Token)

/-- A name the reader takes as it is written. -/
def PlainName (n : Bytes) : Prop := valueDelim ∉ n ∧ escape ∉ n ∧ n.head? ≠ some seqEnd

instance : DecidablePred PlainName :=
  fun n => inferInstanceAs (Decidable (valueDelim ∉ n ∧ escape ∉ n ∧ n.head? ≠ some seqEnd))

/-- One container of a message that survives the wire. -/
def Carried (is : List TxItem) : Prop := Distinct is ∧ ∀ i ∈ is, PlainName i.name

instance : DecidablePred Carried :=
  fun is => inferInstanceAs (Decidable (Distinct is ∧ ∀ i ∈ is, PlainName i.name))

theorem token_escaped {d : UInt8} (hd : isSpecialChar d = true) (v : Bytes) : Token escape d (escaped v) v :=
  Scan.token_escapeWith (by decide) hd v

/-- **An encoded list of items is a text of those items**, behind the items `is` that are already there. -/
theorem items_itemsBytes : ∀ (js is : List TxItem), Distinct (is ++ js) → (∀ i ∈ js, PlainName i.name) →
    AllInside Carried js → Items is (itemsBytes js) (is ++ js)
  | [], is, _, _, _ => by
    rw [itemsBytes, List.append_nil]
    exact .nil
  | .field n v :: js, is, hd, hn, hi => by
    have hname : PlainName n := hn (.field n v) (by simp)
    have ih := items_itemsBytes js (is ++ [.field n v]) (by simpa using hd) (fun i hm => hn i (by simp [hm])) hi.2
    rw [List.append_assoc, List.singleton_append, ← putField_of_not_mem (distinct_field hd) v] at ih
    rw [itemsBytes, TxItem.bytes]
    have := Items.field (Scan.token_plain n hname.1 hname.2.1) hname.2.2 (token_escaped (d := fieldDelim) (by decide) v)
      (Scan.head?_escapeWith (by decide) (by decide) v) ih
    simpa using this
  | .container n cs :: js, is, hd, hn, hi => by
    have hname : PlainName n := hn (.container n cs) (by simp)
    have hnew := distinct_child hd
    have hput : putChild is n = is ++ [.container n []] := by rw [putChild, (findChild_eq_none_iff n is).2 hnew]
    have hget : (findChild n (putChild is n)).getD [] = [] := by
      rw [hput, findChild_append_of_not_mem n is _ hnew]; simp [findChild]
    have hset : setChild n cs (putChild is n) = is ++ [.container n cs] := by
      rw [hput, setChild_append_of_not_mem n _ is _ hnew]; simp [setChild]
    obtain ⟨⟨hcd, hcn⟩, hci⟩ := hi.1
    have ihc := items_itemsBytes cs [] hcd hcn hci
    have ih := items_itemsBytes js (is ++ [.container n cs]) (by simpa using hd) (fun i hm => hn i (by simp [hm])) hi.2
    rw [List.append_assoc, List.singleton_append, ← hset] at ih
    rw [List.nil_append, ← hget] at ihc
    rw [itemsBytes, TxItem.bytes]
    have := Items.child (Scan.token_plain n hname.1 hname.2.1) hname.2.2 ihc ih
    simpa using this

/-- The decoder's run over an encoded root container and the trailer. -/
theorem decode_contents {is : List TxItem} (h : Everywhere Carried is) (past : Option UInt8) (tl : Bytes) :
    decode past [] (seqStart :: (itemsBytes is ++ seqEnd :: tl)) = .ok (is, tl) := by
  have hi := items_itemsBytes is [] h.1.1 h.1.2 h.2
  refine decodeLoop_complete hi past _ (seqEnd :: tl) ?_ (.inr ⟨tl, rfl⟩)
  simp only [List.length_append, List.length_cons]
  omega

theorem frame_eq_header (n : Nat) (P : Bytes) : frame n (metaDelim :: P) = header (versionFor n) (Decimal.decimal n) ++ P := by
  simp [frame, headFor, header]

theorem versionFor_supported (n : Nat) : versionFor n = sam0100 ∨ versionFor n = sam0101 := by
  rw [versionFor]
  split
  · exact .inl rfl
  · exact .inr rfl

/-- **A frame that announces its own length is read back**, whatever follows it. -/
theorem decodeMsg_frame {w : Nat} (hw : 32 ≤ w) {m : TxMessage} {n : Nat} (ht : metaDelim ∉ m.type) (he : escape ∉ m.type)
    (hr : Everywhere Carried m.root) (hn : (frame n (payloadOf m)).length = n) (hmax : n ≤ maxMsglen)
    (past : Option UInt8) (old : TxMessage) (s : Bytes) :
    decodeMsg w past old (frame n (payloadOf m) ++ s) = .ok (n, m) := by
  have hbody := decodeBody_eq (peek past s) (Scan.token_plain m.type ht he)
    (seqStart :: (itemsBytes m.root ++ [seqEnd, msgEnd, msgDelim]))
  rw [decode_contents hr] at hbody
  have htake : (frame n (payloadOf m) ++ s).take n = frame n (payloadOf m) := by
    rw [List.take_append_of_le_length (by omega), List.take_of_length_le (by omega)]
  have hdrop : (frame n (payloadOf m) ++ s).drop n = s := by
    rw [List.drop_append_of_le_length (by omega), List.drop_of_length_le (by omega), List.nil_append]
  have hval : Decimal.value (Decimal.decimal n) = n := Decimal.value_decimal n
  have hlt : ¬ (frame n (payloadOf m) ++ s).length < n := by rw [List.length_append]; omega
  rw [payloadOf, frame_eq_header] at htake hdrop hlt ⊢
  rw [List.append_assoc, decodeMsg_header hw past old _ (length_versionFor n) (Decimal.isDigit_of_mem_decimal n)
    (by rw [hval]; exact hmax), hval, ← List.append_assoc, if_neg hlt, if_pos (versionFor_supported n), htake, hdrop,
    ← length_header (length_versionFor n), List.drop_left, hbody]

/-- The frame an accepted message is sent in. -/
theorem encodeMsg_frame {m : TxMessage} (hmax : (encoding m).length ≤ maxMsglen) {reserve : Nat}
    (hres : reserve ≤ vectorMaxSize) :
    ∃ n sb, encodeMsg m (new reserve) = .ok (n, sb) ∧ sb.payload = encoding m ∧ encoding m = frame n (payloadOf m) ∧
      (frame n (payloadOf m)).length = n ∧ n ≤ maxMsglen := by
  have hsmall : (payloadOf m).length + 19 < 2 ^ 32 := by
    rw [encoding, length_frame] at hmax
    simp only [maxMsglen] at hmax
    omega
  obtain ⟨n, sb, henc, hpay, hlen⟩ := encodeMsg_encoding m hres hsmall
  obtain ⟨-, -, hfl⟩ := encodeMsg_payload hres henc
  have hframe : encoding m = frame n (payloadOf m) := by rw [encoding, ← hfl hsmall]
  exact ⟨n, sb, henc, hpay, hframe, by rw [← hframe, hlen], by rw [hlen]; exact hmax⟩

/-- **SAM round trip**: a message whose type and names are plain is decoded from its encoding, with the length of the
encoding and nothing of the bytes behind it. -/
theorem decodeMsg_encodeMsg {w : Nat} (hw : 32 ≤ w) {m : TxMessage} (ht : metaDelim ∉ m.type) (he : escape ∉ m.type)
    (hr : Everywhere Carried m.root) (hmax : (encoding m).length ≤ maxMsglen) {reserve : Nat}
    (hres : reserve ≤ vectorMaxSize) :
    ∃ n sb, encodeMsg m (new reserve) = .ok (n, sb) ∧ sb.payload = encoding m ∧
      ∀ (past : UInt8) (old : TxMessage) (s : Bytes),
        decodeMsg w (some past) old (sb.payload ++ s) = .ok (sb.payload.length, m) := by
  obtain ⟨n, sb, henc, hpay, hframe, hself, hn⟩ := encodeMsg_frame hmax hres
  refine ⟨n, sb, henc, hpay, fun past old s => ?_⟩
  rw [hpay, hframe, decodeMsg_frame hw ht he hr hself hn, hself]

/-- A request with a field and a child of one name, and values that hold delimiters, a newline and a NUL. -/
def sampleMessage : TxMessage :=
  ⟨ascii "request", [.field (ascii "head") [0, 91, 10], .container (ascii "head") [.field (ascii "command") (ascii "a,b")],
    .container (ascii "body") []]⟩

theorem decodeMsg_encodeMsg_sample :
    ∃ n sb, encodeMsg sampleMessage (new 512) = .ok (n, sb) ∧ sb.payload = encoding sampleMessage ∧
      ∀ (past : UInt8) (old : TxMessage) (s : Bytes),
        decodeMsg 64 (some past) old (sb.payload ++ s) = .ok (sb.payload.length, sampleMessage) :=
  decodeMsg_encodeMsg (by decide) (by decide) (by decide) (by decide) (by decide) (by decide)

/-! ## Trees built under plain names -/

def ItemKey.name : ItemKey → Bytes
  | .field n | .child n => n

theorem carried_iff (is : List TxItem) :
    Carried is ↔ (is.map TxItem.key).Nodup ∧ ∀ k ∈ is.map TxItem.key, PlainName k.name := by
  have hname : ∀ i : TxItem, i.name = i.key.name := by
    intro i
    cases i <;> rfl
  rw [Carried, distinct_iff, List.forall_mem_map]
  simp only [hname]

/-- A container stays one that survives the wire when a plain name is put into it. -/
theorem Carried.put {is is' : List TxItem} (h : Carried is) {k : ItemKey} (hn : PlainName k.name)
    (hk : is'.map TxItem.key = OrderedUnion.pushNew (is.map TxItem.key) k) : Carried is' := by
  obtain ⟨hnodup, hplain⟩ := (carried_iff is).1 h
  rw [carried_iff, hk]
  refine ⟨OrderedUnion.nodup_pushNew hnodup k, fun j hj => ?_⟩
  rw [OrderedUnion.pushNew] at hj
  split at hj
  · exact hplain j hj
  · rcases List.mem_append.1 hj with hj | hj
    · exact hplain j hj
    · rw [List.mem_singleton.1 hj]
      exact hn

section

variable {P : List TxItem → Prop}

theorem AllInside.append : ∀ {is js : List TxItem}, AllInside P is → AllInside P js → AllInside P (is ++ js)
  | [], _, _, hj     => hj
  | _ :: _, _, h, hj => ⟨h.1, h.2.append hj⟩

theorem AllInside.setField (f v : Bytes) : ∀ {is : List TxItem}, AllInside P is → AllInside P (setField f v is)
  | [], _ => trivial
  | .field n w :: is, h => by
    rw [Sam.setField]
    split
    · exact h
    · exact ⟨trivial, AllInside.setField f v h.2⟩
  | .container n cs :: is, h => ⟨h.1, AllInside.setField f v h.2⟩

theorem AllInside.setChild (c : Bytes) {cs : List TxItem} (hcs : Everywhere P cs) : ∀ {is : List TxItem},
    AllInside P is → AllInside P (setChild c cs is)
  | [], _ => trivial
  | .field n v :: is, h => ⟨trivial, AllInside.setChild c hcs h.2⟩
  | .container n ds :: is, h => by
    rw [Sam.setChild]
    split
    · exact ⟨hcs, h.2⟩
    · exact ⟨h.1, AllInside.setChild c hcs h.2⟩

end

theorem everywhere_carried_nil : Everywhere Carried [] := by decide

/-- **A field of a plain name can be put anywhere.** -/
theorem Everywhere.putField {is : List TxItem} (h : Everywhere Carried is) {f : Bytes} (hf : PlainName f) (v : Bytes) :
    Everywhere Carried (putField is f v) := by
  refine ⟨h.1.put (k := .field f) hf (map_key_putField is f v), ?_⟩
  rw [Sam.putField]
  split
  · exact h.2.setField f v
  · exact h.2.append ⟨trivial, trivial⟩

/-- **A child of a plain name can be changed in any such way.** -/
theorem Everywhere.modifyChild {is : List TxItem} (h : Everywhere Carried is) {c : Bytes} (hc : PlainName c)
    {g : List TxItem → List TxItem} (hg : ∀ cs, Everywhere Carried cs → Everywhere Carried (g cs)) :
    Everywhere Carried (modifyChild is c g) := by
  have hput : AllInside Carried (putChild is c) := by
    rw [putChild]
    split
    · exact h.2
    · exact h.2.append ⟨everywhere_carried_nil, trivial⟩
  have hchild : Everywhere Carried ((findChild c (putChild is c)).getD []) := by
    rw [findChild_putChild, if_pos rfl, Option.getD_some]
    cases hfind : findChild c is with
    | none => exact everywhere_carried_nil
    | some cs => exact h.child hfind
  refine ⟨h.1.put (k := .child c) hc ?_, hput.setChild c (hg _ hchild)⟩
  rw [Sam.modifyChild, map_key_setChild, map_key_putChild]

/-- A name with a number behind it. -/
theorem plainName_numbered {p : Bytes} (hp : PlainName p) (hne : p ≠ []) (n : Nat) : PlainName (p ++ Decimal.decimal n) := by
  have hdigit : ∀ c, Decimal.isDigit c = false → c ∉ Decimal.decimal n := by
    intro c hc hmem
    rw [Decimal.isDigit_of_mem_decimal n c hmem] at hc
    cases hc
  refine ⟨?_, ?_, ?_⟩
  · rw [List.mem_append, not_or]
    exact ⟨hp.1, hdigit _ (by decide)⟩
  · rw [List.mem_append, not_or]
    exact ⟨hp.2.1, hdigit _ (by decide)⟩
  · rw [List.head?_append_of_ne_nil p hne]
    exact hp.2.2

end Sam
end Exio
