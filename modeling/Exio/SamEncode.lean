import Exio.SamBuffer
/-!
# SamEncode — writing a message

`encodeMsg` (`sam.cc`) writes the type, the tree and the trailer into a `SamBuffer`, then lets the buffer put the header
in front.  Types and names are written as they are; values go through `write_str`, whose fast path copies everything up
to the first special byte or NUL and whose slow path escapes the rest byte by byte.

`payloadOf m` is what is written, as a function of the message: the buffer-passing encoder appends exactly those bytes
(`encodeItems_appends`), and `encodeMsg` leaves `encoding m` in the buffer (`encodeMsg_encoding`).
-/
namespace Exio
namespace Sam

open DynamicSamBuffer
open Decimal (decimal)

/-- `strcspn(str, SPECIAL_CHARS)`: the C string ends at its first NUL. -/
def strcspn : Bytes → Nat
  | []     => 0
  | c :: s => if c = 0 || isSpecialChar c then 0 else strcspn s + 1

/-- The character by character loop of `write_str`. -/
def writeChars (sb : DynamicSamBuffer) : Bytes → Except EncodeError DynamicSamBuffer
  | []     => .ok sb
  | c :: s => do
    let sb ← if isSpecialChar c then sb.append [escape] else .ok sb
    let sb ← sb.append [c]
    writeChars sb s

def writeStr (sb : DynamicSamBuffer) (str : Bytes) : Except EncodeError DynamicSamBuffer :=
  let accept := strcspn str
  if accept = str.length then sb.append str
  else do
    let sb ← sb.append (str.take accept)
    writeChars sb (str.drop accept)

mutual
/-- One turn of the loop of `encode_contents`. -/
def encodeItem (sb : DynamicSamBuffer) : TxItem → Except EncodeError DynamicSamBuffer
  | .field n v => do
    let sb ← sb.append n
    let sb ← sb.append [valueDelim]
    let sb ← writeStr sb v
    sb.append [fieldDelim]
  | .container n is => do
    let sb ← sb.append n
    let sb ← sb.append [valueDelim]
    let sb ← sb.append [seqStart]
    let sb ← encodeItems sb is
    let sb ← sb.append [seqEnd]
    sb.append [fieldDelim]
/-- The loop of `encode_contents`. -/
def encodeItems (sb : DynamicSamBuffer) : List TxItem → Except EncodeError DynamicSamBuffer
  | []      => .ok sb
  | i :: is => do
    let sb ← encodeItem sb i
    encodeItems sb is
end

def encodeContents (sb : DynamicSamBuffer) (is : List TxItem) : Except EncodeError DynamicSamBuffer := do
  let sb ← sb.append [seqStart]
  let sb ← encodeItems sb is
  sb.append [seqEnd]

/-- `encodeMsg`: the number of bytes written, and the buffer. -/
def encodeMsg (m : TxMessage) (sb : DynamicSamBuffer) : Except EncodeError (Nat × DynamicSamBuffer) := do
  let sb ← sb.append [metaDelim]
  let sb ← sb.append m.type
  let sb ← sb.append [metaDelim]
  let sb ← encodeContents sb m.root
  let sb ← sb.append [msgEnd]
  let sb ← sb.append [msgDelim]
  let sb ← sb.encodeHeader
  .ok (sb.msgSize, sb)

/-! ## The bytes written -/

def escaped (v : Bytes) : Bytes := Scan.escapeWith escape isSpecialChar v

mutual
def TxItem.bytes : TxItem → Bytes
  | .field n v      => n ++ valueDelim :: (escaped v ++ [fieldDelim])
  | .container n is => n ++ valueDelim :: seqStart :: (itemsBytes is ++ [seqEnd, fieldDelim])
def itemsBytes : List TxItem → Bytes
  | []      => []
  | i :: is => i.bytes ++ itemsBytes is
end

/-- What stands behind the header's digits. -/
def payloadOf (m : TxMessage) : Bytes :=
  metaDelim :: (m.type ++ metaDelim :: seqStart :: (itemsBytes m.root ++ [seqEnd, msgEnd, msgDelim]))

/-- **The encoding of a message.** -/
def encoding (m : TxMessage) : Bytes := frame (frameLen (payloadOf m).length) (payloadOf m)

/-! ## The buffer-passing writers append those bytes -/

theorem strcspn_le : ∀ (s : Bytes), strcspn s ≤ s.length
  | []     => Nat.le_refl 0
  | c :: s => by
    have := strcspn_le s
    rw [strcspn, List.length_cons]
    split <;> omega

/-- The fast path's bytes need no escape. -/
theorem escaped_take_strcspn : ∀ (s : Bytes), escaped (s.take (strcspn s)) = s.take (strcspn s)
  | []     => rfl
  | c :: s => by
    rw [strcspn]
    split
    · rfl
    · rename_i h
      simp only [Bool.or_eq_true, not_or, Bool.not_eq_true] at h
      rw [List.take_succ_cons, escaped, Scan.escapeWith_cons, h.2, ← escaped, escaped_take_strcspn s]
      rfl

theorem writeChars_appends : ∀ (s : Bytes) (sb : DynamicSamBuffer), sb.Inv → Appends sb (writeChars sb s) (escaped s)
  | [], sb, h => appends_nil h
  | c :: s, sb, h => by
    rw [escaped, Scan.escapeWith_cons, writeChars]
    cases hc : isSpecialChar c with
    | true =>
      show Appends sb _ ([escape] ++ ([c] ++ escaped s))
      exact (append_appends h [escape]).bind
        (fun sb' h' => (append_appends h' [c]).bind (fun sb'' h'' => writeChars_appends s sb'' h''))
    | false =>
      show Appends sb _ ([] ++ ([c] ++ escaped s))
      exact (appends_nil h).bind
        (fun sb' h' => (append_appends h' [c]).bind (fun sb'' h'' => writeChars_appends s sb'' h''))

/-- **`write_str` writes the escaped value on either path.** -/
theorem writeStr_appends {sb : DynamicSamBuffer} (h : sb.Inv) (v : Bytes) : Appends sb (writeStr sb v) (escaped v) := by
  have hfast := escaped_take_strcspn v
  rw [writeStr]
  split
  · rename_i hlen
    rw [hlen, List.take_length] at hfast
    rw [hfast]
    exact append_appends h v
  · have hv : escaped v = v.take (strcspn v) ++ escaped (v.drop (strcspn v)) := by
      rw [← hfast, escaped, escaped, escaped, ← Scan.escapeWith_append, List.take_append_drop]
    rw [hv]
    exact (append_appends h _).bind (fun sb' h' => writeChars_appends _ sb' h')

theorem encodeItems_appends : ∀ (is : List TxItem) (sb : DynamicSamBuffer), sb.Inv →
    Appends sb (encodeItems sb is) (itemsBytes is)
  | [], sb, h => by
    rw [encodeItems, itemsBytes]
    exact appends_nil h
  | .field n v :: is, sb, h => by
    rw [encodeItems, itemsBytes, encodeItem, TxItem.bytes]
    refine Appends.bind ?_ (fun sb' h' => encodeItems_appends is sb' h')
    exact (append_appends h n).bind fun _ h => (append_appends h [valueDelim]).bind fun _ h =>
      (writeStr_appends h v).bind fun _ h => append_appends h [fieldDelim]
  | .container n cs :: is, sb, h => by
    rw [encodeItems, itemsBytes, encodeItem, TxItem.bytes]
    refine Appends.bind ?_ (fun sb' h' => encodeItems_appends is sb' h')
    exact (append_appends h n).bind fun _ h => (append_appends h [valueDelim]).bind fun _ h =>
      (append_appends h [seqStart]).bind fun _ h => (encodeItems_appends cs _ h).bind fun _ h =>
        (append_appends h [seqEnd]).bind fun _ h => append_appends h [fieldDelim]

theorem encodeContents_appends {sb : DynamicSamBuffer} (h : sb.Inv) (is : List TxItem) :
    Appends sb (encodeContents sb is) (seqStart :: (itemsBytes is ++ [seqEnd])) :=
  (append_appends h [seqStart]).bind fun _ h => (encodeItems_appends is _ h).bind fun _ h => append_appends h [seqEnd]

/-- `encodeMsg` up to the header. -/
def encodeBody (m : TxMessage) (sb : DynamicSamBuffer) : Except EncodeError DynamicSamBuffer := do
  let sb ← sb.append [metaDelim]
  let sb ← sb.append m.type
  let sb ← sb.append [metaDelim]
  let sb ← encodeContents sb m.root
  let sb ← sb.append [msgEnd]
  sb.append [msgDelim]

theorem encodeMsg_eq (m : TxMessage) (sb : DynamicSamBuffer) :
    encodeMsg m sb = (encodeBody m sb >>= fun sb => sb.encodeHeader >>= fun sb => .ok (sb.msgSize, sb)) := by
  simp only [encodeMsg, encodeBody, bind_assoc]

theorem encodeBody_appends {sb : DynamicSamBuffer} (h : sb.Inv) (m : TxMessage) :
    Appends sb (encodeBody m sb) (payloadOf m) := by
  have := (append_appends h [metaDelim]).bind fun _ h => (append_appends h m.type).bind fun _ h =>
    (append_appends h [metaDelim]).bind fun _ h => (encodeContents_appends h m.root).bind fun _ h =>
      (append_appends h [msgEnd]).bind fun _ h => append_appends h [msgDelim]
  simpa [encodeBody, payloadOf] using this

/-- **What `encodeMsg` leaves in a fresh buffer, whenever it returns**: the payload behind a header that announces the
length of the two. -/
theorem encodeMsg_payload {m : TxMessage} {reserve n : Nat} {sb : DynamicSamBuffer} (hr : reserve ≤ vectorMaxSize)
    (h : encodeMsg m (new reserve) = .ok (n, sb)) :
    n = 9 + (decimal n).length + (payloadOf m).length ∧ sb.payload = frame n (payloadOf m) ∧
      ((payloadOf m).length + 19 < 2 ^ 32 → n = frameLen (payloadOf m).length) := by
  have hb := encodeBody_appends (new_inv hr) m
  rw [encodeMsg_eq] at h
  obtain ⟨sb₁, hbody, h⟩ := bind_eq_ok.1 h
  obtain ⟨sb₂, hhead, h⟩ := bind_eq_ok.1 h
  obtain ⟨hi, hs, -, hp⟩ := hb.1 sb₁ hbody
  rw [new_payload, List.nil_append] at hp
  obtain ⟨n', hn', hpay, hi₂, hsmall⟩ := encodeHeader_payload hi (hs.trans (new_msgStart reserve)) hhead
  simp only [Except.ok.injEq, Prod.mk.injEq] at h
  obtain ⟨hn, rfl⟩ := h
  rw [hp] at hn' hpay hsmall
  have hlen : n = n' := by
    rw [← hn, msgSize_eq hi₂, ← length_payload hi₂, hpay, length_frame]
    omega
  rw [hlen]
  exact ⟨hn', hpay, hsmall⟩

/-- **`encodeMsg` returns for every message below `2 ^ 32` bytes**, and leaves the encoding. -/
theorem encodeMsg_encoding (m : TxMessage) {reserve : Nat} (hr : reserve ≤ vectorMaxSize)
    (hm : (payloadOf m).length + 19 < 2 ^ 32) :
    ∃ n sb, encodeMsg m (new reserve) = .ok (n, sb) ∧ sb.payload = encoding m ∧ n = (encoding m).length := by
  have hb := encodeBody_appends (new_inv hr) m
  obtain ⟨sb₁, hbody⟩ := hb.2 (by simp only [new, reserveForSamHeader, vectorMaxSize]; omega)
  obtain ⟨hi, hs, -, hp⟩ := hb.1 sb₁ hbody
  rw [new_payload, List.nil_append] at hp
  obtain ⟨sb₂, hhead⟩ := encodeHeader_ok hi (hs.trans (new_msgStart reserve)) (by rw [hp]; exact hm)
  have he : encodeMsg m (new reserve) = .ok (sb₂.msgSize, sb₂) := by
    rw [encodeMsg_eq]
    exact bind_eq_ok.2 ⟨sb₁, hbody, bind_eq_ok.2 ⟨sb₂, hhead, rfl⟩⟩
  obtain ⟨hn, hpay, hsmall⟩ := encodeMsg_payload hr he
  rw [hsmall hm] at hpay hn
  refine ⟨_, _, he, hpay, ?_⟩
  rw [hsmall hm, encoding, length_frame]
  exact hn

end Sam
end Exio
