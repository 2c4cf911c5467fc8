import Exio.SamEncode
/-!
# SamSize — the size of an encoding, computed without writing it

`calc_encoded_size` (`sam.cc`) walks a message as `encodeMsg` does and counts; where the header's length field goes it
counts the five digits of the old header.  `check_enc_size` compares the count with the longest message such a header can
announce.
-/
namespace Exio
namespace Sam

open DynamicSamBuffer
open Decimal (decimal)

def writeStrCalc (str : Bytes) (n : Nat) : Nat :=
  let accept := strcspn str
  if accept = str.length then n + str.length
  else (str.drop accept).foldl (fun n c => (if isSpecialChar c then n + 1 else n) + 1) (n + accept)

mutual
/-- One turn of the loop of `encode_contents_calc`. -/
def encodeItemCalc (n : Nat) : TxItem → Nat
  | .field f v      => writeStrCalc v (n + f.length + 1) + 1
  | .container f is => encodeItemsCalc (n + f.length + 1 + 1) is + 1 + 1
/-- The loop of `encode_contents_calc`. -/
def encodeItemsCalc (n : Nat) : List TxItem → Nat
  | []      => n
  | i :: is => encodeItemsCalc (encodeItemCalc n i) is
end

def encodeContentsCalc (is : List TxItem) (n : Nat) : Nat := encodeItemsCalc (n + 1) is + 1

def calcEncodedSize (m : TxMessage) : Nat :=
  encodeContentsCalc m.root (1 + 7 + 1 + 5 + 1 + m.type.length + 1) + 1 + 1

def checkEncSize (m : TxMessage) (margin : Nat) : Bool := calcEncodedSize m + margin ≤ maxMsgLen

/-! ## The count is the number of bytes written -/

theorem foldl_escaped_length : ∀ (s : Bytes) (n : Nat),
    s.foldl (fun n c => (if isSpecialChar c then n + 1 else n) + 1) n = n + (escaped s).length
  | [], _ => rfl
  | c :: s, n => by
    rw [List.foldl_cons, foldl_escaped_length s, escaped, escaped, Scan.escapeWith_cons]
    by_cases hc : isSpecialChar c
    · simp only [hc, if_true, List.length_append, List.length_cons, List.length_nil]
      omega
    · simp only [hc, Bool.false_eq_true, if_false, List.length_append, List.length_cons, List.length_nil]
      omega

theorem writeStrCalc_eq (v : Bytes) (n : Nat) : writeStrCalc v n = n + (escaped v).length := by
  have hsplit : escaped v = v.take (strcspn v) ++ escaped (v.drop (strcspn v)) := by
    rw [← escaped_take_strcspn v, escaped, escaped, escaped, ← Scan.escapeWith_append, List.take_append_drop]
  unfold writeStrCalc
  simp only
  split
  · rename_i h
    rw [hsplit, h, List.take_length, List.drop_length, escaped, Scan.escapeWith, List.flatMap_nil, List.append_nil]
  · rw [foldl_escaped_length, hsplit, List.length_append, List.length_take, Nat.min_eq_left (strcspn_le v)]
    omega

theorem encodeItemsCalc_eq : ∀ (is : List TxItem) (n : Nat), encodeItemsCalc n is = n + (itemsBytes is).length
  | [], _ => rfl
  | .field f v :: is, n => by
    rw [encodeItemsCalc, encodeItemsCalc_eq is, encodeItemCalc, writeStrCalc_eq, itemsBytes, TxItem.bytes]
    simp only [List.length_append, List.length_cons, List.length_nil]
    omega
  | .container f cs :: is, n => by
    rw [encodeItemsCalc, encodeItemsCalc_eq is, encodeItemCalc, encodeItemsCalc_eq cs, itemsBytes, TxItem.bytes]
    simp only [List.length_append, List.length_cons, List.length_nil]
    omega

/-- **The calculator counts the payload**, and fourteen bytes for what stands before it. -/
theorem calcEncodedSize_eq (m : TxMessage) : calcEncodedSize m = 14 + (payloadOf m).length := by
  rw [calcEncodedSize, encodeContentsCalc, encodeItemsCalc_eq, payloadOf]
  simp only [List.length_append, List.length_cons, List.length_nil]
  omega

theorem length_decimal_le_five {n : Nat} : (decimal n).length ≤ 5 ↔ n ≤ maxMsgLen := by
  rw [Decimal.length_decimal_le_iff (by decide), maxMsgLen]
  omega

/-- Where five digits are enough for the length with them, no more are written: no payload gives a length of 100000. -/
theorem frameLen_le {p : Nat} (h : p + 14 ≤ maxMsgLen) : frameLen p ≤ p + 14 := by
  have hfive := length_decimal_le_five (n := p + 9)
  have hfull := length_decimal_le_five (n := p + 9 + (decimal (p + 9)).length)
  simp only [maxMsgLen] at h hfive hfull
  unfold frameLen
  simp only
  split <;> omega

/-- A message that passes the check is written, within the limit. -/
theorem encodeMsg_le_of_checkEncSize {m : TxMessage} (h : checkEncSize m 0 = true) {reserve : Nat}
    (hr : reserve ≤ vectorMaxSize) : ∃ n sb, encodeMsg m (new reserve) = .ok (n, sb) ∧ n ≤ maxMsgLen := by
  rw [checkEncSize, decide_eq_true_iff, calcEncodedSize_eq] at h
  have hsmall : (payloadOf m).length + 19 < 2 ^ 32 := by
    simp only [maxMsgLen] at h
    omega
  obtain ⟨n, sb, henc, -, -⟩ := encodeMsg_encoding m hr hsmall
  obtain ⟨-, -, hframe⟩ := encodeMsg_payload hr henc
  have hle := frameLen_le (p := (payloadOf m).length) (by omega)
  rw [← hframe hsmall] at hle
  exact ⟨n, sb, henc, by omega⟩

/-- **The calculator tracks the encoder.**  It is off by the digits of the length, of which it counts five; so with no
margin the check is exact, and with a margin it leaves that much room. -/
theorem calcEncodedSize_encodeMsg (m : TxMessage) {reserve : Nat} (hr : reserve ≤ vectorMaxSize)
    (hm : (encoding m).length < 2 ^ 32) :
    ∃ e sb, encodeMsg m (new reserve) = .ok (e, sb) ∧ sb.payload = encoding m ∧ e = (encoding m).length ∧
      calcEncodedSize m = e - (decimal e).length + 5 ∧ (checkEncSize m 0 = true ↔ e ≤ maxMsgLen) ∧
      ∀ margin, checkEncSize m margin = true → e + margin ≤ maxMsgLen := by
  have hsmall : (payloadOf m).length + 19 < 2 ^ 32 := by
    have hdigits : 10 ≤ (decimal (frameLen (payloadOf m).length)).length ∨ frameLen (payloadOf m).length < 10 ^ 9 := by
      by_contra hc
      rw [not_or, Nat.not_le, Nat.not_lt] at hc
      have hnine : frameLen (payloadOf m).length < 10 ^ 9 :=
        (Decimal.length_decimal_le_iff (by decide)).1 (Nat.le_of_lt_succ hc.1)
      omega
    have hfl : 9 + (payloadOf m).length ≤ frameLen (payloadOf m).length := by
      unfold frameLen
      simp only
      split <;> omega
    rw [encoding, length_frame] at hm
    omega
  obtain ⟨e, sb, henc, hpay, he⟩ := encodeMsg_encoding m hr hsmall
  obtain ⟨hsize, -, hframe⟩ := encodeMsg_payload hr henc
  have hfour : (decimal e).length ≤ 4 ↔ e < 10 ^ 4 := Decimal.length_decimal_le_iff (by decide)
  have hfive := length_decimal_le_five (n := e)
  have hle := frameLen_le (p := (payloadOf m).length)
  rw [← hframe hsmall] at hle
  simp only [maxMsgLen] at hfive hle
  refine ⟨e, sb, henc, hpay, he, ?_, ?_, ?_⟩
  · rw [calcEncodedSize_eq]
    omega
  · rw [checkEncSize, decide_eq_true_iff, calcEncodedSize_eq, maxMsgLen]
    omega
  · intro margin hcheck
    rw [checkEncSize, decide_eq_true_iff, calcEncodedSize_eq, maxMsgLen] at hcheck
    rw [maxMsgLen]
    omega

theorem calcEncodedSize_encodeMsg_sample :
    ∃ e sb, encodeMsg ⟨ascii "t", [.field (ascii "a") (ascii "x,y")]⟩ (new 0) = .ok (e, sb) ∧
      sb.payload = encoding ⟨ascii "t", [.field (ascii "a") (ascii "x,y")]⟩ ∧
      e = (encoding ⟨ascii "t", [.field (ascii "a") (ascii "x,y")]⟩).length ∧
      calcEncodedSize ⟨ascii "t", [.field (ascii "a") (ascii "x,y")]⟩ = e - (decimal e).length + 5 ∧
      (checkEncSize ⟨ascii "t", [.field (ascii "a") (ascii "x,y")]⟩ 0 = true ↔ e ≤ maxMsgLen) ∧
      ∀ margin, checkEncSize ⟨ascii "t", [.field (ascii "a") (ascii "x,y")]⟩ margin = true → e + margin ≤ maxMsgLen :=
  calcEncodedSize_encodeMsg _ (by decide) (by decide)

end Sam
end Exio
