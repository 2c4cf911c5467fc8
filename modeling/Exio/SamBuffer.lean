import Exio.Word
import Exio.Memory
import Exio.Sam
/-!
# SamBuffer — the encoding buffer and its self-referential header

`DynamicSamBuffer` (`SamBuffer.cc`) keeps 100 bytes free in front of the payload, appends the payload, and writes the
header backwards into the free bytes once the payload is complete.  The header announces the length of the whole
message, its own digits included.

`payload` is what a buffer holds.  An append adds its bytes to it, and succeeds while the buffer stays below the address
space (`append_appends`); `encodeHeader` leaves `frame P`, the payload `P` behind a header that announces
the length of the two (`encodeHeader_payload`), and cannot fail below `2 ^ 32` (`encodeHeader_ok`).
-/
namespace Exio
namespace Sam

open Decimal (decimal)
open Memory (memcpy memcpy_over slice)

def reserveForSamHeader : Nat := 100

/-- The largest size a `std::vector<char>` takes. -/
def vectorMaxSize : Nat := 2 ^ 63 - 1

inductive EncodeError where
  | resize
  | lengthError
  | msglenString
  | headlen
deriving DecidableEq

structure DynamicSamBuffer where
  buf      : Bytes
  msgStart : Nat
  wptr     : Nat
deriving DecidableEq

namespace DynamicSamBuffer

def new (reserve : Nat) : DynamicSamBuffer :=
  { buf := List.replicate (if reserve < reserveForSamHeader then reserve + reserveForSamHeader else reserve) 0
    msgStart := reserveForSamHeader
    wptr := reserveForSamHeader }

/-- `m_buf.resize(newsize, '\0')`. -/
def resize (sb : DynamicSamBuffer) (newsize : Nat) : Except EncodeError DynamicSamBuffer :=
  if vectorMaxSize < newsize then .error .lengthError
  else .ok { sb with buf := sb.buf.take newsize ++ List.replicate (newsize - sb.buf.length) 0 }

def checkSpace (sb : DynamicSamBuffer) (n : Nat) : Except EncodeError DynamicSamBuffer :=
  let size := sb.buf.length
  let remain := Word.sub 64 size sb.wptr
  if remain < n then
    let newsize := max (Word.sub 64 (Word.add 64 size n) remain) (Word.mul 64 2 size)
    if newsize < size then .error .resize else sb.resize newsize
  else .ok sb

/-- `append(src, srclen)`; `append(char)` is the case of one byte.  No block is longer than the largest vector: a
`std::string` of that length cannot be built either. -/
def append (sb : DynamicSamBuffer) (src : Bytes) : Except EncodeError DynamicSamBuffer :=
  if vectorMaxSize < src.length then .error .lengthError
  else
    match sb.checkSpace src.length with
    | .error e => .error e
    | .ok sb   => .ok { sb with buf := memcpy sb.buf sb.wptr src, wptr := sb.wptr + src.length }

def msgSize (sb : DynamicSamBuffer) : Nat := Word.sub 64 sb.wptr sb.msgStart

/-- The `msg_size()` bytes at `msg_start()`. -/
def payload (sb : DynamicSamBuffer) : Bytes := slice sb.buf sb.msgStart sb.msgSize

/-- `do { count++; i = i / 10; } while (i)`. -/
def countLoop : Nat → Nat → Nat
  | 0, _        => 1
  | fuel + 1, i => if i / 10 = 0 then 1 else countLoop fuel (i / 10) + 1

/-- `count_digits(unsigned int)`: the argument is cut to 32 bits. -/
def countDigits (i : Nat) : Nat := countLoop (i % 2 ^ 32) (i % 2 ^ 32)

/-- `MSG_START`, the version and `META_DELIM`. -/
def headFor (version : Bytes) : Bytes := Sam.msgStart :: version ++ [metaDelim]

def encodeHeader (sb : DynamicSamBuffer) : Except EncodeError DynamicSamBuffer :=
  let headlen := 1 + 7 + 1
  let partlen := Word.add 64 sb.msgSize headlen
  let strlen0 := countDigits partlen
  let full0 := Word.add 64 partlen strlen0
  let bump := if strlen0 < countDigits full0 then 1 else 0
  let msglenStrlen := strlen0 + bump
  let msglenFull := Word.add 64 full0 bump
  let headlen := headlen + msglenStrlen
  let start := Word.sub 64 sb.msgStart headlen
  let lenbuf := decimal msglenFull
  let buf := memcpy sb.buf start (headFor sam0101)
  let buf := memcpy buf (start + 9) ((lenbuf ++ List.replicate 99 0).take msglenStrlen)
  if lenbuf.length ≠ msglenStrlen then .error .msglenString
  else if 9 + lenbuf.length ≠ headlen then .error .headlen
  else if msglenFull ≤ maxMsgLen ∧ lenbuf.length ≤ 5 then
    .ok { sb with buf := memcpy buf (start + 1) sam0100, msgStart := start }
  else .ok { sb with buf := buf, msgStart := start }

/-- **The buffer's bounds**: `m_msg_start <= m_wptr <= m_buf.size()`, in an address space. -/
structure Inv (sb : DynamicSamBuffer) : Prop where
  start_le : sb.msgStart ≤ sb.wptr
  wptr_le  : sb.wptr ≤ sb.buf.length
  size_le  : sb.buf.length ≤ vectorMaxSize

theorem new_inv {reserve : Nat} (h : reserve ≤ vectorMaxSize) : (new reserve).Inv := by
  refine ⟨Nat.le_refl _, ?_, ?_⟩
  · by_cases hr : reserve < 100 <;> simp [new, reserveForSamHeader, hr]; omega
  · simp only [vectorMaxSize] at *
    by_cases hr : reserve < 100 <;> simp [new, reserveForSamHeader, hr] <;> omega

theorem new_msgStart (reserve : Nat) : (new reserve).msgStart = 100 := rfl

theorem new_payload (reserve : Nat) : (new reserve).payload = [] := by
  have : (new reserve).msgSize = 0 := Word.sub_of_le (Nat.le_refl 100) (by simp [new, reserveForSamHeader])
  rw [payload, this, Memory.slice_zero]

theorem msgSize_eq {sb : DynamicSamBuffer} (h : sb.Inv) : sb.msgSize = sb.wptr - sb.msgStart := by
  have := h.wptr_le
  have := h.size_le
  exact Word.sub_of_le h.start_le (by simp only [vectorMaxSize] at *; omega)

theorem length_payload {sb : DynamicSamBuffer} (h : sb.Inv) : sb.payload.length = sb.wptr - sb.msgStart := by
  have := h.start_le
  have := h.wptr_le
  rw [payload, msgSize_eq h, Memory.length_slice (by omega)]

/-! ## What an append does -/

theorem checkSpace_eq {sb : DynamicSamBuffer} (h : sb.Inv) {n : Nat} (hn : n ≤ vectorMaxSize) :
    sb.checkSpace n =
      if sb.buf.length < sb.wptr + n then sb.resize (max (sb.wptr + n) (2 * sb.buf.length)) else .ok sb := by
  have h1 := h.wptr_le
  have h2 := h.size_le
  simp only [vectorMaxSize] at h2 hn
  have hr : Word.sub 64 sb.buf.length sb.wptr = sb.buf.length - sb.wptr := Word.sub_of_le h1 (by omega)
  have ha : Word.add 64 sb.buf.length n = sb.buf.length + n := Word.add_of_lt (by omega)
  have hs : Word.sub 64 (sb.buf.length + n) (sb.buf.length - sb.wptr) = sb.wptr + n := by
    rw [Word.sub_of_le (by omega) (by omega)]; omega
  have hm : Word.mul 64 2 sb.buf.length = 2 * sb.buf.length := Word.mul_of_lt (by omega)
  simp only [checkSpace, hr, ha, hs, hm]
  by_cases hc : sb.buf.length < sb.wptr + n
  · rw [if_pos (by omega), if_pos hc, if_neg (by omega)]
  · rw [if_neg (by omega), if_neg hc]

/-- **What a sequence of appends that wrote `bs` left**: the bytes behind the payload, the bounds kept, and no failure
while twice the payload's end fits a vector. -/
def Appends (sb : DynamicSamBuffer) (r : Except EncodeError DynamicSamBuffer) (bs : Bytes) : Prop :=
  (∀ sb', r = .ok sb' → sb'.Inv ∧ sb'.msgStart = sb.msgStart ∧ sb'.wptr = sb.wptr + bs.length ∧
    sb'.payload = sb.payload ++ bs) ∧
  (2 * (sb.wptr + bs.length) ≤ vectorMaxSize → ∃ sb', r = .ok sb')

theorem appends_nil {sb : DynamicSamBuffer} (h : sb.Inv) : Appends sb (.ok sb) [] := by
  refine ⟨fun sb' he => ?_, fun _ => ⟨sb, rfl⟩⟩
  cases he
  exact ⟨h, rfl, rfl, (List.append_nil _).symm⟩

theorem bind_eq_ok {ε α β : Type} {r : Except ε α} {k : α → Except ε β} {b : β} :
    (r >>= k) = .ok b ↔ ∃ a, r = .ok a ∧ k a = .ok b := by
  cases r with
  | error e => exact ⟨fun h => (by cases h), fun ⟨_, h, _⟩ => (by cases h)⟩
  | ok a =>
    refine ⟨fun h => ⟨a, rfl, h⟩, fun ⟨_, ha, h⟩ => ?_⟩
    cases ha
    exact h

/-- Appends compose. -/
theorem Appends.bind {sb : DynamicSamBuffer} {r : Except EncodeError DynamicSamBuffer} {bs cs : Bytes}
    {k : DynamicSamBuffer → Except EncodeError DynamicSamBuffer} (h : Appends sb r bs)
    (hk : ∀ sb', sb'.Inv → Appends sb' (k sb') cs) : Appends sb (r >>= k) (bs ++ cs) := by
  refine ⟨fun sb'' he => ?_, fun hb => ?_⟩
  · obtain ⟨sb', hr, he⟩ := bind_eq_ok.1 he
    obtain ⟨hi, hs, hw, hp⟩ := h.1 sb' hr
    obtain ⟨hi', hs', hw', hp'⟩ := (hk sb' hi).1 sb'' he
    refine ⟨hi', hs'.trans hs, ?_, ?_⟩
    · rw [hw', hw, List.length_append, Nat.add_assoc]
    · rw [hp', hp, List.append_assoc]
  · rw [List.length_append] at hb
    obtain ⟨sb', hr⟩ := h.2 (by omega)
    obtain ⟨hi, -, hw, -⟩ := h.1 sb' hr
    obtain ⟨sb'', hr'⟩ := (hk sb' hi).2 (by rw [hw]; omega)
    exact ⟨sb'', bind_eq_ok.2 ⟨sb', hr, hr'⟩⟩

theorem resize_buf {sb sb' : DynamicSamBuffer} {n : Nat} (hn : sb.buf.length ≤ n) (h : sb.resize n = .ok sb') :
    sb' = { sb with buf := sb.buf ++ List.replicate (n - sb.buf.length) 0 } ∧ n ≤ vectorMaxSize := by
  rw [resize] at h
  split at h
  · cases h
  · cases h
    rw [List.take_of_length_le hn]
    exact ⟨rfl, by omega⟩

/-- What a buffer with enough room holds after the copy. -/
theorem copied {sb : DynamicSamBuffer} (h : sb.Inv) (src : Bytes) (hroom : sb.wptr + src.length ≤ sb.buf.length) :
    ({ sb with buf := memcpy sb.buf sb.wptr src, wptr := sb.wptr + src.length } : DynamicSamBuffer).Inv ∧
    ({ sb with buf := memcpy sb.buf sb.wptr src, wptr := sb.wptr + src.length } : DynamicSamBuffer).payload =
      sb.payload ++ src := by
  have hi : ({ sb with buf := memcpy sb.buf sb.wptr src, wptr := sb.wptr + src.length } : DynamicSamBuffer).Inv := by
    have := h.start_le
    have := h.size_le
    exact ⟨by simp only; omega, by simp only [Memory.length_memcpy hroom]; exact hroom, by simp only [Memory.length_memcpy hroom]; omega⟩
  refine ⟨hi, ?_⟩
  rw [payload, msgSize_eq hi, payload, msgSize_eq h]
  exact Memory.slice_memcpy _ _ h.start_le h.wptr_le

/-- **An append adds its bytes to the payload.** -/
theorem append_appends {sb : DynamicSamBuffer} (h : sb.Inv) (src : Bytes) : Appends sb (sb.append src) src := by
  unfold append
  by_cases hbig : vectorMaxSize < src.length
  · rw [if_pos hbig]
    exact ⟨fun sb' he => (by cases he), fun hb => by omega⟩
  rw [if_neg hbig, checkSpace_eq h (by omega)]
  by_cases hc : sb.buf.length < sb.wptr + src.length
  · rw [if_pos hc]
    have hle : sb.buf.length ≤ max (sb.wptr + src.length) (2 * sb.buf.length) := by omega
    refine ⟨fun sb' he => ?_, fun hb => ?_⟩
    · cases hr : sb.resize (max (sb.wptr + src.length) (2 * sb.buf.length)) with
      | error e => rw [hr] at he; cases he
      | ok sb₁ =>
        rw [hr] at he
        cases he
        obtain ⟨rfl, hmax⟩ := resize_buf hle hr
        have hlen : (sb.buf ++ List.replicate (max (sb.wptr + src.length) (2 * sb.buf.length) - sb.buf.length) 0).length
            = max (sb.wptr + src.length) (2 * sb.buf.length) := by
          rw [List.length_append, List.length_replicate]; omega
        generalize max (sb.wptr + src.length) (2 * sb.buf.length) - sb.buf.length = extra at hlen
        have hi : ({ sb with buf := sb.buf ++ List.replicate extra 0 } : DynamicSamBuffer).Inv :=
          ⟨h.start_le, by simp only [hlen]; omega, by simp only [hlen]; exact hmax⟩
        obtain ⟨h1, h2⟩ := copied hi src (by simp only [hlen]; omega)
        refine ⟨h1, rfl, rfl, h2.trans ?_⟩
        have := h.start_le
        have := h.wptr_le
        rw [payload, msgSize_eq hi, payload, msgSize_eq h]
        simp only
        rw [Memory.slice_append (by omega)]
    · rw [resize, if_neg (by omega)]
      exact ⟨_, rfl⟩
  · rw [if_neg hc]
    refine ⟨fun sb' he => ?_, fun _ => ⟨_, rfl⟩⟩
    cases he
    obtain ⟨h1, h2⟩ := copied h src (by omega)
    exact ⟨h1, rfl, rfl, h2⟩

/-! ## The header -/

theorem countLoop_eq : ∀ (fuel i : Nat), i ≤ fuel → countLoop fuel i = (decimal i).length
  | 0, i, h => by
    rw [Decimal.decimal_of_lt (by omega)]; rfl
  | fuel + 1, i, h => by
    rw [countLoop]
    by_cases hi : i / 10 = 0
    · rw [if_pos hi, Decimal.decimal_of_lt (by omega)]; rfl
    · rw [if_neg hi, countLoop_eq fuel (i / 10) (by omega), Decimal.decimal_of_le (n := i) (by omega),
        List.length_append]
      rfl

theorem countDigits_of_lt {i : Nat} (h : i < 2 ^ 32) : countDigits i = (decimal i).length := by
  rw [countDigits, Nat.mod_eq_of_lt h, countLoop_eq _ _ (Nat.le_refl _)]

theorem countDigits_le (i : Nat) : countDigits i ≤ 10 := by
  rw [countDigits, countLoop_eq _ _ (Nat.le_refl _), Decimal.length_decimal_le_iff (by decide)]
  have := Nat.mod_lt i (show 0 < 2 ^ 32 by decide)
  omega

/-- The version a message of `n` bytes announces: five digits are the legacy format. -/
def versionFor (n : Nat) : Bytes := if n ≤ maxMsgLen then sam0100 else sam0101

/-- **The bytes of a message with payload `P` and announced length `n`.** -/
def frame (n : Nat) (P : Bytes) : Bytes := headFor (versionFor n) ++ (decimal n ++ P)

theorem length_headFor (version : Bytes) : (headFor version).length = version.length + 2 := by
  simp [headFor]

theorem length_sam0100 : sam0100.length = 7 := by decide

theorem length_sam0101 : sam0101.length = 7 := by decide

theorem length_versionFor (n : Nat) : (versionFor n).length = 7 := by
  rw [versionFor]
  split
  · exact length_sam0100
  · exact length_sam0101

theorem length_frame (n : Nat) (P : Bytes) : (frame n P).length = 9 + (decimal n).length + P.length := by
  rw [frame, List.length_append, length_headFor, length_versionFor, List.length_append]
  omega

/-- The length a payload of `p` bytes is announced with. -/
def frameLen (p : Nat) : Nat :=
  let d := (decimal (p + 9)).length
  if d < (decimal (p + 9 + d)).length then 9 + (d + 1) + p else 9 + d + p

/-- **The digits of the announced length**: guessed from the length without them, one more where they carry the length
over a power of ten, they are the digits of the length with them. -/
theorem header_digits {p d bump : Nat} (hlt : p + 19 < 2 ^ 32) (hd : countDigits (p + 9) = d)
    (hb : (if d < countDigits (p + 9 + d) then 1 else 0) = bump) :
    (decimal (9 + (d + bump) + p)).length = d + bump ∧ 9 + (d + bump) + p = frameLen p := by
  have hle : d ≤ 10 := hd ▸ countDigits_le (p + 9)
  have e0 : (decimal (p + 9)).length = d := by rw [← hd, countDigits_of_lt (by omega)]
  rw [countDigits_of_lt (by omega)] at hb
  have hpos : 0 < d := e0 ▸ List.length_pos_iff.2 (Decimal.decimal_ne_nil _)
  have hpow : d < 10 ^ d := Nat.lt_pow_self (by decide)
  have h0 : p + 9 < 10 ^ d := (Decimal.length_decimal_le_iff hpos).1 (Nat.le_of_eq e0)
  have hiff : (decimal (p + 9 + d)).length ≤ d ↔ p + 9 + d < 10 ^ d := Decimal.length_decimal_le_iff hpos
  rw [frameLen, e0]
  by_cases hc : d < (decimal (p + 9 + d)).length
  · rw [if_pos hc] at hb
    have hup : (decimal (9 + (d + bump) + p)).length ≤ d + 1 := by
      rw [Decimal.length_decimal_le_iff (by omega), Nat.pow_succ]; omega
    have hlow : (decimal (9 + (d + bump) + p)).length ≤ d ↔ 9 + (d + bump) + p < 10 ^ d :=
      Decimal.length_decimal_le_iff hpos
    exact ⟨by omega, by rw [if_pos hc]; omega⟩
  · rw [if_neg hc] at hb
    have hmono := Decimal.length_decimal_mono (show p + 9 ≤ p + 9 + d by omega)
    refine ⟨?_, by rw [if_neg hc]; omega⟩
    rw [show 9 + (d + bump) + p = p + 9 + d by omega]
    omega

/-- The three copies `encode_header` makes: the header, the digits, and the older version over the newer one. -/
def putHeader (buf : Bytes) (start n : Nat) : Bytes :=
  let buf := memcpy (memcpy buf start (headFor sam0101)) (start + 9) (decimal n)
  if n ≤ maxMsgLen then memcpy buf (start + 1) sam0100 else buf

/-- **`encode_header` without its wrap-around**: `k` digits for a length of `9 + k` and the payload, in front of it. -/
theorem encodeHeader_eq {sb : DynamicSamBuffer} (h : sb.Inv) (hs : sb.msgStart = 100) :
    ∃ k n, k ≤ 11 ∧ n = 9 + k + sb.payload.length ∧
      (sb.payload.length + 19 < 2 ^ 32 → (decimal n).length = k ∧ n = frameLen sb.payload.length) ∧
      sb.encodeHeader =
        if (decimal n).length ≠ k then .error .msglenString
        else .ok { sb with buf := putHeader sb.buf (91 - k) n, msgStart := 91 - k } := by
  have hP := length_payload h
  have h1 := h.start_le
  have h2 := h.wptr_le
  have h3 := h.size_le
  simp only [vectorMaxSize] at h3
  have hm : sb.msgSize = sb.payload.length := by rw [msgSize_eq h, hP]
  generalize sb.payload.length = p at *
  have hd1 := countDigits_le (p + 9)
  have hpart : Word.add 64 p (1 + 7 + 1) = p + 9 := Word.add_of_lt (by omega)
  have hfull0 : Word.add 64 (p + 9) (countDigits (p + 9)) = p + 9 + countDigits (p + 9) := Word.add_of_lt (by omega)
  generalize hd : countDigits (p + 9) = d at *
  generalize hb : (if d < countDigits (p + 9 + d) then 1 else 0) = bump
  have hbump : bump ≤ 1 := by rw [← hb]; split <;> omega
  have hfull : Word.add 64 (p + 9 + d) bump = 9 + (d + bump) + p := by rw [Word.add_of_lt (by omega)]; omega
  have hstart : Word.sub 64 sb.msgStart (1 + 7 + 1 + (d + bump)) = 91 - (d + bump) := by
    rw [hs, Word.sub_of_le (by omega) (by omega)]; omega
  refine ⟨d + bump, 9 + (d + bump) + p, by omega, rfl, fun hlt => header_digits hlt hd hb, ?_⟩
  simp only [encodeHeader, hm, hpart, hd, hfull0, hb, hfull, hstart]
  generalize hn : 9 + (d + bump) + p = n
  by_cases hc : (decimal n).length = d + bump
  · have h5 : n ≤ maxMsgLen → (decimal n).length ≤ 5 := fun hle => by
      rw [Decimal.length_decimal_le_iff (by decide)]; simp only [maxMsgLen] at hle; omega
    have htake : (decimal n ++ List.replicate 99 0).take (d + bump) = decimal n := by
      rw [List.take_append_of_le_length (by omega), List.take_of_length_le (by omega)]
    simp only [hc, ne_eq, not_true_eq_false, ↓reduceIte, htake, putHeader]
    by_cases hmx : n ≤ maxMsgLen
    · rw [if_pos ⟨hmx, hc ▸ h5 hmx⟩, if_pos hmx]
    · rw [if_neg (fun h => hmx h.1), if_neg hmx]
  · rw [if_pos hc, if_pos hc]

/-- A buffer cut at the header's place, the digits' place, the payload and the free end. -/
theorem buf_split {sb : DynamicSamBuffer} (h : sb.Inv) (hs : sb.msgStart = 100) {k : Nat} (hk : k ≤ 91) :
    ∃ A X Y R : Bytes, sb.buf = A ++ (X ++ (Y ++ (sb.payload ++ R))) ∧ A.length = 91 - k ∧ X.length = 9 ∧
      Y.length = k := by
  have h1 := h.start_le
  have h2 := h.wptr_le
  refine ⟨sb.buf.take (91 - k), (sb.buf.drop (91 - k)).take 9, (sb.buf.drop (100 - k)).take k,
    (sb.buf.drop 100).drop (sb.wptr - 100), ?_, ?_, ?_, ?_⟩
  · have e1 : sb.payload = (sb.buf.drop 100).take (sb.wptr - 100) := by rw [payload, msgSize_eq h, hs, slice]
    have e2 : sb.buf.drop 100 = (sb.buf.drop (100 - k)).drop k := by rw [List.drop_drop]; congr 1; omega
    have e3 : sb.buf.drop (100 - k) = (sb.buf.drop (91 - k)).drop 9 := by rw [List.drop_drop]; congr 1; omega
    rw [e1, List.take_append_drop, e2, List.take_append_drop, e3, List.take_append_drop, List.take_append_drop]
  · rw [List.length_take]; omega
  · rw [List.length_take, List.length_drop]; omega
  · rw [List.length_take, List.length_drop]; omega

/-- The header and the digits fill their places. -/
theorem putHeader_eq {A X Y C : Bytes} {start n : Nat} (hA : A.length = start) (hX : X.length = 9)
    (hY : Y.length = (decimal n).length) :
    putHeader (A ++ (X ++ (Y ++ C))) start n = A ++ (headFor (versionFor n) ++ (decimal n ++ C)) := by
  have h9 : (headFor sam0101).length = 9 := by rw [length_headFor, length_sam0101]
  have e1 : memcpy (memcpy (A ++ (X ++ (Y ++ C))) start (headFor sam0101)) (start + 9) (decimal n)
      = A ++ (headFor sam0101 ++ (decimal n ++ C)) := by
    rw [memcpy_over hA (by rw [hX, h9]), ← List.append_assoc A,
      memcpy_over (by rw [List.length_append, hA, h9]) hY, List.append_assoc A]
  rw [putHeader, e1, versionFor]
  by_cases hn : n ≤ maxMsgLen
  · have e2 : A ++ (headFor sam0101 ++ (decimal n ++ C))
        = (A ++ [Sam.msgStart]) ++ (sam0101 ++ (metaDelim :: (decimal n ++ C))) := by simp [headFor]
    rw [if_pos hn, if_pos hn, e2, memcpy_over (by rw [List.length_append, hA, List.length_singleton])
      (by rw [length_sam0100, length_sam0101])]
    simp [headFor]
  · rw [if_neg hn, if_neg hn]

/-- **`encode_header` leaves the payload behind a header that announces the length of the two.** -/
theorem encodeHeader_payload {sb sb' : DynamicSamBuffer} (h : sb.Inv) (hs : sb.msgStart = 100)
    (he : sb.encodeHeader = .ok sb') :
    ∃ n, n = 9 + (decimal n).length + sb.payload.length ∧ sb'.payload = frame n sb.payload ∧ sb'.Inv ∧
      (sb.payload.length + 19 < 2 ^ 32 → n = frameLen sb.payload.length) := by
  obtain ⟨k, n, hk, hn, hsmall, heq⟩ := encodeHeader_eq h hs
  rw [heq] at he
  by_cases hlen : (decimal n).length = k
  · rw [if_neg (by simpa using hlen)] at he
    obtain ⟨A, X, Y, R, hbuf, hA, hX, hY⟩ := buf_split h hs (show k ≤ 91 by omega)
    have hput : putHeader sb.buf (91 - k) n = A ++ (frame n sb.payload ++ R) := by
      rw [hbuf, putHeader_eq hA hX (by rw [hY, hlen])]
      simp [frame]
    rw [hput] at he
    cases he
    have hfl := length_frame n sb.payload
    have hP := length_payload h
    have h1 := h.start_le
    have h2 := h.wptr_le
    have h3 := h.size_le
    have hsize : (A ++ (frame n sb.payload ++ R)).length = sb.buf.length := by
      rw [hbuf]; simp only [List.length_append, hfl, hX, hY, hlen]; omega
    have hi : ({ sb with buf := A ++ (frame n sb.payload ++ R), msgStart := 91 - k } : DynamicSamBuffer).Inv :=
      ⟨by simp only; omega, by simp only [hsize]; exact h2, by simp only [hsize]; exact h3⟩
    refine ⟨n, by omega, ?_, hi, fun hlt => (hsmall hlt).2⟩
    rw [payload, msgSize_eq hi, slice]
    simp only
    rw [← hA, List.drop_left, List.take_append_of_le_length (by omega), List.take_of_length_le (by omega)]
  · rw [if_pos (by simpa using hlen)] at he
    cases he

theorem encodeHeader_ok {sb : DynamicSamBuffer} (h : sb.Inv) (hs : sb.msgStart = 100)
    (hlt : sb.payload.length + 19 < 2 ^ 32) : ∃ sb', sb.encodeHeader = .ok sb' := by
  obtain ⟨k, n, -, -, hlen, heq⟩ := encodeHeader_eq h hs
  rw [heq, if_neg (by simpa using (hlen hlt).1)]
  exact ⟨_, rfl⟩

/-! ## A whole use of the buffer -/

/-- A sequence of appends; `append(char)` is the append of one byte. -/
def appendAll (sb : DynamicSamBuffer) : List Bytes → Except EncodeError DynamicSamBuffer
  | []      => .ok sb
  | b :: bs => sb.append b >>= fun sb => sb.appendAll bs

theorem appendAll_appends : ∀ (blocks : List Bytes) {sb : DynamicSamBuffer}, sb.Inv →
    Appends sb (sb.appendAll blocks) blocks.flatten
  | [], _, h => appends_nil h
  | b :: blocks, _, h => (append_appends h b).bind fun _ h => appendAll_appends blocks h

/-- The digits `encode_header` makes room for. -/
def msglenStrlen (sb : DynamicSamBuffer) : Nat :=
  let partlen := Word.add 64 sb.msgSize 9
  let strlen := countDigits partlen
  strlen + if strlen < countDigits (Word.add 64 partlen strlen) then 1 else 0

/-- What `encode_header` sets `m_msg_start` to, before it checks anything. -/
def headerStart (sb : DynamicSamBuffer) : Nat := Word.sub 64 sb.msgStart (9 + sb.msglenStrlen)

theorem msglenStrlen_le (sb : DynamicSamBuffer) : sb.msglenStrlen ≤ 11 := by
  have := countDigits_le (Word.add 64 sb.msgSize 9)
  unfold msglenStrlen
  simp only
  split <;> omega

theorem encodeHeader_msgStart {sb sb' : DynamicSamBuffer} (h : sb.encodeHeader = .ok sb') :
    sb'.msgStart = sb.headerStart := by
  unfold encodeHeader at h
  simp only [Nat.reduceAdd] at h
  simp only [headerStart, msglenStrlen]
  generalize (if countDigits (Word.add 64 sb.msgSize 9) < countDigits (Word.add 64 (Word.add 64 sb.msgSize 9)
    (countDigits (Word.add 64 sb.msgSize 9))) then 1 else 0) = bump at h ⊢
  split at h
  · cases h
  · split at h
    · cases h
    · split at h
      · rw [← Except.ok.inj h]
      · rw [← Except.ok.inj h]

/-- **The header's length and the buffer's growth.**  Whatever is appended to a fresh buffer, its bounds hold after every
append, and `encode_header` moves the start down inside the buffer.  Where it returns, the message is the payload behind a
header that announces the length of the two, in the old version exactly up to 99999 bytes; and it returns below
`2 ^ 32` bytes. -/
theorem encodeHeader_frames {reserve : Nat} (hr : reserve ≤ vectorMaxSize) (blocks : List Bytes) :
    (∀ (pre : List Bytes) (sb : DynamicSamBuffer), pre <+: blocks → (new reserve).appendAll pre = .ok sb →
      sb.msgStart ≤ sb.wptr ∧ sb.wptr ≤ sb.buf.length) ∧
    (∀ sb, (new reserve).appendAll blocks = .ok sb →
      sb.headerStart + 9 + sb.msglenStrlen = sb.msgStart ∧
      ∀ sb', sb.encodeHeader = .ok sb' →
        sb'.msgStart = sb.headerStart ∧ sb'.msgStart ≤ sb'.wptr ∧ sb'.wptr ≤ sb'.buf.length ∧
        sb'.payload = headFor (if sb'.msgSize ≤ 99999 then sam0100 else sam0101) ++
          (decimal sb'.msgSize ++ blocks.flatten)) ∧
    (blocks.flatten.length + 21 < 2 ^ 32 →
      ∃ sb sb', (new reserve).appendAll blocks = .ok sb ∧ sb.encodeHeader = .ok sb') := by
  have happ := appendAll_appends blocks (new_inv hr)
  refine ⟨fun pre sb _ he => ?_, fun sb he => ?_, fun hlt => ?_⟩
  · have hi := ((appendAll_appends pre (new_inv hr)).1 sb he).1
    exact ⟨hi.start_le, hi.wptr_le⟩
  · obtain ⟨hi, hs, -, hp⟩ := happ.1 sb he
    rw [new_payload, List.nil_append] at hp
    have hstart : sb.msgStart = 100 := hs.trans (new_msgStart reserve)
    have hdigits := sb.msglenStrlen_le
    refine ⟨?_, fun sb' hh => ?_⟩
    · rw [headerStart, hstart, Word.sub_of_le (by omega) (by decide)]
      omega
    · obtain ⟨n, hn, hpay, hi', -⟩ := encodeHeader_payload hi hstart hh
      have hsize : sb'.msgSize = n := by
        rw [msgSize_eq hi', ← length_payload hi', hpay, length_frame]
        exact hn.symm
      refine ⟨encodeHeader_msgStart hh, hi'.start_le, hi'.wptr_le, ?_⟩
      rw [hpay, hsize, hp]
      rfl
  · obtain ⟨sb, hsb⟩ := happ.2 (by simp only [new, reserveForSamHeader, vectorMaxSize]; omega)
    obtain ⟨hi, hs, -, hp⟩ := happ.1 sb hsb
    rw [new_payload, List.nil_append] at hp
    obtain ⟨sb', hh⟩ := encodeHeader_ok hi (hs.trans (new_msgStart reserve)) (by rw [hp]; omega)
    exact ⟨sb, sb', hsb, hh⟩

theorem encodeHeader_frames_sample :
    ∃ sb sb', (new 0).appendAll [[58], [116, 58]] = .ok sb ∧ sb.encodeHeader = .ok sb' ∧
      sb'.payload = headFor (if sb'.msgSize ≤ 99999 then sam0100 else sam0101) ++
        (decimal sb'.msgSize ++ [58, 116, 58]) := by
  obtain ⟨-, hframe, hok⟩ := encodeHeader_frames (show 0 ≤ vectorMaxSize by decide) [[58], [116, 58]]
  obtain ⟨sb, sb', hsb, hh⟩ := hok (by decide)
  exact ⟨sb, sb', hsb, hh, ((hframe sb hsb).2 sb' hh).2.2.2⟩

end DynamicSamBuffer
end Sam
end Exio
