import Mathlib.Data.List.Infix
import Exio.SamDecode
/-!
# SamLength — the length a frame declares

The digit loop of `decodeMsg` multiplies and adds in a `size_t` and then compares with the maximum.  At any width the
number it holds behind a run of digits is the run's decimal value, reduced (`readMsglen_run`): the comparison sees every
prefix of the run, but sees it reduced.

From 35 bits on the first prefix above the maximum is still there as it is, and the loop stops at it.  At 32 bits
`4294967322` is 26.  **The declared length is exact as long as no prefix slips by** (`msglen_exact_iff`).
-/
namespace Exio
namespace Sam

open Decimal (digit isDigit value value_append_singleton)

/-! ## The digit loop -/

/-- **What the loop makes of a run of digits behind the digits `pre`**: it stops at the first prefix whose reduced value is
above the maximum, or holds the reduced value of the whole run. -/
theorem readMsglen_run (w : Nat) : ∀ (ds pre p : Bytes), (∀ c ∈ ds, isDigit c = true) →
    (∀ c, p.head? = some c → isDigit c = false) → value pre % 2 ^ w ≤ maxMsglen →
    ((∃ qs, qs <+: ds ∧ maxMsglen < value (pre ++ qs) % 2 ^ w) ∧
      readMsglen w (value pre % 2 ^ w) (ds ++ p) = .error .tooLong) ∨
    ((∀ qs, qs <+: ds → value (pre ++ qs) % 2 ^ w ≤ maxMsglen) ∧
      readMsglen w (value pre % 2 ^ w) (ds ++ p) = .ok (value (pre ++ ds) % 2 ^ w, p))
  | [], pre, p, _, hp, hpre => by
    refine .inr ⟨fun qs hqs => ?_, ?_⟩
    · rw [List.prefix_nil.1 hqs, List.append_nil]
      exact hpre
    · rw [List.append_nil, List.nil_append]
      cases p with
      | nil => rfl
      | cons c p => rw [readMsglen, hp c rfl, if_neg Bool.false_ne_true]
  | c :: ds, pre, p, hd, hp, hpre => by
    have hstep : (value pre % 2 ^ w * 10 + digit c) % 2 ^ w = value (pre ++ [c]) % 2 ^ w := by
      rw [value_append_singleton, Nat.add_mod, Nat.mod_mul_mod, ← Nat.add_mod]
    have happ : ∀ qs, pre ++ c :: qs = pre ++ [c] ++ qs := fun qs => by simp
    rw [List.cons_append, readMsglen, hd c List.mem_cons_self, if_pos rfl]
    simp only [hstep]
    by_cases hc : maxMsglen < value (pre ++ [c]) % 2 ^ w
    · rw [if_pos hc]
      exact .inl ⟨⟨[c], List.cons_prefix_cons.2 ⟨rfl, List.nil_prefix⟩, hc⟩, rfl⟩
    · rw [if_neg hc]
      have hnext := readMsglen_run w ds (pre ++ [c]) p (fun x hx => hd x (List.mem_cons_of_mem c hx)) hp (by omega)
      rcases hnext with ⟨⟨qs, hqs, hlt⟩, hread⟩ | ⟨hall, hread⟩
      · exact .inl ⟨⟨c :: qs, List.cons_prefix_cons.2 ⟨rfl, hqs⟩, happ qs ▸ hlt⟩, hread⟩
      · refine .inr ⟨fun qs hqs => ?_, happ ds ▸ hread⟩
        cases qs with
        | nil =>
          rw [List.append_nil]
          exact hpre
        | cons x qs =>
          obtain ⟨rfl, htail⟩ := List.cons_prefix_cons.1 hqs
          rw [happ]
          exact hall qs htail

/-- **The whole run**, from its first digit on. -/
theorem readMsglen_cases (w : Nat) {ds p : Bytes} (hd : ∀ c ∈ ds, isDigit c = true)
    (hp : ∀ c, p.head? = some c → isDigit c = false) :
    ((∃ qs, qs <+: ds ∧ maxMsglen < value qs % 2 ^ w) ∧ readMsglen w 0 (ds ++ p) = .error .tooLong) ∨
    ((∀ qs, qs <+: ds → value qs % 2 ^ w ≤ maxMsglen) ∧ readMsglen w 0 (ds ++ p) = .ok (value ds % 2 ^ w, p)) := by
  have hzero : value [] % 2 ^ w = 0 := Nat.zero_mod _
  have hrun := readMsglen_run w ds [] p hd hp (by rw [hzero]; exact Nat.zero_le _)
  rwa [hzero] at hrun

/-! ## Prefixes of a run -/

theorem value_append_ge (pre qs : Bytes) : value pre ≤ value (pre ++ qs) := by
  rw [value, value, List.foldl_append]
  exact Decimal.foldl_value_ge qs _

theorem digit_lt (c : UInt8) : digit c < 16 := by
  rw [digit, UInt8.toNat_and]
  exact Nat.lt_of_le_of_lt Nat.and_le_right (by decide)

/-- **The first prefix above the maximum is above it by one digit.** -/
theorem exists_first_above {ds : Bytes} (h : maxMsglen < value ds) :
    ∃ pre, pre <+: ds ∧ maxMsglen < value pre ∧ value pre < 10 * maxMsglen + 16 := by
  induction ds using List.reverseRecOn with
  | nil => exact absurd h (by decide)
  | append_singleton ds c ih =>
    by_cases hds : maxMsglen < value ds
    · obtain ⟨pre, hpre, hlt, hle⟩ := ih hds
      exact ⟨pre, hpre.trans (List.prefix_append ds [c]), hlt, hle⟩
    · refine ⟨ds ++ [c], List.prefix_refl _, h, ?_⟩
      rw [value_append_singleton]
      have := digit_lt c
      omega

/-- Where ten times the maximum fits, the reduction hides no prefix. -/
theorem above_reduced_iff {w : Nat} (hw : 35 ≤ w) (ds : Bytes) :
    (∃ pre, pre <+: ds ∧ maxMsglen < value pre % 2 ^ w) ↔ ∃ pre, pre <+: ds ∧ maxMsglen < value pre := by
  have hpow : 2 ^ 35 ≤ 2 ^ w := Nat.pow_le_pow_right (by decide) hw
  constructor
  · rintro ⟨pre, hpre, hlt⟩
    exact ⟨pre, hpre, Nat.lt_of_lt_of_le hlt (Nat.mod_le _ _)⟩
  · rintro ⟨pre, hpre, hlt⟩
    obtain ⟨first, hfirst, hlt, hle⟩ := exists_first_above hlt
    refine ⟨first, hfirst.trans hpre, ?_⟩
    rwa [Nat.mod_eq_of_lt]
    simp only [maxMsglen] at hle
    omega

/-! ## `decodeMsg` and the declared length -/

/-- A buffer up to the declared length: `{`, the version and a delimiter, a run of digits, and what follows it. -/
def declaring (V ds p : Bytes) : Bytes := msgStart :: (V ++ metaDelim :: (ds ++ p))

/-- What `decodeMsg` does behind the digit loop with the length `msglen`. -/
def withMsglen (past : Option UInt8) (msg : TxMessage) (buf : Bytes) (msglen : Nat) :
    Bytes → Except DecodeError (Nat × TxMessage)
  | []     => .ok (0, msg)
  | c :: p =>
    if c ≠ metaDelim then .error .badMsglen
    else if buf.length < msglen then .ok (0, msg)
    else if (buf.drop 1).take 7 = sam0100 ∨ (buf.drop 1).take 7 = sam0101 then
      match decodeBody (peek past (buf.drop msglen)) ((buf.take msglen).drop (buf.length - p.length)) with
      | .error e => .error e
      | .ok m    => .ok (msglen, m)
    else .ok (msglen, msg)

/-- The length loop and the rest. -/
theorem decodeMsg_declaring (w : Nat) (past : Option UInt8) (msg : TxMessage) {V : Bytes} (hV : V.length = 7)
    (ds p : Bytes) :
    decodeMsg w past msg (declaring V ds p) =
      match readMsglen w 0 (ds ++ p) with
      | .error e      => .error e
      | .ok (n, rest) => withMsglen past msg (declaring V ds p) n rest := by
  have h9 : ¬ (declaring V ds p).length < 9 := by
    simp only [declaring, List.length_cons, List.length_append, hV]
    omega
  have h8 : ((declaring V ds p).drop 8).head? = some metaDelim := by
    rw [declaring, List.drop_succ_cons, ← hV, List.drop_left]
    rfl
  have hds : (declaring V ds p).drop 9 = ds ++ p := by
    rw [declaring, List.drop_succ_cons, show 8 = V.length + 1 by rw [hV], ← List.drop_drop, List.drop_left]
    rfl
  have hgood : ¬ ((declaring V ds p).head? ≠ some msgStart ∨ ((declaring V ds p).drop 8).head? ≠ some metaDelim) := by
    rw [h8]
    simp [declaring]
  rw [decodeMsg, if_neg h9, if_neg hgood, hds]
  rcases readMsglen w 0 (ds ++ p) with e | ⟨n, _ | ⟨c, rest⟩⟩ <;> rfl

/-- The recursive decoder has errors of its own. -/
theorem decodeLoop_ne_tooLong {past : Option UInt8} : ∀ (fuel : Nat) (is : List TxItem) (l : Bytes),
    decodeLoop past fuel is l ≠ .error .tooLong
  | 0, _, _, he => by cases he
  | fuel + 1, _, [], he => by cases he
  | fuel + 1, is, c :: p, he => by
    rcases decodeLoop_cases past fuel is c p with ⟨-, hend⟩ | hend | ⟨nt, n, q, hn, hh, hl⟩
    · rw [hend] at he
      cases he
    · rw [hend] at he
      cases he
    · rw [hl, decodeLoop_name hn hh] at he
      rcases decodeValue_error (fun js q' r rest hr => decodeLoop_length hr) he with
        ⟨-, hover⟩ | hfield | hfield | ⟨js, q', -, he⟩
      · cases hover
      · cases hfield
      · cases hfield
      · exact decodeLoop_ne_tooLong fuel js q' he

theorem decodeBody_ne_tooLong (past : Option UInt8) (p : Bytes) : decodeBody past p ≠ .error .tooLong := by
  intro he
  rcases decodeBody_cases past p with hbody | ⟨tt, vs, q, ht, rfl⟩
  · rw [hbody] at he
    cases he
  rw [decodeBody_eq past ht] at he
  split at he
  · rename_i e hd
    cases he
    exact decodeLoop_ne_tooLong _ _ _ hd
  · cases he

/-- Behind the loop the length is not questioned again. -/
theorem withMsglen_ne_tooLong (past : Option UInt8) (msg : TxMessage) (buf : Bytes) (n : Nat) (p : Bytes) :
    withMsglen past msg buf n p ≠ .error .tooLong := by
  intro he
  cases p with
  | nil => cases he
  | cons c p =>
    rw [withMsglen] at he
    split at he
    · cases he
    split at he
    · cases he
    split at he
    · split at he
      · rename_i e hbody
        cases he
        exact decodeBody_ne_tooLong _ _ hbody
      · cases he
    · cases he

/-- **The declared length is parsed exactly**: `decodeMsg` throws if some prefix of the run is above the maximum and only
then, and otherwise goes on with the run's decimal value. -/
structure MsglenExact (w : Nat) (V ds p : Bytes) : Prop where
  throws : ∀ past msg, decodeMsg w past msg (declaring V ds p) = .error .tooLong ↔
    ∃ pre, pre <+: ds ∧ maxMsglen < value pre
  uses   : (¬ ∃ pre, pre <+: ds ∧ maxMsglen < value pre) → ∀ past msg,
    decodeMsg w past msg (declaring V ds p) = withMsglen past msg (declaring V ds p) (value ds) p

section

variable {w : Nat} {V ds p : Bytes} (hV : V.length = 7) (hd : ∀ c ∈ ds, isDigit c = true)
  (hp : ∀ c, p.head? = some c → isDigit c = false)
include hV hd hp

/-- When `decodeMsg` throws, at any width. -/
theorem decodeMsg_tooLong_iff (past : Option UInt8) (msg : TxMessage) :
    decodeMsg w past msg (declaring V ds p) = .error .tooLong ↔ ∃ pre, pre <+: ds ∧ maxMsglen < value pre % 2 ^ w := by
  rw [decodeMsg_declaring w past msg hV]
  rcases readMsglen_cases w hd hp with ⟨habove, hread⟩ | ⟨hall, hread⟩
  · rw [hread]
    exact ⟨fun _ => habove, fun _ => rfl⟩
  · rw [hread]
    refine ⟨fun he => absurd he (withMsglen_ne_tooLong _ _ _ _ _), fun ⟨pre, hpre, hlt⟩ => ?_⟩
    have := hall pre hpre
    omega

/-- Below the maximum nothing wraps. -/
theorem decodeMsg_uses (hw : 32 ≤ w) (h : ¬ ∃ pre, pre <+: ds ∧ maxMsglen < value pre) (past : Option UInt8)
    (msg : TxMessage) :
    decodeMsg w past msg (declaring V ds p) = withMsglen past msg (declaring V ds p) (value ds) p := by
  have hle : value ds ≤ maxMsglen := Nat.le_of_not_lt fun hlt => h ⟨ds, List.prefix_refl ds, hlt⟩
  rw [decodeMsg_declaring w past msg hV, readMsglen_digits hw ds 0 p hd hle hp]
  rfl

/-- **The declared length is exact** at 64 bits, and at 32 bits unless the run is above the maximum and every prefix of it
is, reduced, at most the maximum. -/
theorem msglen_exact_iff (hw : w = 32 ∨ w = 64) :
    MsglenExact w V ds p ↔
      (w = 32 → maxMsglen < value ds → ∃ pre, pre <+: ds ∧ maxMsglen < value pre % 2 ^ 32) := by
  constructor
  · rintro ⟨hthrows, -⟩ rfl hlt
    exact (decodeMsg_tooLong_iff hV hd hp none .empty).1 ((hthrows none .empty).2 ⟨ds, List.prefix_refl ds, hlt⟩)
  · intro h
    refine ⟨fun past msg => (decodeMsg_tooLong_iff hV hd hp past msg).trans ?_, decodeMsg_uses hV hd hp (by omega)⟩
    rcases hw with rfl | rfl
    · refine ⟨fun ⟨pre, hpre, hlt⟩ => ⟨pre, hpre, Nat.lt_of_lt_of_le hlt (Nat.mod_le _ _)⟩, fun ⟨pre, hpre, hlt⟩ => ?_⟩
      obtain ⟨qs, rfl⟩ := hpre
      exact h rfl (Nat.lt_of_lt_of_le hlt (value_append_ge pre qs))
    · exact above_reduced_iff (by decide) ds

end

/-- Leading zeros, and a length of four digits. -/
theorem msglen_exact_iff_sample :
    MsglenExact 64 sam0100 (ascii "00004096") (ascii ":t:[]") ∧
      MsglenExact 32 sam0101 (ascii "2147483648") (ascii ":t:[]") := by
  refine ⟨?_, ?_⟩
  · have hd : ∀ c ∈ ascii "00004096", Decimal.isDigit c = true := List.all_eq_true.1 (by decide)
    exact (msglen_exact_iff (by decide) hd (by rintro c ⟨⟩; decide) (.inr rfl)).2 (fun h => by cases h)
  · have hd : ∀ c ∈ ascii "2147483648", Decimal.isDigit c = true := List.all_eq_true.1 (by decide)
    refine (msglen_exact_iff (by decide) hd (by rintro c ⟨⟩; decide) (.inl rfl)).2 fun _ _ => ?_
    exact ⟨ascii "2147483648", List.prefix_refl _, by decide⟩

/-- **An oversized length becomes a small valid one**: `2 ^ 32 + 26` at 32 bits, with a message of 26 bytes behind it. -/
theorem msglen_wraps :
    maxMsglen < value (ascii "4294967322") ∧
    decodeMsg 32 none .empty (declaring sam0100 (ascii "4294967322") (ascii ":t:[]\x7d\n")) = .ok (26, ⟨ascii "t", []⟩) ∧
    decodeMsg 64 none .empty (declaring sam0100 (ascii "4294967322") (ascii ":t:[]\x7d\n")) = .error .tooLong := by
  decide

end Sam
end Exio
