import Exio.SamGrammar
/-!
# SamProgress — a frame that is never consumed nor rejected

`decodeMsg` answers 0 when it needs more bytes, and the caller keeps what it has and waits.  The wait is a dead one if no
bytes can end it.  For a supported version there is none: a length that does not even cover the header is rejected, since
the type is missing.  For any other version the announced length is consumed as it is, and a length of 0 is the same
answer as "more".
-/
namespace Exio
namespace Sam

/-- `decodeMsg` consumes something, or throws. -/
def Answers (past : UInt8) (msg : TxMessage) (buf : Bytes) : Prop :=
  (∃ n m, 0 < n ∧ decodeMsg 64 (some past) msg buf = .ok (n, m)) ∨
    ∃ e, e ≠ .outOfFuel ∧ e ≠ .overrun ∧ decodeMsg 64 (some past) msg buf = .error e

/-- **No dead wait at `buf`**: where more bytes are needed some bytes will do, and what is consumed covers the header. -/
structure NoDeadWait (past : UInt8) (msg : TxMessage) (buf : Bytes) : Prop where
  waits : ∀ m, decodeMsg 64 (some past) msg buf = .ok (0, m) → ∃ s, Answers past msg (buf ++ s)
  spans : ∀ n m, 0 < n → decodeMsg 64 (some past) msg buf = .ok (n, m) →
    ∃ V ds p, Parses buf V ds p ∧ (header V ds).length ≤ n

/-- **A header of another version that announces less than its own length.** -/
def ShortUnknown (buf : Bytes) : Prop :=
  ∃ V ds p, Parses buf V ds p ∧ V ≠ sam0100 ∧ V ≠ sam0101 ∧ Decimal.value ds < (header V ds).length

theorem Answers.of_error {past : UInt8} {msg : TxMessage} {buf : Bytes} {e : DecodeError}
    (h : decodeMsg 64 (some past) msg buf = .error e) : Answers past msg buf :=
  .inr ⟨e, (decodeMsg_raised h).1, (decodeMsg_raised h).2, h⟩

/-- Where `decodeMsg` consumes nothing but need not wait it answers. -/
theorem Answers.of_ne {past : UInt8} {msg : TxMessage} {buf : Bytes}
    (h : ∀ m, decodeMsg 64 (some past) msg buf ≠ .ok (0, m)) : Answers past msg buf := by
  cases hd : decodeMsg 64 (some past) msg buf with
  | error e => exact .of_error hd
  | ok x =>
    obtain ⟨n, m⟩ := x
    refine .inl ⟨n, m, Nat.pos_of_ne_zero (fun hn => h m ?_), hd⟩
    rw [hd, hn]

/-- Less than a version is rejected when it is completed wrongly. -/
theorem answers_of_short (past : UInt8) (msg : TxMessage) {buf : Bytes} (h : buf.length < 9) :
    Answers past msg (buf ++ List.replicate 9 0) := by
  have h9 : ¬ (buf ++ List.replicate 9 0).length < 9 := by
    rw [List.length_append, List.length_replicate]; omega
  have h8 : ((buf ++ List.replicate 9 0).drop 8).head? ≠ some metaDelim := by
    rw [List.drop_append, List.drop_eq_nil_of_le (by omega), List.nil_append, List.drop_replicate, List.head?_replicate]
    split <;> simp [metaDelim]
  refine .of_error (e := .badHeader) ?_
  rw [decodeMsg, if_neg h9, if_pos (.inr h8)]

/-- **A supported frame that is consumed is longer than its header**: there is a type behind the header. -/
theorem header_lt_of_decodeBody {past : Option UInt8} {buf ds : Bytes} {n : Nat} {m : TxMessage}
    (h : decodeBody past ((buf.take n).drop (10 + ds.length)) = .ok m) : 10 + ds.length < n := by
  obtain ⟨tt, q, rest, -, hp, -⟩ := decodeBody_ok h
  have hlen := congrArg List.length hp
  rw [List.length_drop, List.length_take, List.length_append, List.length_cons] at hlen
  omega

/-- A header with enough bytes behind it: a supported one never asks for more, another one does if it announces 0. -/
theorem Parses.waits_iff {buf V ds p : Bytes} (h : Parses buf V ds p) (past : Option UInt8) (msg m : TxMessage)
    (hlen : Decimal.value ds ≤ buf.length) :
    decodeMsg 64 past msg buf = .ok (0, m) ↔ V ≠ sam0100 ∧ V ≠ sam0101 ∧ Decimal.value ds = 0 ∧ m = msg := by
  rw [h.decodeMsg_eq, if_neg (by omega)]
  by_cases hV : V = sam0100 ∨ V = sam0101
  · rw [if_pos hV]
    refine ⟨fun hd => ?_, fun hd => absurd hV (by rw [not_or]; exact ⟨hd.1, hd.2.1⟩)⟩
    split at hd
    · cases hd
    · rename_i m' hbody
      have hlt := header_lt_of_decodeBody hbody
      simp only [Except.ok.injEq, Prod.mk.injEq] at hd
      omega
  · rw [if_neg hV, Except.ok.injEq, Prod.mk.injEq]
    rw [not_or] at hV
    exact ⟨fun hd => ⟨hV.1, hV.2, hd.1, hd.2.symm⟩, fun hd => ⟨hd.2.2.1, hd.2.2.2.symm⟩⟩

/-- Enough bytes behind a header end the wait, unless it is one of another version that announces 0. -/
theorem Parses.answers {buf V ds p : Bytes} (h : Parses buf V ds p) (past : UInt8) (msg : TxMessage)
    (hno : V = sam0100 ∨ V = sam0101 ∨ Decimal.value ds ≠ 0) :
    ∃ s, Answers past msg (buf ++ s) := by
  refine ⟨List.replicate (Decimal.value ds) 0, .of_ne fun m hm => ?_⟩
  have hlen : Decimal.value ds ≤ (buf ++ List.replicate (Decimal.value ds) 0).length := by
    rw [List.length_append, List.length_replicate]; omega
  obtain ⟨h0, h1, hz, -⟩ := ((h.append _).waits_iff (some past) msg m hlen).1 hm
  rcases hno with hno | hno | hno
  · exact h0 hno
  · exact h1 hno
  · exact hno hz

theorem noDeadWait_of_not_short {past : UInt8} {msg : TxMessage} {buf : Bytes} (h : ¬ ShortUnknown buf) :
    NoDeadWait past msg buf := by
  constructor
  · intro m hm
    rcases header_cases buf with h9 | ⟨e, he⟩ | ⟨V, ds, hV, hdig, hmax, rfl⟩ | ⟨V, ds, p, hp⟩
    · exact ⟨_, answers_of_short past msg h9⟩
    · rw [he] at hm
      cases hm
    · exact ⟨[0], .of_error (decodeMsg_digits hV hdig hmax (some past) msg).2⟩
    · refine hp.answers past msg ?_
      by_contra hno
      simp only [not_or, not_not] at hno
      refine h ⟨V, ds, p, hp, hno.1, hno.2.1, ?_⟩
      rw [hno.2.2, length_header hp.version]
      omega
  · intro n m hn hd
    obtain ⟨V, ds, p, hp, hval⟩ := decodeMsg_parses hn hd
    refine ⟨V, ds, p, hp, ?_⟩
    by_cases hV : V = sam0100 ∨ V = sam0101
    · rw [hp.decodeMsg_eq, if_pos hV, hval] at hd
      split at hd
      · cases hd; omega
      split at hd
      · cases hd
      · rename_i hbody
        have hlt := header_lt_of_decodeBody hbody
        rw [length_header hp.version]
        omega
    · rw [not_or] at hV
      by_contra hlt
      exact h ⟨V, ds, p, hp, hV.1, hV.2, by omega⟩

/-- **No dead wait in framing**, at every buffer that does not start with a short header of another version, and at no
other. -/
theorem noDeadWait_iff (past : UInt8) (msg : TxMessage) (buf : Bytes) :
    NoDeadWait past msg buf ↔ ¬ ShortUnknown buf := by
  refine ⟨?_, noDeadWait_of_not_short⟩
  rintro h ⟨V, ds, p, hp, h0, h1, hlt⟩
  have hlen := hp.length
  rw [length_header hp.version] at hlt
  by_cases hz : Decimal.value ds = 0
  · -- 0 is consumed, and so it is with any bytes behind it
    have hwait : ∀ s, decodeMsg 64 (some past) msg (buf ++ s) = .ok (0, msg) := fun s =>
      ((hp.append s).waits_iff (some past) msg msg (by omega)).2 ⟨h0, h1, hz, rfl⟩
    have hd := hwait []
    rw [List.append_nil] at hd
    obtain ⟨s, ⟨n, m, hn, hs⟩ | ⟨e, -, -, hs⟩⟩ := h.waits msg hd
    · rw [hwait s] at hs
      cases hs
      omega
    · rw [hwait s] at hs
      cases hs
  · have hd : decodeMsg 64 (some past) msg buf = .ok (Decimal.value ds, msg) := by
      rw [hp.decodeMsg_eq, if_neg (by omega), if_neg (by rw [not_or]; exact ⟨h0, h1⟩)]
    obtain ⟨V', ds', p', hp', hle⟩ := h.spans _ _ (Nat.pos_of_ne_zero hz) hd
    obtain ⟨rfl, rfl, rfl⟩ := hp.unique hp'
    rw [length_header hp.version] at hle
    omega

/-- A header of a version to come that announces nothing. -/
def deadHeader : Bytes := ascii "\x7bSAM0200:0:"

theorem noDeadWait_fails : ShortUnknown deadHeader ∧ ¬ NoDeadWait 0 .empty deadHeader ∧
    ∀ s, decodeMsg 64 (some 0) .empty (deadHeader ++ s) = .ok (0, .empty) := by
  have hp : Parses deadHeader (ascii "SAM0200") (ascii "0") [] :=
    ⟨by decide, by decide, List.all_eq_true.1 (by decide), by decide⟩
  have hwait : ∀ s, decodeMsg 64 (some 0) .empty (deadHeader ++ s) = .ok (0, .empty) := fun s =>
    ((hp.append s).waits_iff (some 0) .empty .empty (Nat.zero_le _)).2 (by decide)
  refine ⟨⟨_, _, _, hp, by decide, by decide, by decide⟩, fun h => ?_, hwait⟩
  obtain ⟨s, ⟨n, m, hn, hs⟩ | ⟨e, -, -, hs⟩⟩ := h.waits .empty (hwait [])
  · rw [hwait s] at hs
    cases hs
    omega
  · rw [hwait s] at hs
    cases hs

end Sam
end Exio
