import Exio.SamDecode
/-!
# SamGrammar — the frames `decodeMsg` accepts

The SAM grammar of a frame is a header, a type, and one bracketed container with the trailer behind it; `SamFrame n f`
says that the bytes `f` are such a frame and announce `n`.  The decoder's comment asks for the bracket, but `decode`
skips its first byte unread, returns at the end of the frame as it returns at a `]`, and never looks at the trailer.
`accepts_iff` says exactly what is accepted (`LooseBody`), and `accepts_samFrame_iff` for which inputs that is the
grammar: those that do not start with a frame whose root container is slack (`SlackBody`).  Containers below the root are
strict.
-/
namespace Exio
namespace Sam

open Scan (Text Token scan)

/-- **The entries between the brackets of a container**: `(N '=' (C | S) ',')*`. -/
inductive Entries : Bytes → Prop
  | nil : Entries []
  | field {nt vt rest : Bytes} : Text escape valueDelim nt → nt.head? ≠ some seqEnd → Text escape fieldDelim vt →
      vt.head? ≠ some seqStart → Entries rest → Entries (nt ++ valueDelim :: (vt ++ fieldDelim :: rest))
  | child {nt ct rest : Bytes} : Text escape valueDelim nt → nt.head? ≠ some seqEnd → Entries ct → Entries rest →
      Entries (nt ++ valueDelim :: seqStart :: (ct ++ seqEnd :: fieldDelim :: rest))

/-- **A frame up to its root container**: header, type and delimiter, with `q` behind them. -/
structure Framed (n : Nat) (V ds tt q f : Bytes) : Prop where
  version : V = sam0100 ∨ V = sam0101
  digits  : ds ≠ [] ∧ ∀ c ∈ ds, Decimal.isDigit c = true
  value   : Decimal.value ds = n
  max     : n ≤ maxMsglen
  type    : Text escape metaDelim tt
  bytes   : f = header V ds ++ (tt ++ metaDelim :: q)

/-- `f` is a frame that announces `n`, with `q` behind its type. -/
def Frame (n : Nat) (q f : Bytes) : Prop := ∃ V ds tt, Framed n V ds tt q f

/-- The bracketed container and the trailer. -/
def samBody (ct : Bytes) : Bytes := seqStart :: (ct ++ [seqEnd, msgEnd, msgDelim])

/-- **The SAM grammar.** -/
def SamFrame (n : Nat) (f : Bytes) : Prop := ∃ ct, Entries ct ∧ Frame n (samBody ct) f

/-- What the decoder takes for the root container and the trailer. -/
def LooseBody (q : Bytes) : Prop :=
  q = [] ∨ ∃ x ct, Entries ct ∧ (q = x :: ct ∨ ∃ R, q = x :: (ct ++ seqEnd :: R))

/-- **A root container the grammar does not have**: nothing at all, no closing bracket, another byte for the opening
bracket, or another trailer. -/
def SlackBody (q : Bytes) : Prop :=
  q = [] ∨ ∃ x ct, Entries ct ∧
    (q = x :: ct ∨ ∃ R, q = x :: (ct ++ seqEnd :: R) ∧ (x ≠ seqStart ∨ R ≠ [msgEnd, msgDelim]))

/-- `decodeMsg` returns `n` for a supported version. -/
def Accepts (past : UInt8) (old : TxMessage) (buf : Bytes) (n : Nat) : Prop :=
  ((buf.drop 1).take 7 = sam0100 ∨ (buf.drop 1).take 7 = sam0101) ∧ ∃ m, decodeMsg 64 (some past) old buf = .ok (n, m)

/-! ## Entries are what the decoder reads -/

theorem Items.entries {is r : List TxItem} {text : Bytes} (h : Items is text r) : Entries text := by
  induction h with
  | nil => exact .nil
  | field hn hh hv hs _ ih => exact .field ⟨_, hn⟩ hh ⟨_, hv⟩ hs ih
  | child hn hh _ _ ihc ih => exact .child ⟨_, hn⟩ hh ihc ih

theorem Entries.items {text : Bytes} (h : Entries text) : ∀ (is : List TxItem), ∃ r, Items is text r := by
  induction h with
  | nil => exact fun is => ⟨is, .nil⟩
  | field hn hh hv hs _ ih =>
    intro is
    obtain ⟨n, hn⟩ := hn
    obtain ⟨v, hv⟩ := hv
    obtain ⟨r, hr⟩ := ih (putField is n v)
    exact ⟨r, .field hn hh hv hs hr⟩
  | child hn hh _ _ ihc ih =>
    intro is
    obtain ⟨n, hn⟩ := hn
    obtain ⟨cs, hcs⟩ := ihc ((findChild n (putChild is n)).getD [])
    obtain ⟨r, hr⟩ := ih (setChild n cs (putChild is n))
    exact ⟨r, .child hn hh hcs hr⟩

/-- **`decode` on the root accepts exactly the loose bodies.** -/
theorem decode_ok_iff (past : Option UInt8) (q : Bytes) : (∃ x, decode past [] q = .ok x) ↔ LooseBody q := by
  constructor
  · rintro ⟨⟨r, rest⟩, h⟩
    cases q with
    | nil => exact .inl rfl
    | cons x l =>
      obtain ⟨text, ht, hl⟩ := decodeLoop_sound past _ _ _ _ _ h
      refine .inr ⟨x, text, ht.entries, ?_⟩
      rw [List.drop_succ_cons, List.drop_zero] at hl
      rcases hl with rfl | ⟨rfl, -⟩
      · exact .inr ⟨rest, rfl⟩
      · exact .inl rfl
  · rintro (rfl | ⟨x, ct, hct, hq⟩)
    · exact ⟨_, rfl⟩
    · obtain ⟨r, hr⟩ := hct.items []
      rcases hq with rfl | ⟨R, rfl⟩
      · have := decodeLoop_complete hr past (ct.length + 1 + 1) [] (by omega) (.inl rfl)
        rw [List.append_nil] at this
        exact ⟨_, this⟩
      · refine ⟨_, decodeLoop_complete hr past _ (seqEnd :: R) ?_ (.inr ⟨R, rfl⟩)⟩
        simp only [List.length_cons, List.length_append]
        omega

/-- A body read to the end of the frame is not one read to a bracket, and the bytes behind the bracket are determined:
both are the decoder's answer on the same bytes. -/
theorem entries_end {ct ct' : Bytes} (tl tl' : Bytes) (h : Entries ct) (h' : Entries ct') (htl : tl = [] ∨ ∃ R, tl = seqEnd :: R)
    (htl' : tl' = [] ∨ ∃ R, tl' = seqEnd :: R) (he : ct ++ tl = ct' ++ tl') : tl.drop 1 = tl'.drop 1 := by
  obtain ⟨r, hr⟩ := h.items []
  obtain ⟨r', hr'⟩ := h'.items []
  have e := decodeLoop_complete hr none (ct.length + ct'.length + 1) tl (by omega) htl
  have e' := decodeLoop_complete hr' none (ct.length + ct'.length + 1) tl' (by omega) htl'
  rw [he, e'] at e
  simp only [Except.ok.injEq, Prod.mk.injEq] at e
  exact e.2.symm

theorem slackBody_not_samBody {q ct : Bytes} (h : SlackBody q) (hct : Entries ct) : q ≠ samBody ct := by
  rintro rfl
  rcases h with h | ⟨x, ct', hct', h | ⟨R, h, hne⟩⟩
  · cases h
  · simp only [samBody, List.cons.injEq] at h
    have := entries_end [seqEnd, msgEnd, msgDelim] [] hct hct' (.inr ⟨_, rfl⟩) (.inl rfl)
      (by rw [List.append_nil]; exact h.2)
    cases this
  · simp only [samBody, List.cons.injEq] at h
    have := entries_end [seqEnd, msgEnd, msgDelim] (seqEnd :: R) hct hct' (.inr ⟨_, rfl⟩) (.inr ⟨_, rfl⟩) h.2
    rw [List.drop_succ_cons, List.drop_zero, List.drop_succ_cons, List.drop_zero] at this
    rcases hne with hne | hne
    · exact hne h.1.symm
    · exact hne this.symm

theorem looseBody_iff (q : Bytes) : LooseBody q ↔ SlackBody q ∨ ∃ ct, Entries ct ∧ q = samBody ct := by
  constructor
  · rintro (h | ⟨x, ct, hct, h | ⟨R, h⟩⟩)
    · exact .inl (.inl h)
    · exact .inl (.inr ⟨x, ct, hct, .inl h⟩)
    · by_cases hx : x = seqStart ∧ R = [msgEnd, msgDelim]
      · obtain ⟨rfl, rfl⟩ := hx
        exact .inr ⟨ct, hct, h⟩
      · exact .inl (.inr ⟨x, ct, hct, .inr ⟨R, h, not_and_or.1 hx⟩⟩)
  · rintro ((h | ⟨x, ct, hct, h | ⟨R, h, -⟩⟩) | ⟨ct, hct, h⟩)
    · exact .inl h
    · exact .inr ⟨x, ct, hct, .inl h⟩
    · exact .inr ⟨x, ct, hct, .inr ⟨R, h⟩⟩
    · exact .inr ⟨seqStart, ct, hct, .inr ⟨_, h⟩⟩

/-! ## The header -/

/-- A digit run the loop accepted. -/
theorem readMsglen_ok : ∀ (l : Bytes) (a n : Nat) (r : Bytes), a ≤ maxMsglen → readMsglen 64 a l = .ok (n, r) →
    ∃ ds, l = ds ++ r ∧ (∀ c ∈ ds, Decimal.isDigit c = true) ∧
      n = ds.foldl (fun a c => a * 10 + Decimal.digit c) a ∧ n ≤ maxMsglen
  | [], a, n, r, ha, h => by
    simp only [readMsglen, Except.ok.injEq, Prod.mk.injEq] at h
    obtain ⟨rfl, rfl⟩ := h
    exact ⟨[], rfl, by simp, rfl, ha⟩
  | c :: l, a, n, r, ha, h => by
    rw [readMsglen] at h
    split at h
    · rename_i hc
      have hdig : Decimal.digit c < 16 := by
        have : (c &&& 15).toNat ≤ 15 := by rw [UInt8.toNat_and]; exact Nat.and_le_right
        simp only [Decimal.digit]
        omega
      have hmod : (a * 10 + Decimal.digit c) % 2 ^ 64 = a * 10 + Decimal.digit c :=
        Nat.mod_eq_of_lt (by simp only [maxMsglen] at ha; omega)
      simp only [hmod] at h
      split at h
      · cases h
      · obtain ⟨ds, rfl, hds, hn, hmax⟩ := readMsglen_ok l _ n r (by omega) h
        refine ⟨c :: ds, rfl, ?_, hn, hmax⟩
        intro x hx
        rcases List.mem_cons.1 hx with rfl | hx
        · exact hc
        · exact hds x hx
    · simp only [Except.ok.injEq, Prod.mk.injEq] at h
      obtain ⟨rfl, rfl⟩ := h
      exact ⟨[], rfl, by simp, rfl, ha⟩

/-- **The header that `decodeMsg` reads at the front of a buffer**, with `p` behind it. -/
structure Parses (buf V ds p : Bytes) : Prop where
  bytes   : buf = header V ds ++ p
  version : V.length = 7
  digits  : ∀ c ∈ ds, Decimal.isDigit c = true
  max     : Decimal.value ds ≤ maxMsglen

theorem Parses.length {buf V ds p : Bytes} (h : Parses buf V ds p) : buf.length = 10 + ds.length + p.length := by
  rw [h.bytes, List.length_append, length_header h.version]

theorem Parses.append {buf V ds p : Bytes} (h : Parses buf V ds p) (s : Bytes) : Parses (buf ++ s) V ds (p ++ s) :=
  { h with bytes := by rw [h.bytes, List.append_assoc] }

/-- A buffer has one header. -/
theorem Parses.unique {buf V ds p V' ds' p' : Bytes} (h : Parses buf V ds p) (h' : Parses buf V' ds' p') :
    V = V' ∧ ds = ds' ∧ p = p' := by
  have e := h.bytes.symm.trans h'.bytes
  simp only [header, List.cons_append, List.append_assoc, List.nil_append, List.cons.injEq, true_and] at e
  obtain ⟨hV, e⟩ := List.append_inj e (by rw [h.version, h'.version])
  rw [List.cons.injEq] at e
  have hscan := Scan.scan_token escape_ne_metaDelim (digits_token h.digits) p
  rw [e.2, Scan.scan_token escape_ne_metaDelim (digits_token h'.digits), Prod.mk.injEq, List.cons.injEq] at hscan
  exact ⟨hV, hscan.1.symm, hscan.2.2.symm⟩

/-- `decodeMsg` behind a whole header. -/
theorem Parses.decodeMsg_eq {buf V ds p : Bytes} (h : Parses buf V ds p) (past : Option UInt8) (msg : TxMessage) :
    decodeMsg 64 past msg buf =
      if buf.length < Decimal.value ds then .ok (0, msg)
      else if V = sam0100 ∨ V = sam0101 then
        match decodeBody (peek past (buf.drop (Decimal.value ds))) ((buf.take (Decimal.value ds)).drop (10 + ds.length)) with
        | .error e => .error e
        | .ok m    => .ok (Decimal.value ds, m)
      else .ok (Decimal.value ds, msg) := by
  rw [h.bytes]
  exact decodeMsg_header (by decide) past msg p h.version h.digits h.max

/-- **What can stand at the front of a buffer**: less than a version, something that is rejected, a header whose digits
are not at their end, or a header. -/
theorem header_cases (buf : Bytes) :
    buf.length < 9 ∨ (∃ e, ∀ past msg, decodeMsg 64 past msg buf = .error e) ∨
      (∃ V ds, V.length = 7 ∧ (∀ c ∈ ds, Decimal.isDigit c = true) ∧ Decimal.value ds ≤ maxMsglen ∧
        buf = msgStart :: (V ++ metaDelim :: ds)) ∨
      ∃ V ds p, Parses buf V ds p := by
  by_cases h9 : buf.length < 9
  · exact .inl h9
  by_cases hbad : buf.head? ≠ some msgStart ∨ (buf.drop 8).head? ≠ some metaDelim
  · exact .inr (.inl ⟨.badHeader, fun past msg => by rw [decodeMsg, if_neg h9, if_pos hbad]⟩)
  obtain ⟨V, l, hV, rfl⟩ : ∃ V l, V.length = 7 ∧ buf = msgStart :: (V ++ metaDelim :: l) := by
    rw [not_or, not_not, not_not] at hbad
    obtain ⟨h0, h8⟩ := hbad
    cases buf with
    | nil => cases h0
    | cons b l =>
      rw [List.head?_cons, Option.some.injEq] at h0
      rw [List.drop_succ_cons] at h8
      rw [List.length_cons] at h9
      refine ⟨l.take 7, l.drop 8, by rw [List.length_take]; omega, ?_⟩
      cases hl : l.drop 7 with
      | nil => rw [hl] at h8; cases h8
      | cons x l' =>
        rw [hl, List.head?_cons, Option.some.injEq] at h8
        have hdrop : l.drop 8 = l' := by
          rw [show l.drop 8 = (l.drop 7).drop 1 by rw [List.drop_drop], hl]; rfl
        rw [h0, hdrop, ← h8, ← hl, List.take_append_drop]
  have hds : (msgStart :: (V ++ metaDelim :: l)).drop 9 = l := by
    rw [List.drop_succ_cons, show 8 = V.length + 1 by rw [hV], ← List.drop_drop, List.drop_left]; rfl
  cases hread : readMsglen 64 0 l with
  | error e => exact .inr (.inl ⟨e, fun past msg => by rw [decodeMsg, if_neg h9, if_neg hbad, hds, hread]⟩)
  | ok x =>
    obtain ⟨msglen, rest⟩ := x
    obtain ⟨ds, rfl, hdig, hval, hmax⟩ := readMsglen_ok _ _ _ _ (by decide) hread
    have hmax' : Decimal.value ds ≤ maxMsglen := by rw [Decimal.value, ← hval]; exact hmax
    cases rest with
    | nil => exact .inr (.inr (.inl ⟨V, ds, hV, hdig, hmax', by rw [List.append_nil]⟩))
    | cons c p =>
      by_cases hc : c = metaDelim
      · exact .inr (.inr (.inr ⟨V, ds, p, ⟨by rw [hc]; simp [header], hV, hdig, hmax'⟩⟩))
      · refine .inr (.inl ⟨.badMsglen, fun past msg => ?_⟩)
        rw [decodeMsg, if_neg h9, if_neg hbad, hds, hread]
        simp only [ne_eq, hc, not_false_eq_true, if_true]

/-- A header whose digits go on to the end of the buffer waits, and is rejected when something else follows. -/
theorem decodeMsg_digits {V ds : Bytes} (hV : V.length = 7) (hdig : ∀ c ∈ ds, Decimal.isDigit c = true)
    (hmax : Decimal.value ds ≤ maxMsglen) (past : Option UInt8) (msg : TxMessage) :
    decodeMsg 64 past msg (msgStart :: (V ++ metaDelim :: ds)) = .ok (0, msg) ∧
      decodeMsg 64 past msg (msgStart :: (V ++ metaDelim :: ds) ++ [0]) = .error .badMsglen := by
  have hparts : ∀ l : Bytes, ¬ (msgStart :: (V ++ metaDelim :: l)).length < 9 ∧
      ((msgStart :: (V ++ metaDelim :: l)).drop 8).head? = some metaDelim ∧
      (msgStart :: (V ++ metaDelim :: l)).drop 9 = l := by
    intro l
    refine ⟨?_, ?_, ?_⟩
    · simp only [List.length_cons, List.length_append, hV]; omega
    · rw [List.drop_succ_cons, ← hV, List.drop_left]; rfl
    · rw [List.drop_succ_cons, show 8 = V.length + 1 by rw [hV], ← List.drop_drop, List.drop_left]; rfl
  constructor
  · obtain ⟨h9, h8, hds⟩ := hparts ds
    have hread : readMsglen 64 0 ds = .ok (Decimal.value ds, []) := by
      have := readMsglen_digits (w := 64) (by decide) ds 0 [] hdig hmax (fun c hc => by cases hc)
      rwa [List.append_nil] at this
    rw [decodeMsg, if_neg h9, if_neg (by rw [h8]; simp), hds, hread]
  · obtain ⟨h9, h8, hds⟩ := hparts (ds ++ [0])
    have hread : readMsglen 64 0 (ds ++ [0]) = .ok (Decimal.value ds, [0]) :=
      readMsglen_digits (by decide) ds 0 [0] hdig hmax (fun c hc => by cases hc; rfl)
    rw [List.cons_append, List.append_assoc, List.cons_append, decodeMsg, if_neg h9, if_neg (by rw [h8]; simp), hds, hread]
    rfl

/-- **A `decodeMsg` that consumed something, unpacked.** -/
theorem decodeMsg_parses {past : Option UInt8} {old m : TxMessage} {buf : Bytes} {n : Nat} (hn : 0 < n)
    (h : decodeMsg 64 past old buf = .ok (n, m)) : ∃ V ds p, Parses buf V ds p ∧ Decimal.value ds = n := by
  rcases header_cases buf with h9 | ⟨e, he⟩ | ⟨V, ds, hV, hdig, hmax, rfl⟩ | ⟨V, ds, p, hp⟩
  · rw [decodeMsg, if_pos h9] at h
    cases h
    omega
  · rw [he] at h
    cases h
  · rw [(decodeMsg_digits hV hdig hmax past old).1] at h
    cases h
    omega
  · refine ⟨V, ds, p, hp, ?_⟩
    rw [hp.decodeMsg_eq] at h
    split at h
    · cases h; omega
    split at h
    · split at h
      · cases h
      · cases h; rfl
    · cases h; rfl

/-- **A `decodeMsg` that consumed a supported frame, unpacked.** -/
theorem decodeMsg_ok {past : Option UInt8} {old m : TxMessage} {buf : Bytes} {n : Nat} (hn : 0 < n)
    (hv : (buf.drop 1).take 7 = sam0100 ∨ (buf.drop 1).take 7 = sam0101) (h : decodeMsg 64 past old buf = .ok (n, m)) :
    ∃ V ds p, buf = header V ds ++ p ∧ (V = sam0100 ∨ V = sam0101) ∧ (∀ c ∈ ds, Decimal.isDigit c = true) ∧
      Decimal.value ds = n ∧ n ≤ maxMsglen ∧ n ≤ buf.length ∧
      decodeBody (peek past (buf.drop n)) ((buf.take n).drop (10 + ds.length)) = .ok m := by
  obtain ⟨V, ds, p, hp, hval⟩ := decodeMsg_parses hn h
  have hver : (buf.drop 1).take 7 = V := by
    rw [hp.bytes, header, List.cons_append, List.drop_succ_cons, List.drop_zero, List.append_assoc, ← hp.version,
      List.take_left]
  rw [hver] at hv
  rw [hp.decodeMsg_eq, hval, if_pos hv] at h
  split at h
  · cases h; omega
  rename_i hlen
  split at h
  · cases h
  rename_i m' hbody
  cases h
  exact ⟨V, ds, p, hp.bytes, hv, hp.digits, hval, hval ▸ hp.max, by omega, hbody⟩

theorem length_version {V : Bytes} (h : V = sam0100 ∨ V = sam0101) : V.length = 7 := by
  rcases h with rfl | rfl <;> decide

/-- **What stands behind a frame's type is determined by its bytes.** -/
theorem Frame.unique {n n' : Nat} {q q' f : Bytes} (h : Frame n q f) (h' : Frame n' q' f) : n = n' ∧ q = q' := by
  obtain ⟨V, ds, tt, hf⟩ := h
  obtain ⟨V', ds', tt', hf'⟩ := h'
  have e := hf.bytes.symm.trans hf'.bytes
  simp only [header, List.cons_append, List.append_assoc, List.nil_append, List.cons.injEq, true_and] at e
  obtain ⟨-, e⟩ := List.append_inj e (by rw [length_version hf.version, length_version hf'.version])
  rw [List.cons.injEq] at e
  have s := Scan.scan_token escape_ne_metaDelim (digits_token hf.digits.2) (tt ++ metaDelim :: q)
  rw [e.2, Scan.scan_token escape_ne_metaDelim (digits_token hf'.digits.2), Prod.mk.injEq, List.cons.injEq] at s
  obtain ⟨hds, -, e⟩ := s
  obtain ⟨t, ht⟩ := hf.type
  obtain ⟨t', ht'⟩ := hf'.type
  have s := Scan.scan_token escape_ne_metaDelim ht q
  rw [← e, Scan.scan_token escape_ne_metaDelim ht', Prod.mk.injEq, List.cons.injEq] at s
  exact ⟨by rw [← hf.value, ← hf'.value, hds], s.2.2.symm⟩

/-- **What `decodeMsg` accepts**: a frame of the announced length with a loose body. -/
theorem accepts_iff (past : UInt8) (old : TxMessage) (buf : Bytes) {n : Nat} (hn : 0 < n) :
    Accepts past old buf n ↔ n ≤ buf.length ∧ ∃ q, Frame n q (buf.take n) ∧ LooseBody q := by
  constructor
  · rintro ⟨hv, m, h⟩
    obtain ⟨V, ds, p, hbuf, hV, hds, hval, hmax, hlen, hbody⟩ := decodeMsg_ok hn hv h
    obtain ⟨tt, q, rest, htt, hp, hd⟩ := decodeBody_ok hbody
    have hne : ds ≠ [] := by
      rintro rfl
      rw [← hval] at hn
      exact absurd hn (by decide)
    have hpre : buf.take n = header V ds ++ (tt ++ metaDelim :: q) := by
      rw [← hp, ← length_header (length_version hV)]
      have hpos : (header V ds).length < n := by
        have := congrArg List.length hp
        rw [List.length_drop, List.length_take, ← length_header (length_version hV), List.length_append,
          List.length_cons] at this
        omega
      have hhd : (buf.take n).take (header V ds).length = header V ds := by
        rw [List.take_take, Nat.min_eq_left (by omega), hbuf, List.take_left]
      have := List.take_append_drop (header V ds).length (buf.take n)
      rw [hhd] at this
      exact this.symm
    exact ⟨hlen, q, ⟨V, ds, tt, hV, ⟨hne, hds⟩, hval, hmax, ⟨_, htt⟩, hpre⟩, (decode_ok_iff _ q).1 ⟨_, hd⟩⟩
  · rintro ⟨hlen, q, ⟨V, ds, tt, hf⟩, hq⟩
    obtain ⟨x, hx⟩ := (decode_ok_iff (peek (some past) (buf.drop n)) q).2 hq
    obtain ⟨t, ht⟩ := hf.type
    have hbuf : buf = header V ds ++ (tt ++ metaDelim :: q ++ buf.drop n) := by
      rw [← List.append_assoc, ← hf.bytes, List.take_append_drop]
    have hbody := decodeBody_eq (peek (some past) (buf.drop n)) ht q
    rw [hx] at hbody
    have hver : (buf.drop 1).take 7 = V := by
      rw [hbuf, header, List.cons_append, List.drop_succ_cons, List.drop_zero, List.append_assoc,
        ← length_version hf.version, List.take_left]
    refine ⟨by rw [hver]; exact hf.version, ⟨t, x.1⟩, ?_⟩
    have hdec := decodeMsg_header (w := 64) (by decide) (some past) old (tt ++ metaDelim :: q ++ buf.drop n)
      (length_version hf.version) hf.digits.2 (by rw [hf.value]; exact hf.max)
    rw [← hbuf, hf.value, if_neg (by omega), if_pos hf.version, hf.bytes, ← length_header (length_version hf.version),
      List.drop_left, hbody] at hdec
    exact hdec

/-- **`decodeMsg` accepts exactly the SAM grammar on the inputs that do not start with a slack frame**, and on no
others. -/
theorem accepts_samFrame_iff (past : UInt8) (old : TxMessage) (buf : Bytes) :
    (∀ n, 0 < n → (Accepts past old buf n ↔ n ≤ buf.length ∧ SamFrame n (buf.take n))) ↔
      ¬ ∃ n q, n ≤ buf.length ∧ Frame n q (buf.take n) ∧ SlackBody q := by
  constructor
  · rintro h ⟨n, q, hlen, hf, hq⟩
    have hn : 0 < n := by
      rcases Nat.eq_zero_or_pos n with rfl | hn
      · obtain ⟨V, ds, tt, hf⟩ := hf
        have := hf.bytes
        rw [List.take_zero] at this
        cases this
      · exact hn
    have hacc := (accepts_iff past old buf hn).2 ⟨hlen, q, hf, (looseBody_iff q).2 (.inl hq)⟩
    obtain ⟨-, ct, hct, hf'⟩ := (h n hn).1 hacc
    exact slackBody_not_samBody hq hct (hf.unique hf').2
  · intro h n hn
    rw [accepts_iff past old buf hn]
    refine and_congr_right (fun hlen => ⟨?_, ?_⟩)
    · rintro ⟨q, hf, hq⟩
      rcases (looseBody_iff q).1 hq with hq | ⟨ct, hct, rfl⟩
      · exact absurd ⟨n, q, hlen, hf, hq⟩ h
      · exact ⟨ct, hct, hf⟩
    · rintro ⟨ct, hct, hf⟩
      exact ⟨samBody ct, hf, (looseBody_iff _).2 (.inr ⟨ct, hct, rfl⟩)⟩

/-- A frame whose root container opens with a parenthesis. -/
def unbracketed : Bytes := ascii "\x7bSAM0100:18:t:(]\x7d\n"

theorem accepts_unbracketed : Accepts 0 .empty unbracketed 18 ∧ ¬ SamFrame 18 (unbracketed.take 18) := by
  refine ⟨⟨.inl (by decide), ⟨ascii "t", []⟩, by decide⟩, fun ⟨ct, hct, hf⟩ => ?_⟩
  have hq : Frame 18 (ascii "(]\x7d\n") (unbracketed.take 18) :=
    ⟨sam0100, ascii "18", ascii "t", .inl rfl, ⟨by decide, List.all_eq_true.1 (by decide)⟩, by decide, by decide,
      ⟨_, Scan.token_plain _ (by decide) (by decide)⟩, by decide⟩
  have := (hf.unique hq).2
  simp only [samBody, ascii] at this
  exact absurd (List.cons.inj this).1 (by decide)

end Sam
end Exio
