import Exio.Sam
/-!
# SamDecode — reading a message

`decodeMsg` (`sam.cc`) reads a header, waits until the announced length is there, and hands the frame to the recursive
`decode`.  The cursor `p` is the list of bytes from `p` up to `end`.  `decode` looks at `*p` after a `=` without asking
whether `p < end`; `past` is the byte that lies there, and a run with `past = none` stops at that read.

`Items is text r` is what `decode` reads between the brackets: entries that turn the items `is` into `r`.  The recursive
decoder accepts exactly those texts (`decodeLoop_complete`, `decodeLoop_sound`): inside a frame, up to a `]` or up to the
frame's end.
-/
namespace Exio
namespace Sam

open Scan (scan Token)

/-! ## The recursive decoder -/

inductive DecodeError where
  | badHeader
  | tooLong
  | badMsglen
  | missingType
  | noValueDelim
  | notValueDelim
  | noFieldDelim
  | notFieldDelim
  | overrun
  | outOfFuel
deriving DecidableEq

/-- The text of the `std::runtime_error`; the last two are not errors of the source. -/
def DecodeError.what : DecodeError → Bytes
  | .badHeader     => ascii "bad SAM header"
  | .tooLong       => ascii "SAM message exceeds maximum length"
  | .badMsglen     => ascii "SAM header bad msglen"
  | .missingType   => ascii "SAM header missing message type"
  | .noValueDelim  => ascii "ran out of data, expected field-value-delim"
  | .notValueDelim => ascii "failed to find field-value-delim"
  | .noFieldDelim  => ascii "ran out of data when expecting field delim"
  | .notFieldDelim => ascii "expected field delim"
  | .overrun       => []
  | .outOfFuel     => []

/-- The byte at the cursor, also where the cursor is at `end`. -/
def peek (past : Option UInt8) : Bytes → Option UInt8
  | []     => past
  | c :: _ => some c

/-- The tail of the loop of `decode`: the field delimiter, then the next turn. -/
def fieldEnd (next : Bytes → Except DecodeError (List TxItem × Bytes)) : Bytes →
    Except DecodeError (List TxItem × Bytes)
  | []     => .error .noFieldDelim
  | c :: p => if c ≠ fieldDelim then .error .notFieldDelim else next p

/-- The second half of a turn: the value behind `fieldname=`, a container or a string, then the field delimiter. -/
def decodeValue (next : List TxItem → Bytes → Except DecodeError (List TxItem × Bytes)) (past : Option UInt8)
    (parent : List TxItem) (fieldname p : Bytes) : Except DecodeError (List TxItem × Bytes) :=
  match peek past p with
  | none   => .error .overrun
  | some b =>
    if b = seqStart then
      let parent := putChild parent fieldname
      match next ((findChild fieldname parent).getD []) (p.drop 1) with
      | .error e         => .error e
      | .ok (subcont, p) => fieldEnd (next (setChild fieldname subcont parent)) p
    else
      let value := scan escape fieldDelim p
      fieldEnd (next (putField parent fieldname value.1)) value.2

/-- The loop of `decode`, from behind the opening bracket: the items of the container, and the bytes not parsed. -/
def decodeLoop (past : Option UInt8) : Nat → List TxItem → Bytes → Except DecodeError (List TxItem × Bytes)
  | 0, _, _                  => .error .outOfFuel
  | _ + 1, parent, []        => .ok (parent, [])
  | fuel + 1, parent, c :: p =>
    if c = seqEnd then .ok (parent, p)
    else
      match scan escape valueDelim (c :: p) with
      | (_, [])             => .error .noValueDelim
      | (fieldname, d :: p) =>
        if d ≠ valueDelim then .error .notValueDelim else decodeValue (decodeLoop past fuel) past parent fieldname p

/-- `decode`: the first byte is skipped, whatever it is.  Every turn of the loop takes a byte or more. -/
def decode (past : Option UInt8) (parent : List TxItem) (p : Bytes) : Except DecodeError (List TxItem × Bytes) :=
  decodeLoop past (p.length + 1) parent (p.drop 1)

/-! ## The frame -/

def maxMsglen : Nat := 2147483647

/-- The digit loop over a `size_t` of `w` bits: the length, and the bytes behind the digits. -/
def readMsglen (w : Nat) : Nat → Bytes → Except DecodeError (Nat × Bytes)
  | msglen, []     => .ok (msglen, [])
  | msglen, c :: p =>
    if Decimal.isDigit c then
      let msglen := (msglen * 10 + Decimal.digit c) % 2 ^ w
      if maxMsglen < msglen then .error .tooLong else readMsglen w msglen p
    else .ok (msglen, c :: p)

/-- The part of `decodeMsg` behind the length: the frame's bytes behind the header's third delimiter. -/
def decodeBody (past : Option UInt8) (p : Bytes) : Except DecodeError TxMessage :=
  match scan escape metaDelim p with
  | (_, [])     => .error .missingType
  | (vs, c :: p) =>
    if c ≠ metaDelim then .error .missingType
    else
      match decode past [] p with
      | .error e         => .error e
      | .ok (root, _) => .ok ⟨vs, root⟩

/-- `decodeMsg` over a `size_t` of `w` bits: the bytes consumed, and what the message is then. -/
def decodeMsg (w : Nat) (past : Option UInt8) (msg : TxMessage) (buf : Bytes) : Except DecodeError (Nat × TxMessage) :=
  if buf.length < 9 then .ok (0, msg)
  else if buf.head? ≠ some msgStart ∨ (buf.drop 8).head? ≠ some metaDelim then .error .badHeader
  else
    match readMsglen w 0 (buf.drop 9) with
    | .error e        => .error e
    | .ok (_, [])     => .ok (0, msg)
    | .ok (msglen, c :: p) =>
      if c ≠ metaDelim then .error .badMsglen
      else if buf.length < msglen then .ok (0, msg)
      else if (buf.drop 1).take 7 = sam0100 ∨ (buf.drop 1).take 7 = sam0101 then
        match decodeBody (peek past (buf.drop msglen)) ((buf.take msglen).drop (buf.length - p.length)) with
        | .error e => .error e
        | .ok m    => .ok (msglen, m)
      else .ok (msglen, msg)

/-! ## What the recursive decoder reads -/

/-- **The entries of a container as written, and the items they make of `is`.** -/
inductive Items : List TxItem → Bytes → List TxItem → Prop
  | nil {is : List TxItem} : Items is [] is
  | field {is r : List TxItem} {nt n vt v rest : Bytes} : Token escape valueDelim nt n → nt.head? ≠ some seqEnd →
      Token escape fieldDelim vt v → vt.head? ≠ some seqStart → Items (putField is n v) rest r →
      Items is (nt ++ valueDelim :: (vt ++ fieldDelim :: rest)) r
  | child {is cs r : List TxItem} {nt n ct rest : Bytes} : Token escape valueDelim nt n → nt.head? ≠ some seqEnd →
      Items ((findChild n (putChild is n)).getD []) ct cs → Items (setChild n cs (putChild is n)) rest r →
      Items is (nt ++ valueDelim :: seqStart :: (ct ++ seqEnd :: fieldDelim :: rest)) r

theorem escape_ne_valueDelim : escape ≠ valueDelim := by decide

theorem escape_ne_fieldDelim : escape ≠ fieldDelim := by decide

theorem escape_ne_metaDelim : escape ≠ metaDelim := by decide

theorem fieldEnd_ok {next : Bytes → Except DecodeError (List TxItem × Bytes)} {p : Bytes} {x : List TxItem × Bytes}
    (h : fieldEnd next p = .ok x) : ∃ q, p = fieldDelim :: q ∧ next q = .ok x := by
  cases p with
  | nil => cases h
  | cons c q =>
    rw [fieldEnd] at h
    split at h
    · cases h
    · rename_i hc
      exact ⟨q, by rw [not_not.1 hc], h⟩

/-- **A value that was read, unpacked**: a container or a string, and the field delimiter. -/
theorem decodeValue_ok {next : List TxItem → Bytes → Except DecodeError (List TxItem × Bytes)} {past : Option UInt8}
    {is : List TxItem} {n p : Bytes} {x : List TxItem × Bytes} (h : decodeValue next past is n p = .ok x) :
    (∃ cs q, peek past p = some seqStart ∧
      next ((findChild n (putChild is n)).getD []) (p.drop 1) = .ok (cs, fieldDelim :: q) ∧
      next (setChild n cs (putChild is n)) q = .ok x) ∨
    ∃ vt v q, Token escape fieldDelim vt v ∧ vt.head? ≠ some seqStart ∧ p = vt ++ fieldDelim :: q ∧
      next (putField is n v) q = .ok x := by
  rw [decodeValue] at h
  split at h
  · cases h
  rename_i b hb
  split at h
  · rename_i hbs
    simp only at h
    split at h
    · cases h
    rename_i cs q' hcs
    obtain ⟨q, rfl, h⟩ := fieldEnd_ok h
    exact .inl ⟨cs, q, by rw [hb, hbs], hcs, h⟩
  · rename_i hbs
    obtain ⟨q, hq, h⟩ := fieldEnd_ok h
    obtain ⟨-, vt, hv, hp⟩ := Scan.scan_sound p _ _ _ (Prod.ext rfl hq)
    refine .inr ⟨vt, _, q, hv, ?_, hp, h⟩
    intro hvt
    cases vt with
    | nil => cases hvt
    | cons y vt =>
      rw [hp, List.cons_append, peek, Option.some.injEq] at hb
      exact hbs (by rw [← hb]; simpa using hvt)

/-- A text before its delimiter starts as the whole does. -/
theorem head_ne_of_cons {x c : UInt8} {p t r : Bytes} (h : c :: p = t ++ r) (hc : ¬ c = x) : t.head? ≠ some x := by
  intro ht
  cases t with
  | nil => cases ht
  | cons y t =>
    rw [List.cons_append, List.cons.injEq] at h
    exact hc (by rw [h.1]; simpa using ht)

/-- A name before its `=` does not start like the end of the container. -/
theorem name_cons {nt : Bytes} (h : nt.head? ≠ some seqEnd) (r : Bytes) :
    ∃ c p, nt ++ valueDelim :: r = c :: p ∧ c ≠ seqEnd := by
  cases nt with
  | nil => exact ⟨valueDelim, r, rfl, by decide⟩
  | cons c p => exact ⟨c, p ++ valueDelim :: r, rfl, fun hc => h (by rw [hc]; rfl)⟩

theorem value_peek {vt : Bytes} (h : vt.head? ≠ some seqStart) (past : Option UInt8) (r : Bytes) :
    ∃ b, peek past (vt ++ fieldDelim :: r) = some b ∧ b ≠ seqStart := by
  cases vt with
  | nil => exact ⟨fieldDelim, rfl, by decide⟩
  | cons c p => exact ⟨c, rfl, fun hc => h (by rw [hc]; rfl)⟩

/-- One turn of the loop, up to the `=`. -/
theorem decodeLoop_name {past : Option UInt8} {fuel : Nat} {is : List TxItem} {nt n : Bytes}
    (hn : Token escape valueDelim nt n) (hh : nt.head? ≠ some seqEnd) (p : Bytes) :
    decodeLoop past (fuel + 1) is (nt ++ valueDelim :: p) = decodeValue (decodeLoop past fuel) past is n p := by
  have hscan := Scan.scan_token escape_ne_valueDelim hn p
  obtain ⟨c, q, hcq, hc⟩ := name_cons hh p
  rw [hcq] at hscan ⊢
  simp only [decodeLoop, if_neg hc, hscan]
  rfl

/-- **What a turn of the loop can begin with**: a `]`, bytes without a `=`, or a name and its `=`. -/
theorem decodeLoop_cases (past : Option UInt8) (fuel : Nat) (is : List TxItem) (c : UInt8) (p : Bytes) :
    (c = seqEnd ∧ decodeLoop past (fuel + 1) is (c :: p) = .ok (is, p)) ∨
    decodeLoop past (fuel + 1) is (c :: p) = .error .noValueDelim ∨
    ∃ nt n q, Token escape valueDelim nt n ∧ nt.head? ≠ some seqEnd ∧ c :: p = nt ++ valueDelim :: q := by
  by_cases hc : c = seqEnd
  · exact .inl ⟨hc, by rw [decodeLoop, if_pos hc]⟩
  · rcases hscan : scan escape valueDelim (c :: p) with ⟨n, rest⟩
    cases rest with
    | nil => exact .inr (.inl (by rw [decodeLoop, if_neg hc, hscan]))
    | cons d q =>
      obtain ⟨rfl, nt, hn, hl⟩ := Scan.scan_sound _ _ _ _ hscan
      exact .inr (.inr ⟨nt, n, q, hn, head_ne_of_cons hl hc, hl⟩)

/-- One turn of the loop over an entry that is a field. -/
theorem decodeLoop_field {past : Option UInt8} {fuel : Nat} {is : List TxItem} {nt n vt v rest : Bytes}
    (hn : Token escape valueDelim nt n) (hh : nt.head? ≠ some seqEnd) (hv : Token escape fieldDelim vt v)
    (hs : vt.head? ≠ some seqStart) :
    decodeLoop past (fuel + 1) is (nt ++ valueDelim :: (vt ++ fieldDelim :: rest)) =
      decodeLoop past fuel (putField is n v) rest := by
  obtain ⟨b, hb, hbs⟩ := value_peek hs past rest
  rw [decodeLoop_name hn hh]
  simp only [decodeValue, hb, if_neg hbs, Scan.scan_token escape_ne_fieldDelim hv rest]
  rfl

/-- One turn of the loop over an entry that is a container. -/
theorem decodeLoop_child {past : Option UInt8} {fuel : Nat} {is cs : List TxItem} {nt n l rest : Bytes}
    (hn : Token escape valueDelim nt n) (hh : nt.head? ≠ some seqEnd)
    (hc : decodeLoop past fuel ((findChild n (putChild is n)).getD []) l = .ok (cs, fieldDelim :: rest)) :
    decodeLoop past (fuel + 1) is (nt ++ valueDelim :: seqStart :: l) =
      decodeLoop past fuel (setChild n cs (putChild is n)) rest := by
  rw [decodeLoop_name hn hh]
  simp only [decodeValue, peek, if_true, List.drop_succ_cons, List.drop_zero, hc]
  rfl

/-- **The entries of a container are read to the `]` behind them, or to the end of the bytes.** -/
theorem decodeLoop_complete {is r : List TxItem} {text : Bytes} (h : Items is text r) (past : Option UInt8) :
    ∀ (fuel : Nat) (tl : Bytes), text.length < fuel → (tl = [] ∨ ∃ rest, tl = seqEnd :: rest) →
      decodeLoop past fuel is (text ++ tl) = .ok (r, tl.drop 1) := by
  induction h with
  | nil =>
    intro fuel tl hf htl
    obtain ⟨k, rfl⟩ : ∃ k, fuel = k + 1 := ⟨fuel - 1, by simp only [List.length_nil] at hf; omega⟩
    rcases htl with rfl | ⟨rest, rfl⟩
    · rfl
    · simp [decodeLoop]
  | @field is r nt n vt v rest hn hh hv hs _ ih =>
    intro fuel tl hf htl
    obtain ⟨k, rfl⟩ : ∃ k, fuel = k + 1 := ⟨fuel - 1, by omega⟩
    have e : nt ++ valueDelim :: (vt ++ fieldDelim :: rest) ++ tl
        = nt ++ valueDelim :: (vt ++ fieldDelim :: (rest ++ tl)) := by simp
    rw [e, decodeLoop_field hn hh hv hs]
    refine ih k tl ?_ htl
    simp only [List.length_append, List.length_cons] at hf
    omega
  | @child is cs r nt n ct rest hn hh _ _ ihc ih =>
    intro fuel tl hf htl
    obtain ⟨k, rfl⟩ : ∃ k, fuel = k + 1 := ⟨fuel - 1, by omega⟩
    simp only [List.length_append, List.length_cons] at hf
    have e : nt ++ valueDelim :: seqStart :: (ct ++ seqEnd :: fieldDelim :: rest) ++ tl
        = nt ++ valueDelim :: seqStart :: (ct ++ seqEnd :: fieldDelim :: (rest ++ tl)) := by simp
    have hc := ihc k (seqEnd :: fieldDelim :: (rest ++ tl)) (by omega) (.inr ⟨_, rfl⟩)
    rw [e, decodeLoop_child hn hh hc]
    exact ih k tl (by omega) htl

/-- **What the loop accepts is entries, to a `]` or to the end of the bytes.** -/
theorem decodeLoop_sound (past : Option UInt8) : ∀ (fuel : Nat) (is r : List TxItem) (l rest : Bytes),
    decodeLoop past fuel is l = .ok (r, rest) →
      ∃ text, Items is text r ∧ (l = text ++ seqEnd :: rest ∨ (l = text ∧ rest = []))
  | 0, is, r, l, rest, h => by cases h
  | fuel + 1, is, r, [], rest, h => by
    simp only [decodeLoop, Except.ok.injEq, Prod.mk.injEq] at h
    obtain ⟨rfl, rfl⟩ := h
    exact ⟨[], .nil, .inr ⟨rfl, rfl⟩⟩
  | fuel + 1, is, r, c :: p, rest, h => by
    rcases decodeLoop_cases past fuel is c p with ⟨hc, hend⟩ | hend | ⟨nt, n, q, hn, hh, hl⟩
    · rw [hend, Except.ok.injEq, Prod.mk.injEq] at h
      obtain ⟨rfl, rfl⟩ := h
      exact ⟨[], .nil, .inl (by rw [hc]; rfl)⟩
    · rw [hend] at h
      cases h
    rw [hl, decodeLoop_name hn hh] at h
    rw [hl]
    rcases decodeValue_ok h with ⟨cs, q', hpk, hcs, hnext⟩ | ⟨vt, v, q', hv, hvs, rfl, hnext⟩
    · -- a container: the nested run ended at a bracket, for the field delimiter is behind it
      obtain ⟨ct, hct, hq | ⟨-, hq⟩⟩ := decodeLoop_sound past fuel _ _ _ _ hcs
      · obtain ⟨text, ht, hend⟩ := decodeLoop_sound past fuel _ _ _ _ hnext
        have hqs : q = seqStart :: (ct ++ seqEnd :: fieldDelim :: q') := by
          cases q with
          | nil => simp at hq
          | cons x q =>
            rw [peek, Option.some.injEq] at hpk
            rw [List.drop_succ_cons, List.drop_zero] at hq
            rw [hpk, hq]
        refine ⟨_, .child hn hh hct ht, ?_⟩
        rcases hend with rfl | ⟨rfl, rfl⟩
        · exact .inl (by rw [hqs]; simp)
        · exact .inr ⟨by rw [hqs], rfl⟩
      · cases hq
    · obtain ⟨text, ht, hend⟩ := decodeLoop_sound past fuel _ _ _ _ hnext
      refine ⟨_, .field hn hh hv hvs ht, ?_⟩
      rcases hend with rfl | ⟨rfl, rfl⟩
      · exact .inl (by simp)
      · exact .inr ⟨rfl, rfl⟩

theorem decodeLoop_length {past : Option UInt8} {fuel : Nat} {is r : List TxItem} {l rest : Bytes}
    (h : decodeLoop past fuel is l = .ok (r, rest)) : rest.length ≤ l.length := by
  obtain ⟨text, -, rfl | ⟨rfl, rfl⟩⟩ := decodeLoop_sound past fuel is r l rest h
  · simp only [List.length_append, List.length_cons]; omega
  · simp

/-- What a scan left behind a name is shorter than the bytes scanned. -/
theorem scan_length_lt {d x : UInt8} {l n q : Bytes} (h : scan escape d l = (n, x :: q)) : q.length < l.length := by
  obtain ⟨-, t, -, rfl⟩ := Scan.scan_sound _ _ _ _ h
  rw [List.length_append, List.length_cons]
  omega

theorem fieldEnd_congr {f g : Bytes → Except DecodeError (List TxItem × Bytes)} {p : Bytes}
    (h : ∀ q, q.length < p.length → f q = g q) : fieldEnd f p = fieldEnd g p := by
  cases p with
  | nil => rfl
  | cons c q => rw [fieldEnd, fieldEnd, h q (by simp)]

/-- A value is read by looking at shorter bytes only. -/
theorem decodeValue_congr {f g : List TxItem → Bytes → Except DecodeError (List TxItem × Bytes)} {past : Option UInt8}
    {is : List TxItem} {n p : Bytes} (h : ∀ js q, q.length ≤ p.length → f js q = g js q)
    (hf : ∀ js q r rest, f js q = .ok (r, rest) → rest.length ≤ q.length) :
    decodeValue f past is n p = decodeValue g past is n p := by
  have hdrop : (p.drop 1).length ≤ p.length := by rw [List.length_drop]; omega
  have hscan := Scan.scan_snd_length_le escape fieldDelim p
  rw [decodeValue, decodeValue]
  cases peek past p with
  | none => rfl
  | some b =>
    simp only
    rw [fieldEnd_congr (g := g (putField is n (scan escape fieldDelim p).1)) (fun q hq => h _ q (by omega)),
      ← h ((findChild n (putChild is n)).getD []) (p.drop 1) hdrop]
    cases hr : f ((findChild n (putChild is n)).getD []) (p.drop 1) with
    | error e => rfl
    | ok y =>
      obtain ⟨cs, q'⟩ := y
      have hq' := hf _ _ _ _ hr
      simp only
      rw [fieldEnd_congr (g := g (setChild n cs (putChild is n))) (fun q hq => h _ q (by omega))]

/-- Behind the last byte either branch ends at the missing field delimiter. -/
theorem decodeValue_end {f : List TxItem → Bytes → Except DecodeError (List TxItem × Bytes)}
    (hf : ∀ js, f js [] = .ok (js, [])) (x : UInt8) (is : List TxItem) (n : Bytes) :
    decodeValue f (some x) is n [] = .error .noFieldDelim := by
  simp only [decodeValue, peek, List.drop_nil, hf]
  by_cases hx : x = seqStart
  · rw [if_pos hx]; rfl
  · rw [if_neg hx]; rfl

theorem decodeValue_past {f : List TxItem → Bytes → Except DecodeError (List TxItem × Bytes)}
    (hf : ∀ js, f js [] = .ok (js, [])) (a b : UInt8) (is : List TxItem) (n p : Bytes) :
    decodeValue f (some a) is n p = decodeValue f (some b) is n p := by
  cases p with
  | nil => rw [decodeValue_end hf, decodeValue_end hf]
  | cons x q => rfl

/-- **The byte at `end` decides nothing.** -/
theorem decodeLoop_past (a b : UInt8) : ∀ (fuel : Nat) (is : List TxItem) (l : Bytes), l.length < fuel →
    decodeLoop (some a) fuel is l = decodeLoop (some b) fuel is l
  | 0, is, l, h => by omega
  | fuel + 1, is, [], h => rfl
  | fuel + 1, is, c :: p, h => by
    obtain ⟨k, rfl⟩ : ∃ k, fuel = k + 1 := ⟨fuel - 1, by simp only [List.length_cons] at h; omega⟩
    rw [decodeLoop, decodeLoop]
    rcases hscan : scan escape valueDelim (c :: p) with ⟨n, _ | ⟨d, q⟩⟩
    · rfl
    have hq := scan_length_lt hscan
    simp only
    rw [decodeValue_past (fun _ => rfl) a b, decodeValue_congr (g := decodeLoop (some b) (k + 1))
      (fun js q' hq' => decodeLoop_past a b (k + 1) js q' (by omega)) (fun js q' r rest hr => decodeLoop_length hr)]

/-- **The errors a run can end with**: those the source throws, and the stop of a run without a byte at `end`. -/
def DecodeError.Raised (past : Option UInt8) (e : DecodeError) : Prop := e ≠ .outOfFuel ∧ (e = .overrun → past = none)

/-- **How a value can fail**: at the byte behind the end, at the field delimiter, or in a nested run. -/
theorem decodeValue_error {f : List TxItem → Bytes → Except DecodeError (List TxItem × Bytes)}
    {past : Option UInt8} {is : List TxItem} {n p : Bytes} {e : DecodeError}
    (hf : ∀ js q r rest, f js q = .ok (r, rest) → rest.length ≤ q.length) (he : decodeValue f past is n p = .error e) :
    (peek past p = none ∧ e = .overrun) ∨ e = .noFieldDelim ∨ e = .notFieldDelim ∨
      ∃ js q, q.length ≤ p.length ∧ f js q = .error e := by
  have hdrop : (p.drop 1).length ≤ p.length := by rw [List.length_drop]; omega
  have hend : ∀ js q, q.length ≤ p.length → fieldEnd (f js) q = .error e →
      e = .noFieldDelim ∨ e = .notFieldDelim ∨ ∃ js q, q.length ≤ p.length ∧ f js q = .error e := by
    intro js q hq he
    cases q with
    | nil =>
      cases he
      exact .inl rfl
    | cons c q =>
      rw [List.length_cons] at hq
      rw [fieldEnd] at he
      split at he
      · cases he
        exact .inr (.inl rfl)
      · exact .inr (.inr ⟨js, q, by omega, he⟩)
  rw [decodeValue] at he
  split at he
  · rename_i hpk
    cases he
    exact .inl ⟨hpk, rfl⟩
  split at he
  · simp only at he
    split at he
    · rename_i e' he'
      cases he
      exact .inr (.inr (.inr ⟨_, _, hdrop, he'⟩))
    · rename_i cs q' hcs
      exact .inr (hend _ q' (Nat.le_trans (hf _ _ _ _ hcs) hdrop) he)
  · exact .inr (hend _ _ (Scan.scan_snd_length_le _ _ p) he)

/-- **The loop ends**: a turn per byte is enough. -/
theorem decodeLoop_raised {past : Option UInt8} {e : DecodeError} : ∀ (fuel : Nat) (is : List TxItem) (l : Bytes),
    l.length < fuel → decodeLoop past fuel is l = .error e → e.Raised past
  | 0, is, l, h, _ => by omega
  | fuel + 1, is, [], h, he => by cases he
  | fuel + 1, is, c :: p, h, he => by
    rcases decodeLoop_cases past fuel is c p with ⟨-, hend⟩ | hend | ⟨nt, n, q, hn, hh, hl⟩
    · rw [hend] at he
      cases he
    · rw [hend] at he
      cases he
      simp [DecodeError.Raised]
    · have hlen := congrArg List.length hl
      rw [List.length_append, List.length_cons] at hlen
      rw [hl, decodeLoop_name hn hh] at he
      rcases decodeValue_error (fun js q' r rest hr => decodeLoop_length hr) he with
        ⟨hpk, rfl⟩ | rfl | rfl | ⟨js, q', hq', he⟩
      · refine ⟨by simp, fun _ => ?_⟩
        cases q with
        | nil => exact hpk
        | cons x q => cases hpk
      · simp [DecodeError.Raised]
      · simp [DecodeError.Raised]
      · exact decodeLoop_raised fuel js q' (by rw [List.length_cons] at h hlen; omega) he

/-! ## The frame's parts -/

/-- The digit loop reads a run of digits to its end, where neither the run nor the arithmetic is too long. -/
theorem readMsglen_digits {w : Nat} (hw : 32 ≤ w) : ∀ (ds : Bytes) (a : Nat) (p : Bytes),
    (∀ c ∈ ds, Decimal.isDigit c = true) → ds.foldl (fun a c => a * 10 + Decimal.digit c) a ≤ maxMsglen →
      (∀ c, p.head? = some c → Decimal.isDigit c = false) →
      readMsglen w a (ds ++ p) = .ok (ds.foldl (fun a c => a * 10 + Decimal.digit c) a, p)
  | [], a, [], _, _, _ => rfl
  | [], a, c :: p, _, _, hp => by
    rw [List.nil_append, readMsglen, hp c rfl]
    rfl
  | c :: ds, a, p, hd, hle, hp => by
    rw [List.foldl_cons] at hle
    have hge := Decimal.foldl_value_ge ds (a * 10 + Decimal.digit c)
    have hpow : 2 ^ 32 ≤ 2 ^ w := Nat.pow_le_pow_right (by decide) hw
    have hmod : (a * 10 + Decimal.digit c) % 2 ^ w = a * 10 + Decimal.digit c :=
      Nat.mod_eq_of_lt (by simp only [maxMsglen] at hle; omega)
    rw [List.cons_append, readMsglen, hd c (by simp), if_pos rfl]
    simp only [hmod]
    rw [if_neg (by omega), readMsglen_digits hw ds _ p (fun x hx => hd x (by simp [hx])) hle hp, List.foldl_cons]

theorem isDigit_metaDelim : Decimal.isDigit metaDelim = false := by decide

/-- A run of digits is a token that the delimiter ends. -/
theorem digits_token {ds : Bytes} (h : ∀ c ∈ ds, Decimal.isDigit c = true) : Token escape metaDelim ds ds := by
  refine Scan.token_plain ds (fun hm => ?_) (fun hm => ?_)
  · have := h _ hm; revert this; decide
  · have := h _ hm; revert this; decide

/-- A frame's bytes behind the length are a type and a container. -/
theorem decodeBody_eq (past : Option UInt8) {tt vs : Bytes} (h : Token escape metaDelim tt vs) (p : Bytes) :
    decodeBody past (tt ++ metaDelim :: p) =
      match decode past [] p with
      | .error e      => .error e
      | .ok (root, _) => .ok ⟨vs, root⟩ := by
  rw [decodeBody, Scan.scan_token escape_ne_metaDelim h p]
  rfl

/-- **What the bytes behind the length can be**: without a type, or a type and the rest. -/
theorem decodeBody_cases (past : Option UInt8) (p : Bytes) :
    decodeBody past p = .error .missingType ∨
    ∃ tt vs q, Token escape metaDelim tt vs ∧ p = tt ++ metaDelim :: q := by
  rcases hscan : scan escape metaDelim p with ⟨vs, rest⟩
  cases rest with
  | nil => exact .inl (by rw [decodeBody, hscan])
  | cons c q =>
    obtain ⟨rfl, tt, ht, hp⟩ := Scan.scan_sound _ _ _ _ hscan
    exact .inr ⟨tt, vs, q, ht, hp⟩

theorem decodeBody_ok {past : Option UInt8} {p : Bytes} {m : TxMessage} (h : decodeBody past p = .ok m) :
    ∃ tt q rest, Token escape metaDelim tt m.type ∧ p = tt ++ metaDelim :: q ∧ decode past [] q = .ok (m.root, rest) := by
  rcases decodeBody_cases past p with hbody | ⟨tt, vs, q, ht, rfl⟩
  · rw [hbody] at h
    cases h
  rw [decodeBody_eq past ht] at h
  split at h
  · cases h
  rename_i root rest hd
  cases h
  exact ⟨tt, q, rest, ht, rfl, hd⟩

/-- The header `decodeMsg` reads: the version, the digits of the length, and the delimiter behind them. -/
def header (V ds : Bytes) : Bytes := msgStart :: (V ++ metaDelim :: (ds ++ [metaDelim]))

theorem length_header {V : Bytes} (hV : V.length = 7) (ds : Bytes) : (header V ds).length = 10 + ds.length := by
  simp only [header, List.length_cons, List.length_append, hV, List.length_nil]; omega

/-- **`decodeMsg` on a buffer that starts with a whole header.** -/
theorem decodeMsg_header {w : Nat} (hw : 32 ≤ w) (past : Option UInt8) (msg : TxMessage) {V ds : Bytes} (p : Bytes)
    (hV : V.length = 7) (hd : ∀ c ∈ ds, Decimal.isDigit c = true) (hn : Decimal.value ds ≤ maxMsglen) :
    decodeMsg w past msg (header V ds ++ p) =
      if (header V ds ++ p).length < Decimal.value ds then .ok (0, msg)
      else if V = sam0100 ∨ V = sam0101 then
        match decodeBody (peek past ((header V ds ++ p).drop (Decimal.value ds)))
          (((header V ds ++ p).take (Decimal.value ds)).drop (10 + ds.length)) with
        | .error e => .error e
        | .ok m    => .ok (Decimal.value ds, m)
      else .ok (Decimal.value ds, msg) := by
  have hlen : (header V ds ++ p).length = 10 + ds.length + p.length := by rw [List.length_append, length_header hV]
  have h9 : ¬ (header V ds ++ p).length < 9 := by omega
  have hhead : (header V ds ++ p).head? = some msgStart := rfl
  have e : header V ds ++ p = msgStart :: (V ++ metaDelim :: (ds ++ metaDelim :: p)) := by simp [header]
  have h8 : ((header V ds ++ p).drop 8).head? = some metaDelim := by
    rw [e, List.drop_succ_cons, ← hV, List.drop_left]; rfl
  have hds : (header V ds ++ p).drop 9 = ds ++ metaDelim :: p := by
    rw [e, List.drop_succ_cons, show 8 = V.length + 1 by rw [hV], ← List.drop_drop, List.drop_left]; rfl
  have hver : ((header V ds ++ p).drop 1).take 7 = V := by
    rw [e, List.drop_succ_cons, List.drop_zero, ← hV, List.take_left]
  have hread : readMsglen w 0 (ds ++ metaDelim :: p) = .ok (Decimal.value ds, metaDelim :: p) :=
    readMsglen_digits hw ds 0 _ hd hn (fun c hc => by
      simp only [List.head?_cons, Option.some.injEq] at hc
      rw [← hc, isDigit_metaDelim])
  have hoff : (header V ds ++ p).length - p.length = 10 + ds.length := by omega
  rw [decodeMsg, if_neg h9, if_neg (by rw [hhead, h8]; simp), hds, hread]
  simp only [ne_eq, not_true_eq_false, if_false, hver, hoff]

/-! ## More bytes behind the ones decoded -/

theorem decodeBody_past (a b : UInt8) (p : Bytes) : decodeBody (some a) p = decodeBody (some b) p := by
  have hdec : ∀ q : Bytes, decode (some a) [] q = decode (some b) [] q := fun q =>
    decodeLoop_past a b _ _ _ (by rw [List.length_drop]; omega)
  simp only [decodeBody, hdec]

theorem readMsglen_append_error {w : Nat} {e : DecodeError} (s : Bytes) : ∀ (l : Bytes) (a : Nat),
    readMsglen w a l = .error e → readMsglen w a (l ++ s) = .error e
  | [], a, h => by cases h
  | c :: l, a, h => by
    rw [readMsglen] at h
    rw [List.cons_append, readMsglen]
    split
    · rename_i hc
      rw [if_pos hc] at h
      simp only at h ⊢
      split
      · rename_i hm; rw [if_pos hm] at h; exact h
      · rename_i hm; rw [if_neg hm] at h; exact readMsglen_append_error s l _ h
    · rename_i hc
      rw [if_neg hc] at h
      cases h

theorem readMsglen_append_ok {w n : Nat} {c : UInt8} {p : Bytes} (s : Bytes) : ∀ (l : Bytes) (a : Nat),
    readMsglen w a l = .ok (n, c :: p) → readMsglen w a (l ++ s) = .ok (n, c :: (p ++ s))
  | [], a, h => by cases h
  | x :: l, a, h => by
    rw [readMsglen] at h
    rw [List.cons_append, readMsglen]
    split
    · rename_i hc
      rw [if_pos hc] at h
      simp only at h ⊢
      split
      · rename_i hm; rw [if_pos hm] at h; cases h
      · rename_i hm; rw [if_neg hm] at h; exact readMsglen_append_ok s l _ h
    · rename_i hc
      rw [if_neg hc] at h
      simp only [Except.ok.injEq, Prod.mk.injEq, List.cons.injEq] at h
      obtain ⟨rfl, rfl, rfl⟩ := h
      rfl

/-- **More bytes do not change an answer of `decodeMsg`**, other than that it needs more. -/
theorem decodeMsg_append {w : Nat} (b b' : UInt8) (msg : TxMessage) (buf s : Bytes) :
    (∃ n m, decodeMsg w (some b) msg buf = .ok (n, m) ∧ n = 0) ∨
      decodeMsg w (some b') msg (buf ++ s) = decodeMsg w (some b) msg buf := by
  by_cases h9 : buf.length < 9
  · exact .inl ⟨0, msg, by rw [decodeMsg, if_pos h9], rfl⟩
  have h9' : ¬ (buf ++ s).length < 9 := by rw [List.length_append]; omega
  have hhead : (buf ++ s).head? = buf.head? := by
    rw [List.head?_append_of_ne_nil]; rintro rfl; exact h9 (by decide)
  have h8 : ((buf ++ s).drop 8).head? = (buf.drop 8).head? := by
    rw [List.drop_append_of_le_length (by omega), List.head?_append_of_ne_nil]
    intro hn
    have := congrArg List.length hn
    rw [List.length_drop, List.length_nil] at this
    omega
  by_cases hbad : buf.head? ≠ some msgStart ∨ (buf.drop 8).head? ≠ some metaDelim
  · exact .inr (by rw [decodeMsg, if_neg h9', hhead, h8, if_pos hbad, decodeMsg, if_neg h9, if_pos hbad])
  have hver : ((buf ++ s).drop 1).take 7 = (buf.drop 1).take 7 := by
    rw [List.drop_append_of_le_length (by omega), List.take_append_of_le_length (by rw [List.length_drop]; omega)]
  rw [decodeMsg, decodeMsg, if_neg h9, if_neg hbad, if_neg h9', hhead, h8, if_neg hbad,
    List.drop_append_of_le_length (by omega), hver]
  cases hr : readMsglen w 0 (buf.drop 9) with
  | error e => exact .inr (by rw [readMsglen_append_error s _ _ hr])
  | ok x =>
    obtain ⟨msglen, _ | ⟨c, p⟩⟩ := x
    · exact .inl ⟨0, msg, rfl, rfl⟩
    rw [readMsglen_append_ok s _ _ hr]
    simp only
    by_cases hc : c ≠ metaDelim
    · exact .inr (by rw [if_pos hc, if_pos hc])
    rw [if_neg hc, if_neg hc]
    by_cases hlen : buf.length < msglen
    · exact .inl ⟨0, msg, by rw [if_pos hlen], rfl⟩
    have htake : (buf ++ s).take msglen = buf.take msglen := List.take_append_of_le_length (by omega)
    have hoff : (buf ++ s).length - (p ++ s).length = buf.length - p.length := by
      rw [List.length_append, List.length_append]; omega
    have hpast : ∀ (x : UInt8) (l : Bytes), ∃ y, peek (some x) l = some y := fun x l => by
      cases l with
      | nil => exact ⟨x, rfl⟩
      | cons z l => exact ⟨z, rfl⟩
    obtain ⟨y, hy⟩ := hpast b (buf.drop msglen)
    obtain ⟨y', hy'⟩ := hpast b' ((buf ++ s).drop msglen)
    exact .inr (by
      rw [if_neg hlen, if_neg (by rw [List.length_append]; omega), htake, hoff, hy, hy', decodeBody_past y' y])

/-- `decodeMsg` consumes no more than there is. -/
theorem decodeMsg_le {w : Nat} {past : Option UInt8} {msg m : TxMessage} {buf : Bytes} {n : Nat}
    (h : decodeMsg w past msg buf = .ok (n, m)) : n ≤ buf.length := by
  rw [decodeMsg] at h
  split at h
  · cases h; omega
  split at h
  · cases h
  split at h
  · cases h
  · cases h; omega
  split at h
  · cases h
  split at h
  · cases h; omega
  rename_i hlen
  split at h
  · split at h
    · cases h
    · cases h; omega
  · cases h; omega

theorem decodeBody_raised {past : Option UInt8} {p : Bytes} {e : DecodeError} (he : decodeBody past p = .error e) :
    e.Raised past := by
  rcases decodeBody_cases past p with hbody | ⟨tt, vs, q, ht, rfl⟩
  · rw [hbody] at he
    cases he
    simp [DecodeError.Raised]
  rw [decodeBody_eq past ht] at he
  split at he
  · rename_i e' he'
    cases he
    exact decodeLoop_raised _ _ _ (by rw [List.length_drop]; omega) he'
  · cases he

theorem readMsglen_error {w : Nat} {e : DecodeError} : ∀ (l : Bytes) (a : Nat), readMsglen w a l = .error e → e = .tooLong
  | [], a, h => by cases h
  | c :: l, a, h => by
    rw [readMsglen] at h
    split at h
    · simp only at h
      split at h
      · cases h; rfl
      · exact readMsglen_error l _ h
    · cases h

/-- **Every error of `decodeMsg` is one the source throws**, where there is a byte behind the buffer. -/
theorem decodeMsg_raised {w : Nat} {past : UInt8} {msg : TxMessage} {buf : Bytes} {e : DecodeError}
    (he : decodeMsg w (some past) msg buf = .error e) : e ≠ .outOfFuel ∧ e ≠ .overrun := by
  have hpast : ∀ l : Bytes, peek (some past) l ≠ none := fun l => by cases l <;> simp [peek]
  rw [decodeMsg] at he
  split at he
  · cases he
  split at he
  · cases he; simp
  split at he
  · rename_i e' he'
    cases he
    rw [readMsglen_error _ _ he']
    simp
  · cases he
  split at he
  · cases he; simp
  split at he
  · cases he
  split at he
  · split at he
    · rename_i e' he'
      cases he
      obtain ⟨hfuel, hover⟩ := decodeBody_raised he'
      exact ⟨hfuel, fun h => hpast _ (hover h)⟩
    · cases he
  · cases he

end Sam
end Exio
