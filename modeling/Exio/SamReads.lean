import Exio.Access
import Exio.SamGrammar
/-!
# SamReads — which bytes the decoder looks at

`decodeMsg` and `decode` again (`sam.cc`), now over a memory and with the pointers they move: every `*p` is a `load`, and
`end` is an address that nothing but a comparison keeps the pointers from.  `start` is address 0.  The message is the one
of the decoder over lists (`decodeMsgAt_val`).

All loads are below `end` but one: behind a `=` the decoder asks for `*p` before it asks for `p < end`.  So it looks at
`end` itself, and at nothing beyond, exactly in the frames that stop right behind a `=` (`Cut`).
-/
namespace Exio
namespace Sam

open Access (Logged load loads span)
open Scan (scan Token Text)

/-! ## The decoder over a memory -/

section

variable (mem : Nat → UInt8)

/-- The scanning loop: `v` is what was appended so far. -/
def scanAt (d : UInt8) (e : Nat) : Nat → Nat → Bytes → Logged (Bytes × Nat)
  | 0, p, v        => pure (v, p)
  | fuel + 1, p, v =>
    if p < e then do
      if (← load mem p) = d then pure (v, p)
      else
        let p := if (← load mem p) = escape then p + 1 else p
        let v ← if p < e then do pure (v ++ [← load mem p]) else pure v
        scanAt d e fuel (p + 1) v
    else pure (v, p)

/-- The tail of the loop of `decode`. -/
def fieldEndAt (e : Nat) (next : Nat → Logged (Except DecodeError (List TxItem × Nat))) (p : Nat) :
    Logged (Except DecodeError (List TxItem × Nat)) :=
  if e ≤ p then pure (.error .noFieldDelim)
  else do
    if (← load mem p) ≠ fieldDelim then pure (.error .notFieldDelim) else next (p + 1)

/-- The second half of a turn, from behind the `=`. -/
def decodeValueAt (e : Nat) (next : List TxItem → Nat → Logged (Except DecodeError (List TxItem × Nat)))
    (parent : List TxItem) (fieldname : Bytes) (p : Nat) : Logged (Except DecodeError (List TxItem × Nat)) := do
  if (← load mem p) = seqStart then
    let parent := putChild parent fieldname
    match ← next ((findChild fieldname parent).getD []) (p + 1) with
    | .error x         => pure (.error x)
    | .ok (subcont, p) => fieldEndAt mem e (next (setChild fieldname subcont parent)) p
  else
    let value ← scanAt mem fieldDelim e (e - p) p []
    fieldEndAt mem e (next (putField parent fieldname value.1)) value.2

/-- The loop of `decode`. -/
def decodeLoopAt (e : Nat) : Nat → List TxItem → Nat → Logged (Except DecodeError (List TxItem × Nat))
  | 0, _, _             => pure (.error .outOfFuel)
  | fuel + 1, parent, p =>
    if p < e then do
      if (← load mem p) = seqEnd then pure (.ok (parent, p + 1))
      else
        let name ← scanAt mem valueDelim e (e - p) p []
        if e ≤ name.2 then pure (.error .noValueDelim)
        else if (← load mem name.2) ≠ valueDelim then pure (.error .notValueDelim)
        else decodeValueAt mem e (decodeLoopAt e fuel) parent name.1 (name.2 + 1)
    else pure (.ok (parent, p))

def decodeAt (e : Nat) (parent : List TxItem) (p : Nat) : Logged (Except DecodeError (List TxItem × Nat)) :=
  decodeLoopAt mem e (e - p + 1) parent (p + 1)

/-- The digit loop, over a `size_t` of 64 bits. -/
def readMsglenAt (e : Nat) : Nat → Nat → Nat → Logged (Except DecodeError (Nat × Nat))
  | 0, msglen, p        => pure (.ok (msglen, p))
  | fuel + 1, msglen, p =>
    if p < e then do
      if Decimal.isDigit (← load mem p) then
        let msglen := (msglen * 10 + Decimal.digit (← load mem p)) % 2 ^ 64
        if maxMsglen < msglen then pure (.error .tooLong) else readMsglenAt e fuel msglen (p + 1)
      else pure (.ok (msglen, p))
    else pure (.ok (msglen, p))

/-- The part of `decodeMsg` behind the length. -/
def decodeBodyAt (msgend p : Nat) : Logged (Except DecodeError TxMessage) := do
  let vs ← scanAt mem metaDelim msgend (msgend - p) p []
  if msgend ≤ vs.2 then pure (.error .missingType)
  else if (← load mem vs.2) ≠ metaDelim then pure (.error .missingType)
  else
    match ← decodeAt mem msgend [] (vs.2 + 1) with
    | .error x      => pure (.error x)
    | .ok (root, _) => pure (.ok ⟨vs.1, root⟩)

/-- `(*start != MSG_START) or (start[8] != META_DELIM)`. -/
def badHeaderAt : Logged Bool := do
  if (← load mem 0) ≠ msgStart then pure true else pure (decide ((← load mem 8) ≠ metaDelim))

/-- `sam_ver_supported`: two calls of `memcmp` at most. -/
def supportedAt : Logged Bool := do
  if (← loads mem 1 7) = sam0100 then pure true else pure (decide ((← loads mem 1 7) = sam0101))

/-- The part of `decodeMsg` behind the digits, which end at `p`. -/
def consumeAt (msg : TxMessage) (len : Nat) (supported : Bool) (msglen p : Nat) :
    Logged (Except DecodeError (Nat × TxMessage)) :=
  if len ≤ p then pure (.ok (0, msg))
  else do
    if (← load mem p) ≠ metaDelim then pure (.error .badMsglen)
    else if len < msglen then pure (.ok (0, msg))
    else if supported then
      match ← decodeBodyAt mem msglen (p + 1) with
      | .error x => pure (.error x)
      | .ok m    => pure (.ok (msglen, m))
    else
      -- the version goes to the log
      let _ ← loads mem 1 7
      pure (.ok (msglen, msg))

def decodeMsgAt (msg : TxMessage) (len : Nat) : Logged (Except DecodeError (Nat × TxMessage)) :=
  if len < 9 then pure (.ok (0, msg))
  else do
    if (← badHeaderAt mem) then pure (.error .badHeader)
    else
      let supported ← supportedAt mem
      match ← readMsglenAt mem len (len - 9) 0 9 with
      | .error x        => pure (.error x)
      | .ok (msglen, p) => consumeAt mem msg len supported msglen p

end

/-! ## The two decoders agree -/

section

variable {mem : Nat → UInt8}

theorem scanAt_of_le {d : UInt8} {e p : Nat} (h : e ≤ p) (v : Bytes) : ∀ fuel, scanAt mem d e fuel p v = pure (v, p)
  | 0        => rfl
  | fuel + 1 => by rw [scanAt, if_neg (by omega)]

/-- **The scanning loop** reads what the scan of a list reads, and looks at nothing from `e` on. -/
theorem scanAt_spec (mem : Nat → UInt8) (d : UInt8) (e : Nat) : ∀ (fuel p : Nat) (v : Bytes), e - p ≤ fuel →
    (scanAt mem d e fuel p v).Ensures e (fun r =>
      r.1 = v ++ (scan escape d (span mem p e)).1 ∧ span mem r.2 e = (scan escape d (span mem p e)).2) := by
  intro fuel
  induction fuel with
  | zero =>
    intro p v h
    have hp : e ≤ p := by omega
    rw [Access.span_of_le mem hp]
    exact Access.ensures_pure ⟨(List.append_nil v).symm, Access.span_of_le mem hp⟩
  | succ fuel ih =>
    intro p v h
    by_cases hp : e ≤ p
    · rw [scanAt_of_le hp, Access.span_of_le mem hp]
      exact Access.ensures_pure ⟨(List.append_nil v).symm, Access.span_of_le mem hp⟩
    rw [Nat.not_le] at hp
    rw [scanAt, if_pos hp]
    refine Access.ensures_load hp ?_
    by_cases hd : mem p = d
    · rw [if_pos hd, Access.span_of_lt mem hp, hd, Scan.scan_delim]
      exact Access.ensures_pure ⟨(List.append_nil v).symm, by rw [Access.span_of_lt mem hp, hd]⟩
    rw [if_neg hd]
    refine Access.ensures_load hp ?_
    by_cases hesc : mem p = escape
    · -- the escape takes the next byte with it, if there is one
      simp only [if_pos hesc]
      rw [Access.span_of_lt mem hp, hesc]
      by_cases hp1 : p + 1 < e
      · obtain ⟨hrest, hbelow⟩ := ih (p + 1 + 1) (v ++ [mem (p + 1)]) (by omega)
        rw [if_pos hp1, Access.span_of_lt mem hp1, Scan.scan_pair (hesc ▸ hd)]
        rw [List.append_assoc] at hrest
        exact Access.ensures_load hp1 ⟨hrest, hbelow⟩
      · have hend : e ≤ p + 1 + 1 := by omega
        have hnil : scan escape d [escape] = ([], []) := by simp [scan, hesc ▸ hd]
        rw [if_neg hp1, Access.span_of_le mem (Nat.not_lt.1 hp1), hnil]
        simp only [scanAt_of_le hend]
        exact Access.ensures_pure ⟨(List.append_nil v).symm, Access.span_of_le mem hend⟩
    · obtain ⟨hrest, hbelow⟩ := ih (p + 1) (v ++ [mem p]) (by omega)
      simp only [if_neg hesc]
      rw [Access.span_of_lt mem hp, Scan.scan_plain hd hesc, if_pos hp]
      rw [List.append_assoc] at hrest
      exact Access.ensures_load hp ⟨hrest, hbelow⟩

/-- **A run over the memory and the runs over the list**, with `v` between their results: the same where the byte at `e`
is the one that lies there; and `e` is looked at exactly if the run that has no byte there stops for it. -/
structure Mirrors {α β : Type} (mem : Nat → UInt8) (e : Nat) (v : α → β) (x : Logged (Except DecodeError α))
    (run : Option UInt8 → Except DecodeError β) : Prop where
  val   : x.val.map v = run (some (mem e))
  guard : run none = run (some (mem e)) ∨ run none = .error .overrun
  bound : x.Below (e + 1)
  stops : x.Below e ↔ run none ≠ .error .overrun

/-- A pointer, seen as what is left. -/
def left (mem : Nat → UInt8) (e : Nat) (r : List TxItem × Nat) : List TxItem × Bytes := (r.1, span mem r.2 e)

section

variable {α β : Type} {e : Nat} {v : α → β}

theorem Mirrors.error {x : DecodeError} (hx : x ≠ .overrun) : Mirrors mem e v (pure (.error x)) (fun _ => .error x) :=
  ⟨rfl, .inl rfl, Access.below_pure _ _, by simp [hx]⟩

theorem Mirrors.ok (a : α) : Mirrors mem e v (pure (.ok a)) (fun _ => .ok (v a)) :=
  ⟨rfl, .inl rfl, Access.below_pure _ _, by simp⟩

/-- A computation that stays below `e`, and the rest of the run. -/
theorem Mirrors.bind {γ : Type} {y : Logged γ} (hy : y.Below e) {f : γ → Logged (Except DecodeError α)}
    {run : Option UInt8 → Except DecodeError β} (h : Mirrors mem e v (f y.val) run) :
    Mirrors mem e v (y >>= f) run :=
  ⟨h.val, h.guard, (Access.below_bind _ _ _).2 ⟨hy.mono (Nat.le_succ e), h.bound⟩, by simpa [hy] using h.stops⟩

theorem Mirrors.load {p : Nat} (hp : p < e) {f : UInt8 → Logged (Except DecodeError α)}
    {run : Option UInt8 → Except DecodeError β} (h : Mirrors mem e v (f (mem p)) run) :
    Mirrors mem e v (load mem p >>= f) run :=
  .bind ((Access.below_load e mem p).2 hp) h

/-- Only two of the runs matter. -/
theorem Mirrors.congr {x : Logged (Except DecodeError α)} {run run' : Option UInt8 → Except DecodeError β}
    (h : Mirrors mem e v x run) (hnone : run' none = run none) (hsome : run' (some (mem e)) = run (some (mem e))) :
    Mirrors mem e v x run' :=
  ⟨h.val.trans hsome.symm, by rw [hnone, hsome]; exact h.guard, h.bound, by rw [hnone]; exact h.stops⟩

/-- **A look at `e` itself**, for which the run that has no byte there stops. -/
theorem Mirrors.loadEnd {f : UInt8 → Logged (Except DecodeError α)} {run body : Option UInt8 → Except DecodeError β}
    (h : Mirrors mem e v (f (mem e)) body) (hsome : run (some (mem e)) = body (some (mem e)))
    (hnone : run none = .error .overrun) : Mirrors mem e v (Access.load mem e >>= f) run := by
  refine ⟨h.val.trans hsome.symm, .inr hnone, ?_, ?_⟩
  · simpa using h.bound
  · simp [hnone]

theorem Mirrors.of_eq {x : Logged (Except DecodeError α)} {run run' : Option UInt8 → Except DecodeError β}
    (h : Mirrors mem e v x run) (heq : ∀ past, run past = run' past) : Mirrors mem e v x run' := by
  rwa [← funext heq]

/-- **A part of the run that may fail, and the rest of it.** -/
theorem Mirrors.andThen {γ δ : Type} {u : γ → δ} {y : Logged (Except DecodeError γ)}
    {run : Option UInt8 → Except DecodeError δ} {f : Except DecodeError γ → Logged (Except DecodeError α)}
    {g : Option UInt8 → Except DecodeError δ → Except DecodeError β} (hy : Mirrors mem e u y run)
    (hf : ∀ x, f (.error x) = pure (.error x)) (hg : ∀ past x, g past (.error x) = .error x)
    (h : ∀ c, Mirrors mem e v (f (.ok c)) (fun past => g past (.ok (u c)))) :
    Mirrors mem e v (y >>= f) (fun past => g past (run past)) := by
  have hval := hy.val
  have hrest : (f y.val).val.map v = g (some (mem e)) (run (some (mem e))) ∧ (f y.val).Below (e + 1) := by
    rw [← hval]
    cases y.val with
    | error x =>
      rw [hf]
      exact ⟨(hg _ x).symm, Access.below_pure _ _⟩
    | ok c => exact ⟨(h c).val, (h c).bound⟩
  have hbound := (Access.below_bind _ _ _).2 ⟨hy.bound, hrest.2⟩
  rcases hy.guard with hguard | hguard
  · cases hv : y.val with
    | error x =>
      rw [hv] at hval
      have hrun : ∀ past, g past (run none) = .error x := fun past => by rw [hguard, ← hval]; exact hg past x
      refine ⟨hrest.1, .inl ?_, hbound, ?_⟩
      · rw [hrun, ← hguard, hrun]
      · rw [hrun, Access.below_bind, hy.stops, hguard, ← hval, hv, hf]
        simp [Except.map]
    | ok c =>
      rw [hv] at hval
      have hb : y.Below e := hy.stops.2 (by rw [hguard, ← hval]; simp [Except.map])
      have hc := Mirrors.bind (f := f) hb (hv ▸ h c)
      exact hc.congr (by rw [hguard, ← hval]; rfl) (by rw [← hval]; rfl)
  · refine ⟨hrest.1, .inr ?_, hbound, ?_⟩
    · rw [hguard, hg]
    · rw [hguard, hg, Access.below_bind, hy.stops, hguard]
      simp

theorem Mirrors.fieldEnd {next : Nat → Logged (Except DecodeError (List TxItem × Nat))}
    {run : Option UInt8 → Bytes → Except DecodeError (List TxItem × Bytes)}
    (h : ∀ p, Mirrors mem e (left mem e) (next p) (fun past => run past (span mem p e))) (p : Nat) :
    Mirrors mem e (left mem e) (fieldEndAt mem e next p) (fun past => fieldEnd (run past) (span mem p e)) := by
  unfold fieldEndAt
  split
  · rename_i hp
    rw [Access.span_of_le mem hp]
    exact .error (by decide)
  · rename_i hp
    rw [Nat.not_le] at hp
    rw [Access.span_of_lt mem hp]
    refine .load hp ?_
    simp only [Sam.fieldEnd]
    split
    · exact .error (by decide)
    · exact h (p + 1)

/-- **A value**: the byte behind the `=` is looked at in any case. -/
theorem Mirrors.decodeValue {next : List TxItem → Nat → Logged (Except DecodeError (List TxItem × Nat))}
    {run : Option UInt8 → List TxItem → Bytes → Except DecodeError (List TxItem × Bytes)}
    (h : ∀ js p, Mirrors mem e (left mem e) (next js p) (fun past => run past js (span mem p e))) (is : List TxItem)
    (n : Bytes) {p : Nat} (hp : p ≤ e) :
    Mirrors mem e (left mem e) (decodeValueAt mem e next is n p)
      (fun past => Sam.decodeValue (run past) past is n (span mem p e)) := by
  have hdrop : (span mem p e).drop 1 = span mem (p + 1) e := Access.drop_span mem p e 1
  obtain ⟨⟨h1, h2⟩, h3⟩ := scanAt_spec mem fieldDelim e (e - p) p [] (Nat.le_refl _)
  rw [List.nil_append] at h1
  -- the two branches behind the look
  have hchild := Mirrors.andThen (h ((findChild n (putChild is n)).getD []) (p + 1)) (v := left mem e)
    (f := fun r => match r with
      | .error x    => pure (.error x)
      | .ok (cs, q) => fieldEndAt mem e (next (setChild n cs (putChild is n))) q)
    (g := fun past r => match r with
      | .error x    => .error x
      | .ok (cs, q) => Sam.fieldEnd (run past (setChild n cs (putChild is n))) q)
    (fun _ => rfl) (fun _ _ => rfl) (fun c => .fieldEnd (fun q => h _ q) c.2)
  have hvalue : Mirrors mem e (left mem e)
      (scanAt mem fieldDelim e (e - p) p [] >>= fun value => fieldEndAt mem e (next (putField is n value.1)) value.2)
      (fun past => Sam.fieldEnd (run past (putField is n (scan escape fieldDelim (span mem p e)).1))
        (scan escape fieldDelim (span mem p e)).2) := by
    refine .bind h3 ?_
    rw [h1, ← h2]
    exact .fieldEnd (fun q => h _ q) _
  unfold decodeValueAt
  rcases Nat.lt_or_eq_of_le hp with hlt | rfl
  · have hpk : ∀ past, peek past (span mem p e) = some (mem p) := fun past => by rw [Access.span_of_lt mem hlt]; rfl
    refine .load hlt ?_
    simp only [Sam.decodeValue, hpk, hdrop]
    split
    · exact hchild
    · exact hvalue
  · have hnil : span mem p p = [] := Access.span_of_le mem (Nat.le_refl p)
    have hnone : Sam.decodeValue (run none) none is n (span mem p p) = .error .overrun := by rw [hnil]; rfl
    by_cases hs : mem p = seqStart
    · refine .loadEnd (by rw [if_pos hs]; exact hchild) ?_ hnone
      simp only [Sam.decodeValue, hdrop]
      rw [hnil]
      simp only [peek, hs, if_true]
      rfl
    · refine .loadEnd (by rw [if_neg hs]; exact hvalue) ?_ hnone
      simp only [Sam.decodeValue, hnil, peek, hs, if_false]

end

/-- **The loop of `decode`.** -/
theorem decodeLoopAt_mirrors (mem : Nat → UInt8) (e : Nat) : ∀ (fuel : Nat) (is : List TxItem) (p : Nat),
    Mirrors mem e (left mem e) (decodeLoopAt mem e fuel is p) (fun past => decodeLoop past fuel is (span mem p e))
  | 0, is, p => .error (by decide)
  | fuel + 1, is, p => by
    rw [decodeLoopAt]
    split
    · rename_i hp
      obtain ⟨⟨h1, h2⟩, h3⟩ := scanAt_spec mem valueDelim e (e - p) p [] (Nat.le_refl _)
      rw [List.nil_append] at h1
      rw [Access.span_of_lt mem hp] at h1 h2 ⊢
      refine .load hp ?_
      simp only [decodeLoop]
      split
      · exact .ok (is, p + 1)
      refine .bind h3 ?_
      generalize (scanAt mem valueDelim e (e - p) p []).val = r at h1 h2 ⊢
      obtain ⟨name, q⟩ := r
      simp only at h1 h2 ⊢
      rw [← Prod.eta (scan escape valueDelim _), ← h1, ← h2]
      split
      · rename_i hq
        rw [Access.span_of_le mem hq]
        exact .error (by decide)
      · rename_i hq
        rw [Nat.not_le] at hq
        rw [Access.span_of_lt mem hq]
        refine .load hq ?_
        simp only
        split
        · exact .error (by decide)
        · exact .decodeValue (fun js q => decodeLoopAt_mirrors mem e fuel js q) is name hq
    · rename_i hp
      have hok : Mirrors mem e (left mem e) (pure (.ok (is, p))) (fun _ => .ok (is, span mem p e)) := .ok (is, p)
      rw [Access.span_of_le mem (Nat.not_lt.1 hp)] at hok ⊢
      exact hok

theorem decodeAt_mirrors (mem : Nat → UInt8) (e : Nat) (is : List TxItem) (p : Nat) :
    Mirrors mem e (left mem e) (decodeAt mem e is p) (fun past => decode past is (span mem p e)) := by
  have hdrop : (span mem p e).drop 1 = span mem (p + 1) e := Access.drop_span mem p e 1
  have h := decodeLoopAt_mirrors mem e (e - p + 1) is (p + 1)
  unfold decodeAt decode
  rw [Access.length_span, hdrop]
  exact h

/-- **The bytes behind the length.** -/
theorem decodeBodyAt_mirrors (mem : Nat → UInt8) (e p : Nat) :
    Mirrors mem e id (decodeBodyAt mem e p) (fun past => decodeBody past (span mem p e)) := by
  obtain ⟨⟨h1, h2⟩, h3⟩ := scanAt_spec mem metaDelim e (e - p) p [] (Nat.le_refl _)
  rw [List.nil_append] at h1
  unfold decodeBodyAt decodeBody
  refine .bind h3 ?_
  generalize (scanAt mem metaDelim e (e - p) p []).val = r at h1 h2 ⊢
  obtain ⟨vs, q⟩ := r
  simp only at h1 h2 ⊢
  rw [← Prod.eta (scan escape metaDelim _), ← h1, ← h2]
  split
  · rename_i hq
    rw [Access.span_of_le mem hq]
    exact .error (by decide)
  · rename_i hq
    rw [Nat.not_le] at hq
    rw [Access.span_of_lt mem hq]
    refine .load hq ?_
    simp only
    split
    · exact .error (by decide)
    · have hbody := Mirrors.andThen (decodeAt_mirrors mem e [] (q + 1)) (v := (id : TxMessage → TxMessage))
        (f := fun r => match r with
          | .error x      => pure (.error x)
          | .ok (root, _) => pure (.ok ⟨vs, root⟩))
        (g := fun _ r => r.map fun c => ⟨vs, c.1⟩)
        (fun _ => rfl) (fun _ _ => rfl) (fun c => .ok (⟨vs, c.1⟩ : TxMessage))
      refine hbody.of_eq fun past => ?_
      cases decode past [] (span mem (q + 1) e) <;> rfl

/-! ## The whole frame -/

/-- **The digit loop.** -/
theorem readMsglenAt_spec (mem : Nat → UInt8) (e : Nat) : ∀ (fuel a p : Nat), e - p ≤ fuel →
    (readMsglenAt mem e fuel a p).Ensures e (fun r =>
      r.map (fun r => (r.1, span mem r.2 e)) = readMsglen 64 a (span mem p e)) := by
  intro fuel
  induction fuel with
  | zero =>
    intro a p h
    have hp : e ≤ p := by omega
    rw [Access.span_of_le mem hp]
    exact Access.ensures_pure (by simp [Except.map, readMsglen, Access.span_of_le mem hp])
  | succ fuel ih =>
    intro a p h
    rw [readMsglenAt]
    by_cases hp : p < e
    · rw [if_pos hp]
      refine Access.ensures_load hp ?_
      rw [Access.span_of_lt mem hp, readMsglen]
      split
      · refine Access.ensures_load hp ?_
        simp only
        split
        · exact Access.ensures_pure rfl
        · exact ih _ (p + 1) (by omega)
      · exact Access.ensures_pure (by simp [Except.map, Access.span_of_lt mem hp])
    · rw [if_neg hp, Access.span_of_le mem (Nat.not_lt.1 hp)]
      exact Access.ensures_pure (by simp [Except.map, readMsglen, Access.span_of_le mem (Nat.not_lt.1 hp)])

theorem badHeaderAt_spec (mem : Nat → UInt8) {len : Nat} (h : 9 ≤ len) :
    (badHeaderAt mem).Ensures len (fun bad => bad = true ↔ mem 0 ≠ msgStart ∨ mem 8 ≠ metaDelim) := by
  unfold badHeaderAt
  refine Access.ensures_load (by omega) ?_
  split
  · rename_i h0
    exact Access.ensures_pure (by simp [h0])
  · rename_i h0
    exact Access.ensures_load (by omega) (Access.ensures_pure (by simp [not_not.1 h0]))

theorem supportedAt_spec (mem : Nat → UInt8) {len : Nat} (h : 9 ≤ len) :
    (supportedAt mem).Ensures len (fun b => b = true ↔ span mem 1 8 = sam0100 ∨ span mem 1 8 = sam0101) := by
  have hloads : (loads mem 1 7).Below len := Access.below_loads mem (by omega)
  unfold supportedAt
  refine Access.ensures_bind hloads ?_
  split
  · rename_i h0
    exact Access.ensures_pure (by simpa using .inl h0)
  · rename_i h0
    refine Access.ensures_bind hloads (Access.ensures_pure ?_)
    rw [decide_eq_true_iff]
    exact ⟨.inr, fun hor => hor.resolve_left h0⟩

/-- A frame that ends before the buffer does: the byte behind it is one of the buffer's. -/
theorem Mirrors.within {α β : Type} {e len : Nat} {v : α → β} {x : Logged (Except DecodeError α)}
    {run : Option UInt8 → Except DecodeError β} (h : Mirrors mem e v x run) (hlt : e < len)
    (hne : run (some (mem e)) ≠ .error .overrun) : Mirrors mem len v x (fun _ => run (some (mem e))) :=
  ⟨h.val, .inl rfl, h.bound.mono (by omega), ⟨fun _ => hne, fun _ => h.bound.mono (by omega)⟩⟩

theorem consumeAt_mirrors (mem : Nat → UInt8) (msg : TxMessage) {len : Nat} (h9 : 9 ≤ len) {supported : Bool} {V : Bytes}
    (hs : supported = true ↔ V = sam0100 ∨ V = sam0101) (msglen p : Nat) :
    Mirrors mem len id (consumeAt mem msg len supported msglen p) (fun past =>
      match span mem p len with
      | []     => .ok (0, msg)
      | c :: q =>
        if c ≠ metaDelim then .error .badMsglen
        else if len < msglen then .ok (0, msg)
        else if V = sam0100 ∨ V = sam0101 then
          match decodeBody (peek past ((span mem 0 len).drop msglen)) (((span mem 0 len).take msglen).drop (len - q.length)) with
          | .error e => .error e
          | .ok m    => .ok (msglen, m)
        else .ok (msglen, msg)) := by
  unfold consumeAt
  split
  · rename_i hp
    rw [Access.span_of_le mem hp]
    exact .ok (0, msg)
  rename_i hp
  rw [Nat.not_le] at hp
  rw [Access.span_of_lt mem hp]
  refine .load hp ?_
  simp only
  split
  · exact .error (by decide)
  split
  · exact .ok (0, msg)
  rename_i hlen
  by_cases hV : V = sam0100 ∨ V = sam0101
  · rw [if_pos (hs.2 hV), Access.length_span, show len - (len - (p + 1)) = p + 1 by omega, Access.take_span mem (by omega),
      Access.drop_span, Access.drop_span, Nat.zero_add, Nat.zero_add]
    simp only [if_pos hV]
    have hbody := decodeBodyAt_mirrors mem msglen (p + 1)
    have hall : Mirrors mem len id (decodeBodyAt mem msglen (p + 1))
        (fun past => decodeBody (peek past (span mem msglen len)) (span mem (p + 1) msglen)) := by
      rcases Nat.lt_or_eq_of_le (Nat.not_lt.1 hlen) with hlt | rfl
      · rw [Access.span_of_lt mem hlt]
        exact hbody.within hlt (fun hover => by have := (decodeBody_raised hover).2 rfl; cases this)
      · rw [Access.span_of_le mem (Nat.le_refl msglen)]
        exact hbody
    exact Mirrors.andThen hall (v := (id : Nat × TxMessage → Nat × TxMessage))
      (f := fun r => match r with
        | .error x => pure (.error x)
        | .ok m    => pure (.ok (msglen, m)))
      (g := fun _ r => match r with
        | .error x => .error x
        | .ok m    => .ok (msglen, m))
      (fun _ => rfl) (fun _ _ => rfl) (fun m => .ok (msglen, m))
  · rw [if_neg (fun h => hV (hs.1 h))]
    simp only [if_neg hV]
    exact .bind (Access.below_loads mem (by omega)) (.ok (msglen, msg))

/-- **The message that `decodeMsg` makes of the memory is the one the decoder over lists makes of the bytes received.** -/
theorem decodeMsgAt_mirrors (mem : Nat → UInt8) (msg : TxMessage) (len : Nat) :
    Mirrors mem len id (decodeMsgAt mem msg len) (fun past => decodeMsg 64 past msg (span mem 0 len)) := by
  unfold decodeMsgAt decodeMsg
  rw [Access.length_span, Nat.sub_zero]
  split
  · exact .ok (0, msg)
  rename_i h9
  rw [Nat.not_lt] at h9
  have h0 : (span mem 0 len).head? = some (mem 0) := by rw [Access.span_of_lt mem (by omega)]; rfl
  have h8 : ((span mem 0 len).drop 8).head? = some (mem 8) := by
    rw [Access.drop_span, Access.span_of_lt mem (by omega)]; rfl
  have hver : ((span mem 0 len).drop 1).take 7 = span mem 1 8 := by
    rw [Access.drop_span, Access.take_span mem (by omega)]
  obtain ⟨hbad, hbadBelow⟩ := badHeaderAt_spec mem h9
  obtain ⟨hsupp, hsuppBelow⟩ := supportedAt_spec mem h9
  obtain ⟨hread, hreadBelow⟩ := readMsglenAt_spec mem len (len - 9) 0 9 (Nat.le_refl _)
  refine .bind hbadBelow ?_
  rw [h0, h8, hver, Access.drop_span, Nat.zero_add]
  simp only [ne_eq, Option.some.injEq]
  split
  · rename_i hb
    simp only [if_pos (hbad.1 hb)]
    exact .error (by decide)
  rename_i hb
  simp only [if_neg (fun h => hb (hbad.2 h))]
  refine .bind hsuppBelow (.bind hreadBelow ?_)
  rw [← hread]
  cases hr : (readMsglenAt mem len (len - 9) 0 9).val with
  | error x =>
    rw [hr] at hread
    have hx := readMsglen_error _ _ hread.symm
    exact .error (by rw [hx]; decide)
  | ok r =>
    obtain ⟨msglen, p⟩ := r
    have hcons := consumeAt_mirrors mem msg h9 hsupp msglen p
    simp only [Except.map]
    cases hsp : span mem p len with
    | nil | cons c q =>
      rw [hsp] at hcons
      exact hcons

theorem decodeMsgAt_val (mem : Nat → UInt8) (msg : TxMessage) (len : Nat) :
    (decodeMsgAt mem msg len).val = decodeMsg 64 (some (mem len)) msg (span mem 0 len) := by
  rw [← (decodeMsgAt_mirrors mem msg len).val]
  cases (decodeMsgAt mem msg len).val <;> rfl

/-! ## The frames that stop behind a `=` -/

/-- **The text of a container up to a `=` that nothing follows**: of one of its own names, or of a name in a container
that is still open. -/
inductive Cut : Bytes → Prop
  | name {nt : Bytes} : Text escape valueDelim nt → nt.head? ≠ some seqEnd → Cut (nt ++ [valueDelim])
  | inside {nt ct : Bytes} : Text escape valueDelim nt → nt.head? ≠ some seqEnd → Cut ct →
      Cut (nt ++ valueDelim :: seqStart :: ct)
  | field {nt vt rest : Bytes} : Text escape valueDelim nt → nt.head? ≠ some seqEnd → Text escape fieldDelim vt →
      vt.head? ≠ some seqStart → Cut rest → Cut (nt ++ valueDelim :: (vt ++ fieldDelim :: rest))
  | child {nt ct rest : Bytes} : Text escape valueDelim nt → nt.head? ≠ some seqEnd → Entries ct → Cut rest →
      Cut (nt ++ valueDelim :: seqStart :: (ct ++ seqEnd :: fieldDelim :: rest))

theorem decodeLoop_cut {text : Bytes} (h : Cut text) : ∀ (fuel : Nat) (is : List TxItem), text.length < fuel →
    decodeLoop none fuel is text = .error .overrun := by
  induction h with
  | name hn hh =>
    intro fuel is hf
    obtain ⟨k, rfl⟩ : ∃ k, fuel = k + 1 := ⟨fuel - 1, by omega⟩
    obtain ⟨n, hn⟩ := hn
    rw [decodeLoop_name hn hh]
    rfl
  | inside hn hh _ ih =>
    intro fuel is hf
    obtain ⟨k, rfl⟩ : ∃ k, fuel = k + 1 := ⟨fuel - 1, by omega⟩
    obtain ⟨n, hn⟩ := hn
    simp only [List.length_append, List.length_cons] at hf
    rw [decodeLoop_name hn hh]
    simp only [decodeValue, peek, if_true, List.drop_succ_cons, List.drop_zero]
    rw [ih k _ (by omega)]
  | field hn hh hv hs _ ih =>
    intro fuel is hf
    obtain ⟨k, rfl⟩ : ∃ k, fuel = k + 1 := ⟨fuel - 1, by omega⟩
    obtain ⟨n, hn⟩ := hn
    obtain ⟨v, hv⟩ := hv
    simp only [List.length_append, List.length_cons] at hf
    rw [decodeLoop_field hn hh hv hs]
    exact ih k _ (by omega)
  | @child nt ct rest hn hh hct _ ih =>
    intro fuel is hf
    obtain ⟨k, rfl⟩ : ∃ k, fuel = k + 1 := ⟨fuel - 1, by omega⟩
    obtain ⟨n, hn⟩ := hn
    simp only [List.length_append, List.length_cons] at hf
    obtain ⟨cs, hcs⟩ := hct.items ((findChild n (putChild is n)).getD [])
    have hc := decodeLoop_complete hcs none k (seqEnd :: fieldDelim :: rest) (by omega) (.inr ⟨_, rfl⟩)
    rw [decodeLoop_child hn hh hc]
    exact ih k _ (by omega)

theorem fieldEnd_overrun {next : Bytes → Except DecodeError (List TxItem × Bytes)} {p : Bytes}
    (h : fieldEnd next p = .error .overrun) : ∃ q, p = fieldDelim :: q ∧ next q = .error .overrun := by
  cases p with
  | nil => cases h
  | cons c q =>
    rw [fieldEnd] at h
    split at h
    · cases h
    · rename_i hc
      exact ⟨q, by rw [not_not.1 hc], h⟩

/-- **A value at which the run without a byte at `end` stops**: it is missing, or the run stops in it or behind it. -/
theorem decodeValue_overrun {next : List TxItem → Bytes → Except DecodeError (List TxItem × Bytes)} {is : List TxItem}
    {n p : Bytes} (h : decodeValue next none is n p = .error .overrun) :
    p = [] ∨ (∃ q, p = seqStart :: q ∧
        (next ((findChild n (putChild is n)).getD []) q = .error .overrun ∨
          ∃ cs r, next ((findChild n (putChild is n)).getD []) q = .ok (cs, fieldDelim :: r) ∧
            next (setChild n cs (putChild is n)) r = .error .overrun)) ∨
      ∃ vt v q, Token escape fieldDelim vt v ∧ vt.head? ≠ some seqStart ∧ p = vt ++ fieldDelim :: q ∧
        next (putField is n v) q = .error .overrun := by
  cases p with
  | nil => exact .inl rfl
  | cons b q =>
    simp only [decodeValue, peek] at h
    split at h
    · rename_i hb
      rw [List.drop_succ_cons, List.drop_zero] at h
      refine .inr (.inl ⟨q, by rw [hb], ?_⟩)
      split at h
      · rename_i x hx
        cases h
        exact .inl hx
      · rename_i cs q' hcs
        obtain ⟨r, rfl, hr⟩ := fieldEnd_overrun h
        exact .inr ⟨cs, r, hcs, hr⟩
    · rename_i hb
      obtain ⟨r, hr, hnext⟩ := fieldEnd_overrun h
      obtain ⟨-, vt, hv, hp⟩ := Scan.scan_sound (b :: q) _ _ _ (Prod.ext rfl hr)
      exact .inr (.inr ⟨vt, _, r, hv, head_ne_of_cons hp hb, hp, hnext⟩)

theorem cut_of_decodeLoop : ∀ (fuel : Nat) (is : List TxItem) (text : Bytes),
    decodeLoop none fuel is text = .error .overrun → Cut text
  | 0, is, text, h => by cases h
  | fuel + 1, is, [], h => by cases h
  | fuel + 1, is, c :: p, h => by
    rcases decodeLoop_cases none fuel is c p with ⟨-, hend⟩ | hend | ⟨nt, n, q, hn, hh, hl⟩
    · rw [hend] at h
      cases h
    · rw [hend] at h
      cases h
    rw [hl, decodeLoop_name hn hh] at h
    rw [hl]
    rcases decodeValue_overrun h with rfl | ⟨q', rfl, hin | ⟨cs, r, hcs, hr⟩⟩ | ⟨vt, v, q', hv, hvs, rfl, hr⟩
    · exact .name ⟨n, hn⟩ hh
    · exact .inside ⟨n, hn⟩ hh (cut_of_decodeLoop fuel _ _ hin)
    · obtain ⟨ct, hct, rfl | ⟨-, hq⟩⟩ := decodeLoop_sound none fuel _ _ _ _ hcs
      · exact .child ⟨n, hn⟩ hh hct.entries (cut_of_decodeLoop fuel _ _ hr)
      · cases hq
    · exact .field ⟨n, hn⟩ hh ⟨v, hv⟩ hvs (cut_of_decodeLoop fuel _ _ hr)

/-- **The run without a byte at `end` stops exactly in a container whose text is cut.** -/
theorem decode_overrun_iff (is : List TxItem) (p : Bytes) : decode none is p = .error .overrun ↔ Cut (p.drop 1) :=
  ⟨fun h => cut_of_decodeLoop _ _ _ h, fun h => decodeLoop_cut h _ _ (by rw [List.length_drop]; omega)⟩

theorem decodeBody_overrun_iff (p : Bytes) :
    decodeBody none p = .error .overrun ↔
      ∃ tt q, Text escape metaDelim tt ∧ p = tt ++ metaDelim :: q ∧ Cut (q.drop 1) := by
  constructor
  · intro h
    rcases decodeBody_cases none p with hbody | ⟨tt, vs, q, ht, rfl⟩
    · rw [hbody] at h
      cases h
    rw [decodeBody_eq none ht] at h
    split at h
    · rename_i x hx
      cases h
      exact ⟨tt, q, ⟨vs, ht⟩, rfl, (decode_overrun_iff [] q).1 hx⟩
    · cases h
  · rintro ⟨tt, q, ⟨vs, ht⟩, rfl, hcut⟩
    rw [decodeBody_eq none ht, (decode_overrun_iff [] q).2 hcut]

/-- A frame that fills the buffer, as a header with its type and what stands behind. -/
theorem frame_iff {buf q : Bytes} :
    Frame buf.length q buf ↔ ∃ V ds tt, Parses buf V ds (tt ++ metaDelim :: q) ∧ (V = sam0100 ∨ V = sam0101) ∧
      Text escape metaDelim tt ∧ Decimal.value ds = buf.length := by
  constructor
  · rintro ⟨V, ds, tt, hf⟩
    exact ⟨V, ds, tt, ⟨hf.bytes, length_version hf.version, hf.digits.2, by rw [hf.value]; exact hf.max⟩, hf.version,
      hf.type, hf.value⟩
  · rintro ⟨V, ds, tt, hp, hV, htt, hval⟩
    have hne : ds ≠ [] := by
      rintro rfl
      have := hp.length
      rw [← hval] at this
      simp [Decimal.value] at this
    exact ⟨V, ds, tt, hV, ⟨hne, hp.digits⟩, hval, hval ▸ hp.max, htt, hp.bytes⟩

/-- `decodeMsg` on a buffer that its frame fills. -/
theorem Parses.decodeMsg_full {buf V ds p : Bytes} (h : Parses buf V ds p) (hV : V = sam0100 ∨ V = sam0101)
    (hval : Decimal.value ds = buf.length) (past : Option UInt8) (msg : TxMessage) :
    decodeMsg 64 past msg buf =
      match decodeBody past p with
      | .error e => .error e
      | .ok m    => .ok (buf.length, m) := by
  have hp : buf.drop (10 + ds.length) = p := by
    rw [← length_header h.version, h.bytes, List.drop_left]
  rw [h.decodeMsg_eq, if_neg (by omega), if_pos hV, hval, List.drop_length, List.take_length, hp]
  rfl

/-- **The guarded run of `decodeMsg` stops exactly at a frame that fills the buffer and is cut.** -/
theorem decodeMsg_overrun_iff (msg : TxMessage) (buf : Bytes) :
    decodeMsg 64 none msg buf = .error .overrun ↔ ∃ q, Frame buf.length q buf ∧ Cut (q.drop 1) := by
  constructor
  · intro h
    rcases header_cases buf with h9 | ⟨e, he⟩ | ⟨V, ds, hV, hdig, hmax, rfl⟩ | ⟨V, ds, p, hp⟩
    · rw [decodeMsg, if_pos h9] at h
      cases h
    · -- the same error whatever stands at `end`, and with a byte there no run stops
      rw [he, Except.error.injEq] at h
      exact absurd h (decodeMsg_raised (he (some 0) msg)).2
    · rw [(decodeMsg_digits hV hdig hmax none msg).1] at h
      cases h
    · have hrun := hp.decodeMsg_eq none msg
      rw [h] at hrun
      split at hrun
      · cases hrun
      rename_i hlen
      split at hrun
      · rename_i hV
        split at hrun
        · rename_i x hx
          cases hrun
          have hfull : Decimal.value ds = buf.length := by
            have hend := (decodeBody_raised hx).2 rfl
            cases hd : buf.drop (Decimal.value ds) with
            | nil => rw [List.drop_eq_nil_iff] at hd; omega
            | cons c l => rw [hd] at hend; cases hend
          rw [hp.decodeMsg_full hV hfull] at h
          split at h
          · rename_i x hx
            cases h
            obtain ⟨tt, q, htt, rfl, hcut⟩ := (decodeBody_overrun_iff p).1 hx
            exact ⟨q, frame_iff.2 ⟨V, ds, tt, hp, hV, htt, hfull⟩, hcut⟩
          · cases h
        · cases hrun
      · cases hrun
  · rintro ⟨q, hf, hcut⟩
    obtain ⟨V, ds, tt, hp, hV, htt, hval⟩ := frame_iff.1 hf
    rw [hp.decodeMsg_full hV hval, (decodeBody_overrun_iff _).2 ⟨tt, q, htt, rfl, hcut⟩]

theorem decodeAt_below_iff (mem : Nat → UInt8) (parent : List TxItem) (p e : Nat) :
    (decodeAt mem e parent p).Below e ↔ ¬ Cut (span mem (p + 1) e) := by
  have hover := decode_overrun_iff parent (span mem p e)
  rw [Access.drop_span] at hover
  rw [(decodeAt_mirrors mem e parent p).stops, ← hover]

theorem decodeMsgAt_below_iff (mem : Nat → UInt8) (msg : TxMessage) (len : Nat) :
    (decodeMsgAt mem msg len).Below len ↔ ¬ ∃ q, Frame len q (span mem 0 len) ∧ Cut (q.drop 1) := by
  have hover := decodeMsg_overrun_iff msg (span mem 0 len)
  rw [Access.length_span, Nat.sub_zero] at hover
  rw [(decodeMsgAt_mirrors mem msg len).stops, ← hover]

/-- **Which bytes the decoder reads.**  `decode` reads below `end`, except in a container whose text is cut, and never beyond
`end` itself; `decodeMsg` reads below the length of the buffer, except for a frame that fills it and is cut. -/
theorem decoder_reads (mem : Nat → UInt8) (msg : TxMessage) (len : Nat) :
    ((decodeMsgAt mem msg len).Below len ↔ ¬ ∃ q, Frame len q (span mem 0 len) ∧ Cut (q.drop 1)) ∧
      ∀ (parent : List TxItem) (p e : Nat),
        ((decodeAt mem e parent p).Below e ↔ ¬ Cut (span mem (p + 1) e)) ∧ (decodeAt mem e parent p).Below (e + 1) :=
  ⟨decodeMsgAt_below_iff mem msg len, fun parent p e =>
    ⟨decodeAt_below_iff mem parent p e, (decodeAt_mirrors mem e parent p).bound⟩⟩

/-- A frame that ends behind a `=`, and what lies behind it in memory. -/
def cutFrame : Bytes := ascii "\x7bSAM0100:17:t:[a="

def cutMem (i : Nat) : UInt8 := cutFrame.getD i 0

theorem reads_past_cutFrame : ¬ (decodeMsgAt cutMem .empty 17).Below 17 ∧ ¬ (decodeAt cutMem 17 [] 14).Below 17 := by
  have hname : Text escape valueDelim (ascii "a") := ⟨_, Scan.token_plain _ (by decide) (by decide)⟩
  have hcut : Cut (ascii "a=") := .name hname (by decide)
  have hq : Frame 17 (ascii "[a=") (span cutMem 0 17) :=
    ⟨sam0100, ascii "17", ascii "t", .inl rfl, ⟨by decide, List.all_eq_true.1 (by decide)⟩, by decide, by decide,
      ⟨_, Scan.token_plain _ (by decide) (by decide)⟩, by decide⟩
  rw [decodeMsgAt_below_iff, decodeAt_below_iff]
  exact ⟨fun h => h ⟨_, hq, hcut⟩, fun h => h hcut⟩

end

end Sam
end Exio
