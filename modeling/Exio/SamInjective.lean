import Exio.SamEncode
import Exio.SamDecode
/-!
# SamInjective — when two messages share an encoding

The decoder un-escapes types and names, but `encodeMsg` escapes values only, so a name may hold the bytes of a whole
field.  Which names are safe depends on the bytes they are made of: `Ambiguous A` lists the pairs of bytes that let two
trees with names over `A` be written alike, and without such a pair the encoding is injective (`itemsBytes_inj`), since
a longer name would have to hold the end of a value, a bracket, or the end of a container.
-/
namespace Exio
namespace Sam

open DynamicSamBuffer

/-- **The pairs of bytes that make names ambiguous.** -/
def Ambiguous (A : UInt8 → Prop) : Prop :=
  (A valueDelim ∧ (A escape ∨ A fieldDelim ∨ A seqStart)) ∨ (A seqEnd ∧ A fieldDelim) ∨ (A metaDelim ∧ A seqStart)

def NamesOver (A : UInt8 → Prop) (is : List TxItem) : Prop := ∀ i ∈ is, ∀ c ∈ i.name, A c

/-- The type and every name of the tree are made of bytes of `A`. -/
def Over (A : UInt8 → Prop) (m : TxMessage) : Prop := (∀ c ∈ m.type, A c) ∧ Everywhere (NamesOver A) m.root

/-- What an encoded item has behind its name and `=`. -/
def TxItem.valueBytes : TxItem → Bytes
  | .field _ v      => escaped v ++ [fieldDelim]
  | .container _ is => seqStart :: (itemsBytes is ++ [seqEnd, fieldDelim])

theorem bytes_eq : ∀ (i : TxItem), i.bytes = i.name ++ valueDelim :: i.valueBytes
  | .field n v      => by rw [TxItem.bytes, TxItem.name, TxItem.valueBytes]
  | .container n is => by rw [TxItem.bytes, TxItem.name, TxItem.valueBytes]

/-- **A name does not reach into a value**: a value's bytes cannot hold the rest of a longer name and its `=`. -/
theorem valueBytes_ne {A : UInt8 → Prop} (hA : ¬ Ambiguous A) (heq : A valueDelim) (i : TxItem) {R u Y : Bytes}
    (hu : ∀ c ∈ u, A c) : i.valueBytes ++ R ≠ u ++ valueDelim :: Y := by
  intro h
  have hesc : escape ∉ u := fun hm => hA (.inl ⟨heq, .inl (hu _ hm)⟩)
  have hfd : fieldDelim ∉ u := fun hm => hA (.inl ⟨heq, .inr (.inl (hu _ hm))⟩)
  have hss : seqStart ∉ u := fun hm => hA (.inl ⟨heq, .inr (.inr (hu _ hm))⟩)
  cases i with
  | field n v =>
    rw [TxItem.valueBytes, List.append_assoc, List.singleton_append, List.append_eq_append_iff] at h
    rcases h with ⟨a, hu', ha⟩ | ⟨a, hv, ha⟩
    · -- the value ends inside `u`, or right behind it
      cases a with
      | nil => exact absurd (List.cons.inj ha).1 (by decide)
      | cons x a =>
        rw [List.cons_append] at ha
        exact hfd (by rw [hu', ← (List.cons.inj ha).1]; simp)
    · cases a with
      | nil => exact absurd (List.cons.inj ha).1 (by decide)
      | cons x a =>
        rw [List.cons_append] at ha
        rw [← (List.cons.inj ha).1] at hv
        exact hesc (Scan.mem_of_escapeWith_eq (by decide) (by decide) v u a hv)
  | container n is =>
    cases u with
    | nil => exact absurd (List.cons.inj h).1 (by decide)
    | cons x u => exact hss (by rw [← (List.cons.inj h).1]; simp)

/-- The name of an encoded item is determined. -/
theorem name_inj {A : UInt8 → Prop} (hA : ¬ Ambiguous A) {i j : TxItem} {R S : Bytes} (hi : ∀ c ∈ i.name, A c)
    (hj : ∀ c ∈ j.name, A c) (h : i.bytes ++ R = j.bytes ++ S) :
    i.name = j.name ∧ i.valueBytes ++ R = j.valueBytes ++ S := by
  rw [bytes_eq, bytes_eq, List.append_assoc, List.append_assoc, List.cons_append, List.cons_append] at h
  rcases Scan.cut_cases h with h | ⟨u, hn, hy⟩ | ⟨u, hn, hy⟩
  · exact h
  · exact absurd hy (valueBytes_ne hA (hj _ (by rw [hn]; simp)) i (fun c hc => hj c (by rw [hn]; simp [hc])))
  · exact absurd hy (valueBytes_ne hA (hi _ (by rw [hn]; simp)) j (fun c hc => hi c (by rw [hn]; simp [hc])))

/-- A value does not start like a container. -/
theorem field_ne_container {n n' R S : Bytes} (v : Bytes) (cs : List TxItem) :
    (TxItem.field n v).valueBytes ++ R ≠ (TxItem.container n' cs).valueBytes ++ S := by
  intro h
  rw [TxItem.valueBytes, TxItem.valueBytes, List.append_assoc, List.cons_append] at h
  have hh : (escaped v).head? ≠ some seqStart := Scan.head?_escapeWith (by decide) (by decide) v
  cases he : escaped v with
  | nil =>
    rw [he] at h
    exact absurd (List.cons.inj h).1 (by decide)
  | cons x l =>
    rw [he] at h hh
    exact hh (by rw [(List.cons.inj h).1]; rfl)

/-- What stands behind the `]` of a container. -/
def Tail (R : Bytes) : Prop := (∃ R', R = fieldDelim :: R') ∨ R = [msgEnd, msgDelim]

/-- The end of a container does not read as an entry. -/
theorem end_ne_item {A : UInt8 → Prop} (hA : ¬ Ambiguous A) {i : TxItem} {R S : Bytes} (hi : ∀ c ∈ i.name, A c)
    (hR : Tail R) : seqEnd :: R ≠ i.bytes ++ S := by
  intro h
  rw [bytes_eq, List.append_assoc, List.cons_append] at h
  cases hn : i.name with
  | nil =>
    rw [hn] at h
    exact absurd (List.cons.inj h).1 (by decide)
  | cons c n =>
    rw [hn, List.cons_append] at h
    obtain ⟨hc, h⟩ := List.cons.inj h
    rcases hR with ⟨R', rfl⟩ | rfl
    · cases n with
      | nil => exact absurd (List.cons.inj h).1 (by decide)
      | cons d n =>
        obtain ⟨hd, -⟩ := List.cons.inj h
        exact hA (.inr (.inl ⟨hi _ (by rw [hn, hc]; simp), hi _ (by rw [hn, hd]; simp)⟩))
    · have hm : valueDelim ∈ [msgEnd, msgDelim] := by rw [h]; simp
      exact absurd hm (by decide)

/-- **Trees over an unambiguous alphabet are determined by their bytes.** -/
theorem itemsBytes_inj {A : UInt8 → Prop} (hA : ¬ Ambiguous A) : ∀ (is js : List TxItem) (R S : Bytes),
    Everywhere (NamesOver A) is → Everywhere (NamesOver A) js → Tail R → Tail S →
      itemsBytes is ++ seqEnd :: R = itemsBytes js ++ seqEnd :: S → is = js ∧ R = S
  | [], [], R, S, _, _, _, _, h => ⟨rfl, (List.cons.inj h).2⟩
  | [], j :: js, R, S, _, hj, hR, _, h => by
    rw [itemsBytes, itemsBytes, List.append_assoc] at h
    exact absurd h (end_ne_item hA (hj.1 j (by simp)) hR)
  | i :: is, [], R, S, hi, _, _, hS, h => by
    rw [itemsBytes, itemsBytes, List.append_assoc] at h
    exact absurd h.symm (end_ne_item hA (hi.1 i (by simp)) hS)
  | .field n v :: is, .field n' v' :: js, R, S, hi, hj, hR, hS, h => by
    rw [itemsBytes, itemsBytes, List.append_assoc, List.append_assoc] at h
    obtain ⟨hn, h⟩ := name_inj hA (hi.1 (.field n v) (by simp)) (hj.1 (.field n' v') (by simp)) h
    simp only [TxItem.valueBytes, List.append_assoc, List.singleton_append] at h
    have htok : ∀ u : Bytes, Scan.Token escape fieldDelim (escaped u) u := Scan.token_escapeWith (by decide) (by decide)
    have hs := Scan.scan_token escape_ne_fieldDelim (htok v) (itemsBytes is ++ seqEnd :: R)
    rw [h, Scan.scan_token escape_ne_fieldDelim (htok v'),
      Prod.mk.injEq, List.cons.injEq] at hs
    obtain ⟨rfl, rfl⟩ := itemsBytes_inj hA is js R S ⟨fun i hm => hi.1 i (by simp [hm]), hi.2.2⟩
      ⟨fun j hm => hj.1 j (by simp [hm]), hj.2.2⟩ hR hS hs.2.2.symm
    simp only [TxItem.name] at hn
    exact ⟨by rw [hn, hs.1], rfl⟩
  | .container n cs :: is, .container n' cs' :: js, R, S, hi, hj, hR, hS, h => by
    rw [itemsBytes, itemsBytes, List.append_assoc, List.append_assoc] at h
    obtain ⟨hn, h⟩ := name_inj hA (hi.1 (.container n cs) (by simp)) (hj.1 (.container n' cs') (by simp)) h
    simp only [TxItem.valueBytes, List.append_assoc, List.cons_append, List.nil_append, List.cons.injEq, true_and] at h
    obtain ⟨rfl, ht⟩ := itemsBytes_inj hA cs cs' _ _ hi.2.1 hj.2.1 (.inl ⟨_, rfl⟩) (.inl ⟨_, rfl⟩) h
    obtain ⟨rfl, rfl⟩ := itemsBytes_inj hA is js R S ⟨fun i hm => hi.1 i (by simp [hm]), hi.2.2⟩
      ⟨fun j hm => hj.1 j (by simp [hm]), hj.2.2⟩ hR hS (List.cons.inj ht).2
    simp only [TxItem.name] at hn
    exact ⟨by rw [hn], rfl⟩
  | .field n v :: is, .container n' cs' :: js, R, S, hi, hj, hR, hS, h => by
    rw [itemsBytes, itemsBytes, List.append_assoc, List.append_assoc] at h
    obtain ⟨-, h⟩ := name_inj hA (hi.1 (.field n v) (by simp)) (hj.1 (.container n' cs') (by simp)) h
    exact absurd h (field_ne_container v cs')
  | .container n cs :: is, .field n' v' :: js, R, S, hi, hj, hR, hS, h => by
    rw [itemsBytes, itemsBytes, List.append_assoc, List.append_assoc] at h
    obtain ⟨-, h⟩ := name_inj hA (hi.1 (.container n cs) (by simp)) (hj.1 (.field n' v') (by simp)) h
    exact absurd h.symm (field_ne_container v' cs)

/-- The type of an encoded message is determined. -/
theorem type_inj {A : UInt8 → Prop} (hA : ¬ Ambiguous A) {t t' X Y : Bytes} (ht : ∀ c ∈ t, A c) (ht' : ∀ c ∈ t', A c)
    (h : t ++ metaDelim :: seqStart :: X = t' ++ metaDelim :: seqStart :: Y) : t = t' ∧ X = Y := by
  -- a longer type would hold the delimiter and the bracket behind it
  have key : ∀ {s s' u Z W : Bytes}, (∀ c ∈ s', A c) → s' = s ++ metaDelim :: u →
      seqStart :: Z = u ++ metaDelim :: seqStart :: W → False := by
    intro s s' u Z W hs hu h
    cases u with
    | nil => exact absurd (List.cons.inj h).1 (by decide)
    | cons x u =>
      rw [← (List.cons.inj h).1] at hu
      exact hA (.inr (.inr ⟨hs _ (by rw [hu]; simp), hs _ (by rw [hu]; simp)⟩))
  rcases Scan.cut_cases h with ⟨rfl, hx⟩ | ⟨u, hu, hx⟩ | ⟨u, hu, hx⟩
  · exact ⟨rfl, (List.cons.inj hx).2⟩
  · exact (key ht' hu hx).elim
  · exact (key ht hu hx).elim

theorem payloadOf_inj {A : UInt8 → Prop} (hA : ¬ Ambiguous A) {m m' : TxMessage} (hm : Over A m) (hm' : Over A m')
    (h : payloadOf m = payloadOf m') : m = m' := by
  rw [payloadOf, payloadOf, List.cons.injEq] at h
  obtain ⟨ht, hi⟩ := type_inj hA hm.1 hm'.1 h.2
  obtain ⟨hr, -⟩ := itemsBytes_inj hA m.root m'.root _ _ hm.2 hm'.2 (.inr rfl) (.inr rfl) hi
  cases m
  cases m'
  simp only at ht hr
  rw [ht, hr]

/-- The payload of a frame is determined by its bytes, whatever the length it announces. -/
theorem frame_inj {n n' : Nat} {P P' : Bytes} (h : frame n (metaDelim :: P) = frame n' (metaDelim :: P')) : P = P' := by
  rw [frame, frame] at h
  obtain ⟨-, h⟩ := List.append_inj h (by simp only [length_headFor, length_versionFor])
  have hs := Scan.scan_token escape_ne_metaDelim (digits_token (Decimal.isDigit_of_mem_decimal n)) P
  rw [h, Scan.scan_token escape_ne_metaDelim (digits_token (Decimal.isDigit_of_mem_decimal n')), Prod.mk.injEq,
    List.cons.injEq] at hs
  exact hs.2.2.symm

/-! ## An ambiguous alphabet -/

/-- Two different messages that are written alike. -/
def Clash (m m' : TxMessage) : Prop :=
  m ≠ m' ∧ Everywhere Distinct m.root ∧ Everywhere Distinct m'.root ∧ payloadOf m = payloadOf m'

instance (m m' : TxMessage) : Decidable (Clash m m') :=
  inferInstanceAs (Decidable (m ≠ m' ∧ Everywhere Distinct m.root ∧ Everywhere Distinct m'.root ∧ payloadOf m = payloadOf m'))

/-- **Every ambiguous pair of bytes gives two messages that are written alike**, with no other byte in a name. -/
theorem ambiguous_clash {A : UInt8 → Prop} (hA : Ambiguous A) : ∃ m m', Over A m ∧ Over A m' ∧ Clash m m' ∧
    (payloadOf m).length + 19 < 2 ^ 32 := by
  rcases hA with ⟨h1, h2 | h2 | h2⟩ | ⟨h1, h2⟩ | ⟨h1, h2⟩
  · refine ⟨⟨[], [.field [] [valueDelim]]⟩, ⟨[], [.field [valueDelim, escape] []]⟩, ?_, ?_, by decide, by decide⟩ <;>
      simp [Over, Everywhere, AllInside, TxItem.Inside, NamesOver, TxItem.name, h1, h2]
  · refine ⟨⟨[], [.field [] [], .container [] []]⟩, ⟨[], [.container [valueDelim, fieldDelim] []]⟩, ?_, ?_, by decide,
      by decide⟩ <;>
      simp [Over, Everywhere, AllInside, TxItem.Inside, NamesOver, TxItem.name, h1, h2]
  · refine ⟨⟨[], [.field [valueDelim, seqStart] [], .container [] [.field [] []]]⟩,
      ⟨[], [.container [] [.field [] [], .field [valueDelim, seqStart] []]]⟩, ?_, ?_, by decide, by decide⟩ <;>
      simp [Over, Everywhere, AllInside, TxItem.Inside, NamesOver, TxItem.name, h1, h2]
  · refine ⟨⟨[], [.container [] [.field [] []], .field [] [], .field [seqEnd, fieldDelim] []]⟩,
      ⟨[], [.container [] [.field [] [], .field [seqEnd, fieldDelim] []], .field [] []]⟩, ?_, ?_, by decide, by decide⟩ <;>
      simp [Over, Everywhere, AllInside, TxItem.Inside, NamesOver, TxItem.name, h1, h2]
  · refine ⟨⟨[], [.field [metaDelim, seqStart] []]⟩, ⟨[metaDelim, seqStart], [.field [] []]⟩, ?_, ?_, by decide,
      by decide⟩ <;>
      simp [Over, Everywhere, AllInside, TxItem.Inside, NamesOver, TxItem.name, h1, h2]

/-- **No two different messages share an encoding, exactly where the bytes of types and names are not ambiguous.** -/
theorem encodeMsg_injective_iff (A : UInt8 → Prop) :
    (∀ (m m' : TxMessage), Over A m → Over A m' → Everywhere Distinct m.root → Everywhere Distinct m'.root →
      ∀ (reserve reserve' n n' : Nat) (sb sb' : DynamicSamBuffer), reserve ≤ vectorMaxSize → reserve' ≤ vectorMaxSize →
        encodeMsg m (new reserve) = .ok (n, sb) → encodeMsg m' (new reserve') = .ok (n', sb') →
          sb.payload = sb'.payload → m = m') ↔ ¬ Ambiguous A := by
  constructor
  · intro h hA
    obtain ⟨m, m', hm, hm', ⟨hne, hd, hd', hp⟩, hlen⟩ := ambiguous_clash hA
    obtain ⟨n, sb, he, hb, -⟩ := encodeMsg_encoding m (show 512 ≤ vectorMaxSize by decide) hlen
    obtain ⟨n', sb', he', hb', -⟩ := encodeMsg_encoding m' (show 512 ≤ vectorMaxSize by decide) (hp ▸ hlen)
    exact hne (h m m' hm hm' hd hd' 512 512 n n' sb sb' (by decide) (by decide) he he'
      (by rw [hb, hb', encoding, encoding, hp]))
  · intro hA m m' hm hm' _ _ reserve reserve' n n' sb sb' hr hr' he he' heq
    obtain ⟨-, hb, -⟩ := encodeMsg_payload hr he
    obtain ⟨-, hb', -⟩ := encodeMsg_payload hr' he'
    rw [hb, hb'] at heq
    exact payloadOf_inj hA hm hm' (congrArg (metaDelim :: ·) (frame_inj heq))

/-- Two fields. -/
def twoFields : TxMessage := ⟨ascii "t", [.field (ascii "a") (ascii "1"), .field (ascii "b") (ascii "2")]⟩

/-- One field, with a name that holds the first of the two. -/
def oneField : TxMessage := ⟨ascii "t", [.field (ascii "a=1,b") (ascii "2")]⟩

theorem encodeMsg_clash : twoFields ≠ oneField ∧ Everywhere Distinct twoFields.root ∧ Everywhere Distinct oneField.root ∧
    ∃ n sb n' sb', encodeMsg twoFields (new 512) = .ok (n, sb) ∧ encodeMsg oneField (new 512) = .ok (n', sb') ∧
      sb.payload = sb'.payload := by
  obtain ⟨n, sb, he, hb, -⟩ := encodeMsg_encoding twoFields (show 512 ≤ vectorMaxSize by decide) (by decide)
  obtain ⟨n', sb', he', hb', -⟩ := encodeMsg_encoding oneField (show 512 ≤ vectorMaxSize by decide) (by decide)
  refine ⟨by decide, by decide, by decide, n, sb, n', sb', he, he', ?_⟩
  rw [hb, hb']
  decide

end Sam
end Exio
