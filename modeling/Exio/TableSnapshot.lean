import Mathlib.Algebra.Order.BigOperators.Group.List
import Exio.TableRows
/-!
# TableSnapshot — the messages of a snapshot, and a subscription that fails

A snapshot goes out in batches that are cut until they fit a message.  The size of a message grows with every row in it
(`calcEncodedSize_snapshotBatch`), so that a row which does not fit alone fits no batch: the snapshot throws exactly if
there is such a row.  Otherwise the messages are the table's rows, once and in order, and have room for the two numbers
that are put in after the check, as long as these are not wrong: they are `int`s (`snapshot_batching`).  How many messages
there will be is known from the sizes of the rows and the stored batch size (`DataTable.batchCount`).

`add_subscriber` records the session before it makes the snapshot, and an exception leaves it there
(`failed_subscription`).
-/
namespace Exio

open Sam Replica
open Decimal (decimal)
open Sam.DynamicSamBuffer (new)

/-! ## The size of a batch -/

/-- What the cells and the metadata of a row take in a message. -/
def itemsSize (pcmd : Std.TreeMap Bytes (Std.TreeMap Bytes TxContainer)) (row : DataRow) : Nat :=
  (itemsBytes (snapshotItems pcmd row)).length

/-- What a row takes in a message, at a position. -/
def rowSize (pcmd : Std.TreeMap Bytes (Std.TreeMap Bytes TxContainer)) (r : DataRow × Nat) : Nat :=
  (rowName r.2).length + itemsSize pcmd r.1 + 4

theorem length_itemsBytes_containers (pcmd : Std.TreeMap Bytes (Std.TreeMap Bytes TxContainer)) :
    ∀ (rs : List (DataRow × Nat)),
    (itemsBytes (rs.map fun r => TxItem.container (rowName r.2) (snapshotItems pcmd r.1))).length =
      (rs.map (rowSize pcmd)).sum
  | [] => rfl
  | r :: rs => by
    rw [List.map_cons, itemsBytes, List.length_append, length_itemsBytes_containers pcmd rs, List.map_cons, List.sum_cons,
      TxItem.bytes, rowSize, itemsSize]
    simp only [List.length_append, List.length_cons, List.length_nil]
    omega

/-- What a snapshot message takes without its rows and their number. -/
def DataTable.baseSize (t : DataTable) : Nat :=
  calcEncodedSize ⟨Id.tableupdate, [snapshotHead t.tableName, .container Id.body [.field Id.rows []]]⟩

theorem isSpecialChar_of_isDigit {c : UInt8} (h : Decimal.isDigit c = true) : isSpecialChar c = false := by
  have hall : ∀ n : Fin 256, Decimal.isDigit (UInt8.ofNat n) = true → isSpecialChar (UInt8.ofNat n) = false := by
    decide +kernel
  have hc := hall ⟨c.toNat, c.toNat_lt⟩
  rw [UInt8.ofNat_toNat] at hc
  exact hc h

theorem length_escaped_decimal (n : Nat) : (escaped (decimal n)).length = (decimal n).length := by
  rw [escaped, Scan.escapeWith_of_none _ fun c hc => isSpecialChar_of_isDigit (Decimal.isDigit_of_mem_decimal n c hc)]

/-- **The size of a batch.** -/
theorem calcEncodedSize_snapshotBatch (t : DataTable) (rows : List DataRow) :
    calcEncodedSize (t.snapshotBatch rows) =
      t.baseSize + (decimal rows.length).length + (rows.zipIdx.map (rowSize t.pcmd)).sum := by
  have hrows := length_itemsBytes_containers t.pcmd rows.zipIdx
  have htype : (t.snapshotBatch rows).type = Id.tableupdate := rfl
  have hempty : (escaped []).length = 0 := rfl
  rw [DataTable.baseSize, calcEncodedSize_eq, calcEncodedSize_eq, payloadOf, payloadOf, snapshotBatch_root, htype]
  simp only [itemsBytes, TxItem.bytes, snapshotBody, rowContainers, List.length_append, List.length_cons, List.length_nil,
    hrows, length_escaped_decimal, hempty]
  omega

theorem calcEncodedSize_snapshotBatch_singleton (t : DataTable) (row : DataRow) :
    calcEncodedSize (t.snapshotBatch [row]) = t.baseSize + 1 + rowSize t.pcmd (row, 0) := by
  have hone : (decimal 1).length = 1 := by rw [Decimal.decimal_of_lt (by decide)]; rfl
  rw [calcEncodedSize_snapshotBatch, List.length_singleton, hone]
  rfl

/-- The later a row stands, the more its name takes. -/
theorem rowSize_zero_le (pcmd : Std.TreeMap Bytes (Std.TreeMap Bytes TxContainer)) (row : DataRow) (i : Nat) :
    rowSize pcmd (row, 0) ≤ rowSize pcmd (row, i) := by
  unfold rowSize rowName
  simp only [List.length_append]
  have := Decimal.length_decimal_mono (Nat.zero_le i)
  omega

/-- **A row of a batch that fits, fits alone.** -/
theorem checkEncSize_singleton {t : DataTable} {rows : List DataRow} {margin : Nat}
    (h : checkEncSize (t.snapshotBatch rows) margin = true) {row : DataRow} (hrow : row ∈ rows) :
    checkEncSize (t.snapshotBatch [row]) margin = true := by
  obtain ⟨i, hi⟩ := List.mem_iff_getElem?.1 hrow
  have hmem : (row, i) ∈ rows.zipIdx := List.mem_zipIdx_iff_getElem?.2 hi
  have hsum : rowSize t.pcmd (row, i) ≤ (rows.zipIdx.map (rowSize t.pcmd)).sum :=
    List.single_le_sum (fun _ _ => Nat.zero_le _) _ (List.mem_map_of_mem hmem)
  have hpos : 0 < (decimal rows.length).length := List.length_pos_iff.2 (Decimal.decimal_ne_nil _)
  have hle := rowSize_zero_le t.pcmd row i
  rw [checkEncSize, decide_eq_true_iff] at h ⊢
  rw [calcEncodedSize_snapshotBatch] at h
  rw [calcEncodedSize_snapshotBatch_singleton]
  omega

/-! ## The number of batches -/

/-- The size of a batch, from what its rows take. -/
def batchSize (base : Nat) (sizes : List Nat) : Nat :=
  base + (decimal sizes.length).length + (sizes.zipIdx.map fun r => (rowName r.2).length + r.1 + 4).sum

/-- **How many batches rows of these sizes make**: a batch that is too big is halved, and one row cannot be. -/
def batchCount (base : Nat) (batchsize : BatchSize) (sizes : List Nat) : Nat :=
  if sizes = [] then 0
  else if batchSize base (sizes.take batchsize.rows) + roomForSnapFields ≤ maxMsgLen ∨ batchsize.rows = 1 then
    batchCount base batchsize (sizes.drop batchsize.rows) + 1
  else batchCount base batchsize.half sizes
termination_by sizes.length + batchsize.rows
decreasing_by
  · rename_i hsizes _
    have := batchsize.pos
    have := List.length_pos_iff.2 hsizes
    rw [List.length_drop]
    omega
  · rename_i hbig
    have := BatchSize.half_lt fun hone => hbig (.inr hone)
    omega

/-- How many messages a snapshot has. -/
def DataTable.batchCount (t : DataTable) : Nat := Exio.batchCount t.baseSize t.batchsize (t.rows.map (itemsSize t.pcmd))

/-- The check looks at the sizes only. -/
theorem checkEncSize_snapshotBatch (t : DataTable) (rows : List DataRow) (margin : Nat) :
    checkEncSize (t.snapshotBatch rows) margin = true ↔
      batchSize t.baseSize (rows.map (itemsSize t.pcmd)) + margin ≤ maxMsgLen := by
  have hsum : ((rows.map (itemsSize t.pcmd)).zipIdx.map fun r => (rowName r.2).length + r.1 + 4) =
      rows.zipIdx.map (rowSize t.pcmd) := by
    rw [List.zipIdx_map, List.map_map]
    rfl
  rw [checkEncSize, decide_eq_true_iff, calcEncodedSize_snapshotBatch, batchSize, List.length_map, hsum]

theorem length_snapshotLoop (t : DataTable) (batchsize : BatchSize) (next : List DataRow) (msgs : List TxMessage)
    {out : List TxMessage × BatchSize} (h : t.snapshotLoop batchsize next msgs = .ok out) :
    out.1.length = msgs.length + Exio.batchCount t.baseSize batchsize (next.map (itemsSize t.pcmd)) := by
  fun_induction DataTable.snapshotLoop t batchsize next msgs with
  | case1 batchsize msgs =>
    cases h
    rw [List.map_nil, Exio.batchCount, if_pos rfl]
    rfl
  | case2 batchsize next msgs hnext msg hfits ih =>
    have hcount : Exio.batchCount t.baseSize batchsize (next.map (itemsSize t.pcmd)) =
        Exio.batchCount t.baseSize batchsize ((next.drop batchsize.rows).map (itemsSize t.pcmd)) + 1 := by
      rw [Exio.batchCount, if_neg (by simpa using hnext), ← List.map_take,
        if_pos (.inl ((checkEncSize_snapshotBatch t _ _).1 hfits)), List.map_drop]
    rw [ih h, hcount, List.length_append, List.length_singleton]
    omega
  | case3 => cases h
  | case4 batchsize next msgs hnext msg hfits hone ih =>
    rw [checkEncSize_snapshotBatch, List.map_take] at hfits
    rw [ih h]
    conv => rhs; rw [Exio.batchCount, if_neg (by simpa using hnext), if_neg (not_or.2 ⟨hfits, hone⟩)]

/-- **The number of messages is the number of batches.** -/
theorem length_snapshotMsgs {t : DataTable} {msgs : List TxMessage} {batchsize : BatchSize}
    (h : t.snapshotMsgs = .ok (msgs, batchsize)) : msgs.length = t.batchCount := by
  unfold DataTable.snapshotMsgs at h
  split at h
  · cases h
  · rename_i msgs' batchsize' hloop
    cases h
    rw [numberSnapshot, List.length_map, List.length_zipIdx, length_snapshotLoop t _ _ _ hloop]
    exact Nat.zero_add _

/-! ## When a snapshot throws -/

theorem snapshotLoop_error (t : DataTable) (batchsize : BatchSize) (next : List DataRow) (msgs : List TxMessage)
    {e : RuntimeError} (h : t.snapshotLoop batchsize next msgs = .error e) : e = ⟨"failed to encode snapshot"⟩ := by
  fun_induction DataTable.snapshotLoop t batchsize next msgs with
  | case1 => cases h
  | case2 batchsize next msgs hnext msg hfits ih => exact ih h
  | case3 =>
    cases h
    rfl
  | case4 batchsize next msgs hnext msg hfits hone ih => exact ih h

/-- **A snapshot throws exactly if some row does not fit a message of its own.** -/
theorem snapshotMsgs_error_iff (t : DataTable) : t.snapshotMsgs = .error ⟨"failed to encode snapshot"⟩ ↔
    ∃ row ∈ t.rows, checkEncSize (t.snapshotBatch [row]) roomForSnapFields = false := by
  constructor
  · intro he
    refine DataTable.not_rowsFit_iff.1 fun hfit => ?_
    obtain ⟨out, hout⟩ := snapshotMsgs_isOk hfit
    rw [he] at hout
    cases hout
  · rintro ⟨row, hrow, hbig⟩
    unfold DataTable.snapshotMsgs
    split
    · rename_i e hloop
      rw [snapshotLoop_error t _ _ _ hloop]
    · rename_i msgs batchsize hloop
      obtain ⟨batches, -, hrows, hbatches, -⟩ := snapshotLoop_ok t _ _ _ hloop
      rw [← hrows] at hrow
      obtain ⟨batch, hb, hm⟩ := List.mem_flatten.1 hrow
      rw [checkEncSize_singleton (hbatches batch hb).2.2 hm] at hbig
      cases hbig

/-! ## The numbers -/

/-- **`to_str` writes a count as it is below `2 ^ 31`**, and as another number or with a sign from there on. -/
theorem toStr_toInt_eq_decimal_iff (n : Nat) : toStr (Word.toInt 32 n) = decimal n ↔ n < 2 ^ 31 := by
  constructor
  · intro h
    unfold toStr Decimal.signed Word.toInt at h
    by_cases hlow : n % 2 ^ 32 < 2 ^ (32 - 1)
    · rw [if_pos hlow, if_neg (by omega), Int.natAbs_natCast] at h
      have := Decimal.decimal_injective h
      omega
    · rw [if_neg hlow, if_pos (by omega)] at h
      have hdash := Decimal.isDigit_of_mem_decimal n 45 (h ▸ List.mem_cons_self)
      exact absurd hdash (by decide)
  · intro h
    rw [Word.toInt_of_lt (by decide) h, toStr, Decimal.signed, if_neg (by omega), Int.natAbs_natCast]

/-- A snapshot message as it is sent. -/
def DataTable.numbered (t : DataTable) (snapi snapn : Bytes) (rows : List DataRow) : TxMessage :=
  ⟨Id.tableupdate, [.container Id.head [.field Id.tablename t.tableName, .field Id.msgtype Id.tableupdate,
    .field Id.snapi snapi, .field Id.snapn snapn], .container Id.body (snapshotBody t.pcmd rows)]⟩

theorem numberSnapshot_batches (t : DataTable) (batches : List (List DataRow)) :
    numberSnapshot (batches.map t.snapshotBatch) = batches.zipIdx.map fun b =>
      t.numbered (toStr (Word.toInt 32 b.2)) (toStr (Word.toInt 32 batches.length)) b.1 := by
  unfold numberSnapshot
  simp only [List.length_map, List.zipIdx_map, List.map_map]
  refine List.map_congr_left fun b _ => ?_
  simp only [Function.comp_apply, Prod.map_fst, Prod.map_snd, id_eq, snapshotBatch_root]
  rfl

theorem bodyRows_numbered (t : DataTable) (snapi snapn : Bytes) (rows : List DataRow) :
    bodyRows (t.numbered snapi snapn rows).root = rows.map (snapshotItems t.pcmd) := by
  rw [← bodyRows_snapshotBatch, snapshotBatch_root]
  rfl

/-- **The room for the numbers is enough** for eighteen digits each. -/
theorem checkEncSize_numbered {t : DataTable} {rows : List DataRow} {i n : Nat}
    (h : checkEncSize (t.snapshotBatch rows) roomForSnapFields = true) (hi : (decimal i).length ≤ 18)
    (hn : (decimal n).length ≤ 18) : checkEncSize (t.numbered (decimal i) (decimal n) rows) 0 = true := by
  have hsize : calcEncodedSize (t.numbered (decimal i) (decimal n) rows) =
      calcEncodedSize (t.snapshotBatch rows) + 14 + (decimal i).length + (decimal n).length := by
    have hsnapi : Id.snapi.length = 5 := rfl
    have hsnapn : Id.snapn.length = 5 := rfl
    have htype : (t.snapshotBatch rows).type = Id.tableupdate := rfl
    rw [calcEncodedSize_eq, calcEncodedSize_eq, payloadOf, payloadOf, snapshotBatch_root, htype, DataTable.numbered]
    simp only [itemsBytes, TxItem.bytes, snapshotHead, List.length_append, List.length_cons, List.length_nil,
      length_escaped_decimal, hsnapi, hsnapn]
    omega
  rw [checkEncSize, decide_eq_true_iff] at h ⊢
  rw [hsize]
  simp only [roomForSnapFields] at h
  omega

/-! ## What a snapshot sends -/

/-- **The messages of a snapshot are the table**: its rows in order and once each, every message numbered, counted and within
the limit; and the batch size has not grown. -/
structure SnapshotComplete (t : DataTable) (msgs : List TxMessage) (batchsize : BatchSize) : Prop where
  rows   : (msgs.flatMap fun m => bodyRows m.root) = t.rows.map (snapshotItems t.pcmd)
  number : ∀ i m, msgs[i]? = some m → findFieldQ Id.qnHeadSnapi m.root = some (decimal i) ∧
    findFieldQ Id.qnHeadSnapn m.root = some (decimal msgs.length)
  count  : ∀ m ∈ msgs, findFieldQ Id.qnBodyRows m.root = some (decimal (bodyRows m.root).length)
  size   : ∀ m ∈ msgs, ∀ reserve ≤ vectorMaxSize, ∃ n sb, encodeMsg m (new reserve) = .ok (n, sb) ∧ n ≤ maxMsgLen
  batch  : 1 ≤ batchsize.rows ∧ batchsize.rows ≤ t.batchsize.rows

theorem snapshotMsgs_ok {t : DataTable} {msgs : List TxMessage} {batchsize : BatchSize}
    (h : t.snapshotMsgs = .ok (msgs, batchsize)) : ∃ batches : List (List DataRow),
      msgs = (batches.zipIdx.map fun b =>
        t.numbered (toStr (Word.toInt 32 b.2)) (toStr (Word.toInt 32 batches.length)) b.1) ∧
      batches.flatten = t.rows ∧ (∀ batch ∈ batches, batch ≠ [] ∧ batch.length ≤ t.batchsize.rows ∧
        checkEncSize (t.snapshotBatch batch) roomForSnapFields = true) ∧ batchsize.rows ≤ t.batchsize.rows := by
  unfold DataTable.snapshotMsgs at h
  split at h
  · cases h
  · rename_i msgs' batchsize' hloop
    obtain ⟨batches, hmsgs, hrows, hbatches, hsize⟩ := snapshotLoop_ok t _ _ _ hloop
    rw [List.nil_append] at hmsgs
    have hmsgs' : msgs' = batches.map t.snapshotBatch := hmsgs
    cases h
    exact ⟨batches, by rw [hmsgs', numberSnapshot_batches], hrows, hbatches, hsize⟩

/-- **When the messages are complete**: as long as their number is an `int`. -/
theorem snapshotComplete_iff {t : DataTable} {msgs : List TxMessage} {batchsize : BatchSize}
    (h : t.snapshotMsgs = .ok (msgs, batchsize)) : SnapshotComplete t msgs batchsize ↔ msgs.length < 2 ^ 31 := by
  obtain ⟨batches, hmsgs, hrows, hbatches, hsize⟩ := snapshotMsgs_ok h
  have hlen : msgs.length = batches.length := by rw [hmsgs, List.length_map, List.length_zipIdx]
  -- the message at a position, and the batch it is made of
  have hat : ∀ i m, msgs[i]? = some m → ∃ batch ∈ batches, i < batches.length ∧
      m = t.numbered (toStr (Word.toInt 32 i)) (toStr (Word.toInt 32 batches.length)) batch := by
    intro i m hi
    rw [hmsgs, List.getElem?_map, Option.map_eq_some_iff] at hi
    obtain ⟨b, hb, rfl⟩ := hi
    obtain ⟨batch, hbatch, rfl⟩ := Option.map_eq_some_iff.1 (List.getElem?_zipIdx ▸ hb)
    rw [Nat.zero_add]
    exact ⟨batch, List.mem_of_getElem? hbatch, (List.getElem?_eq_some_iff.1 hbatch).1, rfl⟩
  constructor
  · intro hc
    cases hm : msgs with
    | nil => exact Nat.two_pow_pos 31
    | cons m ms =>
      have h0 : msgs[0]? = some m := by rw [hm]; rfl
      obtain ⟨batch, -, -, rfl⟩ := hat 0 m h0
      have hn : some (toStr (Word.toInt 32 batches.length)) = some (decimal msgs.length) := (hc.number 0 _ h0).2
      rw [hlen] at hn
      rw [← hm, hlen]
      exact (toStr_toInt_eq_decimal_iff batches.length).1 (Option.some.inj hn)
  · intro hlt
    rw [hlen] at hlt
    have htoStr : ∀ {n}, n ≤ batches.length → toStr (Word.toInt 32 n) = decimal n := fun hn =>
      (toStr_toInt_eq_decimal_iff _).2 (by omega)
    have hdigits : ∀ {n}, n ≤ batches.length → (decimal n).length ≤ 18 := fun hn =>
      (Decimal.length_decimal_le_iff (by decide)).2 (by omega)
    refine ⟨?_, fun i m hi => ?_, fun m hm => ?_, fun m hm reserve hr => ?_, batchsize.pos, hsize⟩
    · rw [hmsgs, List.flatMap_map]
      simp only [bodyRows_numbered]
      rw [← hrows, List.map_flatten, ← List.flatMap_def]
      conv => rhs; rw [← List.zipIdx_map_fst 0 batches, List.flatMap_map]
    · obtain ⟨batch, -, hil, rfl⟩ := hat i m hi
      rw [htoStr (Nat.le_of_lt hil), htoStr (Nat.le_refl _), hlen]
      exact ⟨rfl, rfl⟩
    · obtain ⟨i, hi⟩ := List.mem_iff_getElem?.1 hm
      obtain ⟨batch, -, -, rfl⟩ := hat i m hi
      rw [bodyRows_numbered, List.length_map]
      rfl
    · obtain ⟨i, hi⟩ := List.mem_iff_getElem?.1 hm
      obtain ⟨batch, hb, hil, rfl⟩ := hat i m hi
      rw [htoStr (Nat.le_of_lt hil), htoStr (Nat.le_refl _)]
      exact encodeMsg_le_of_checkEncSize
        (checkEncSize_numbered (hbatches batch hb).2.2 (hdigits (Nat.le_of_lt hil)) (hdigits (Nat.le_refl _))) hr

/-- What `_nolock_send_snapshopt` is for. -/
structure SnapshotBatching (s : TableServer) (sid : Nat) : Prop where
  throws : (s.sendSnapshot sid).2.isSome = true ↔
    ∃ row ∈ s.table.rows, checkEncSize (s.table.snapshotBatch [row]) roomForSnapFields = false
  failed : (s.sendSnapshot sid).2.isSome = true → (s.sendSnapshot sid).1 = s
  sent   : ∀ msgs batchsize, s.table.snapshotMsgs = .ok (msgs, batchsize) →
    s.sendSnapshot sid = ({ s.sendOne sid msgs with table := { s.table with batchsize := batchsize } }, none) ∧
      SnapshotComplete s.table msgs batchsize

theorem sendSnapshot_of_error {s : TableServer} {e : RuntimeError} (h : s.table.snapshotMsgs = .error e) (sid : Nat) :
    s.sendSnapshot sid = (s, some e) := by
  rw [TableServer.sendSnapshot, h]

theorem sendSnapshot_of_ok {s : TableServer} {msgs : List TxMessage} {batchsize : BatchSize}
    (h : s.table.snapshotMsgs = .ok (msgs, batchsize)) (sid : Nat) :
    s.sendSnapshot sid = ({ s.sendOne sid msgs with table := { s.table with batchsize := batchsize } }, none) := by
  rw [TableServer.sendSnapshot, h]
  simp only [(s.sendOne_frame sid msgs).1]

theorem snapshotMsgs_cases (t : DataTable) : t.snapshotMsgs = .error ⟨"failed to encode snapshot"⟩ ∨
    ∃ msgs batchsize, t.snapshotMsgs = .ok (msgs, batchsize) := by
  by_cases hfit : t.RowsFit
  · obtain ⟨⟨msgs, batchsize⟩, hout⟩ := snapshotMsgs_isOk hfit
    exact .inr ⟨msgs, batchsize, hout⟩
  · exact .inl ((snapshotMsgs_error_iff t).2 (DataTable.not_rowsFit_iff.1 hfit))

theorem sendSnapshot_isSome_iff (s : TableServer) (sid : Nat) : (s.sendSnapshot sid).2.isSome = true ↔
    ∃ row ∈ s.table.rows, checkEncSize (s.table.snapshotBatch [row]) roomForSnapFields = false := by
  rw [← snapshotMsgs_error_iff]
  rcases snapshotMsgs_cases s.table with he | ⟨msgs, batchsize, hok⟩
  · rw [sendSnapshot_of_error he]
    exact iff_of_true rfl he
  · rw [sendSnapshot_of_ok hok, hok]
    exact iff_of_false Bool.false_ne_true (fun he => by cases he)

/-- **A snapshot is complete, in order and within the limit**, for every table and batch size: it throws exactly if some
row does not fit a message of its own, and then changes nothing; and otherwise it is the table's rows, numbered, counted and
small enough, exactly if the rows and the stored batch size make less than `2 ^ 31` batches. -/
theorem snapshot_batching (s : TableServer) (sid : Nat) :
    SnapshotBatching s sid ↔ (s.table.RowsFit → s.table.batchCount < 2 ^ 31) := by
  constructor
  · intro h hfit
    obtain ⟨⟨msgs, batchsize⟩, hok⟩ := snapshotMsgs_isOk hfit
    rw [← length_snapshotMsgs hok]
    exact (snapshotComplete_iff hok).1 (h.sent msgs batchsize hok).2
  · intro hlt
    refine ⟨sendSnapshot_isSome_iff s sid, fun hthrow => ?_, fun msgs batchsize hok => ?_⟩
    · rw [sendSnapshot_isSome_iff, ← snapshotMsgs_error_iff] at hthrow
      rw [sendSnapshot_of_error hthrow]
    · have hfit : s.table.RowsFit := by
        by_contra hbig
        rw [(snapshotMsgs_error_iff _).2 (DataTable.not_rowsFit_iff.1 hbig)] at hok
        cases hok
      refine ⟨sendSnapshot_of_ok hok sid, (snapshotComplete_iff hok).2 ?_⟩
      rw [length_snapshotMsgs hok]
      exact hlt hfit

/-- A table of `n` rows that hold their keys only, sent one by one. -/
def tallTable (n : Nat) : DataTable :=
  { DataTable.new (ascii "t") with
    rows      := (List.range n).map fun i => .new (decimal i) (ascii "t")
    rowIndex  := KeyIndex.rebuild ((List.range n).map decimal)
    batchsize := ⟨1, by decide⟩ }

theorem tallTable_rowsFit {n : Nat} (hn : n ≤ 2 ^ 31) : (tallTable n).RowsFit := by
  intro row hrow
  obtain ⟨i, hi, rfl⟩ := List.mem_map.1 hrow
  have hdigits : (decimal i).length ≤ 10 :=
    (Decimal.length_decimal_le_iff (by decide)).2 (by have := List.mem_range.1 hi; omega)
  have hbase : (tallTable n).baseSize ≤ 100 := by
    show calcEncodedSize ⟨Id.tableupdate, [snapshotHead (ascii "t"), .container Id.body [.field Id.rows []]]⟩ ≤ 100
    decide +kernel
  have hitems : snapshotItems ∅ (.new (decimal i) (ascii "t")) = [.field Id.rowKey (decimal i)] := by
    simp [snapshotItems]
    rfl
  have hrow : rowSize ∅ (.new (decimal i) (ascii "t"), 0) ≤ 30 := by
    have hname : (rowName 0).length = 5 := by decide +kernel
    have hkey : Id.rowKey.length = 6 := rfl
    unfold rowSize itemsSize
    simp only [hitems, itemsBytes, TxItem.bytes, List.length_append, List.length_cons, List.length_nil,
      length_escaped_decimal, hname, hkey]
    omega
  have hsize := calcEncodedSize_snapshotBatch_singleton (tallTable n) (.new (decimal i) (ascii "t"))
  have hpcmd : (tallTable n).pcmd = ∅ := rfl
  rw [hpcmd] at hsize
  rw [checkEncSize, decide_eq_true_iff, hsize, roomForSnapFields, maxMsgLen]
  omega

theorem tallTable_snapshot {n : Nat} (hn : n ≤ 2 ^ 31) : ∃ msgs batchsize,
    (tallTable n).snapshotMsgs = .ok (msgs, batchsize) ∧ msgs.length = n ∧
      ∀ m ∈ msgs, findFieldQ Id.qnHeadSnapn m.root = some (toStr (Word.toInt 32 n)) := by
  obtain ⟨⟨msgs, batchsize⟩, hok⟩ := snapshotMsgs_isOk (tallTable_rowsFit hn)
  obtain ⟨batches, hmsgs, hrows, hbatches, -⟩ := snapshotMsgs_ok hok
  have hone : batches.map List.length = List.replicate batches.length 1 := by
    refine List.eq_replicate_iff.2 ⟨List.length_map _, fun k hk => ?_⟩
    obtain ⟨batch, hb, rfl⟩ := List.mem_map.1 hk
    obtain ⟨hne, hlen, -⟩ := hbatches batch hb
    exact Nat.le_antisymm hlen (List.length_pos_iff.2 hne)
  have hcount : batches.length = n := by
    have hlen : (tallTable n).rows.length = n := (List.length_map _).trans List.length_range
    rw [← hrows, List.length_flatten, hone, List.sum_replicate_nat, Nat.mul_one] at hlen
    exact hlen
  refine ⟨msgs, batchsize, hok, by rw [hmsgs, List.length_map, List.length_zipIdx, hcount], fun m hm => ?_⟩
  rw [hmsgs] at hm
  obtain ⟨b, -, rfl⟩ := List.mem_map.1 hm
  rw [hcount]
  rfl

/-- From `2 ^ 31` messages on their number is announced as a negative one. -/
theorem snapshot_batching_overflow : (tallTable (2 ^ 31)).RowsFit ∧ (tallTable (2 ^ 31)).batchCount = 2 ^ 31 ∧
    ∃ msgs batchsize, (tallTable (2 ^ 31)).snapshotMsgs = .ok (msgs, batchsize) ∧ msgs.length = 2 ^ 31 ∧
      ∀ m ∈ msgs, findFieldQ Id.qnHeadSnapn m.root = some (ascii "-2147483648") := by
  obtain ⟨msgs, batchsize, hok, hlen, hsnapn⟩ := tallTable_snapshot (Nat.le_refl (2 ^ 31))
  have htext : toStr (Word.toInt 32 (2 ^ 31)) = ascii "-2147483648" := by decide +kernel
  rw [htext] at hsnapn
  exact ⟨tallTable_rowsFit (Nat.le_refl _), (length_snapshotMsgs hok).symm.trans hlen, msgs, batchsize, hok, hlen, hsnapn⟩

/-! ## A subscription that fails -/

/-- The server when `add_subscriber` comes to the snapshot. -/
def TableServer.described (s : TableServer) (sid : Nat) : TableServer :=
  sendOne { s with table := s.table.subscribe sid } sid [(s.table.subscribe sid).descrMsg]

theorem described_table (s : TableServer) (sid : Nat) : (s.described sid).table = s.table.subscribe sid :=
  (TableServer.sendOne_frame _ sid _).1

theorem addSubscriber_isSome_iff (s : TableServer) (sid : Nat) : (s.addSubscriber sid).2.isSome = true ↔
    ∃ row ∈ s.table.rows, checkEncSize (s.table.snapshotBatch [row]) roomForSnapFields = false := by
  have h := sendSnapshot_isSome_iff (s.described sid) sid
  rw [described_table] at h
  exact h

theorem described_sent {s : TableServer} {sid : Nat} (hu : s.used sid = true) (ho : s.isOpen sid = true) :
    (s.described sid).sent sid = s.sent sid ++ [(s.table.subscribe sid).descrMsg] :=
  (TableServer.sendOne_sent (s := { s with table := s.table.subscribe sid }) hu ho sid _).trans (if_pos rfl)

/-- What an open session is sent by a subscription that succeeds. -/
theorem addSubscriber_sent {s : TableServer} {sid : Nat} (hu : s.used sid = true) (ho : s.isOpen sid = true)
    {msgs : List TxMessage} {batchsize : BatchSize} (h : (s.table.subscribe sid).snapshotMsgs = .ok (msgs, batchsize)) :
    (s.addSubscriber sid).1.sent sid = s.sent sid ++ (s.table.subscribe sid).descrMsg :: msgs := by
  rw [← described_table] at h
  obtain ⟨-, hu', ho'⟩ := TableServer.sendOne_frame { s with table := s.table.subscribe sid } sid
    [(s.table.subscribe sid).descrMsg]
  show ((s.described sid).sendSnapshot sid).1.sent sid = _
  rw [sendSnapshot_of_ok h]
  show ((s.described sid).sendOne sid msgs).sent sid = _
  have hu'' : (s.described sid).used sid = true := hu' ▸ hu
  have ho'' : (s.described sid).isOpen sid = true := ho' ▸ ho
  rw [TableServer.sendOne_sent hu'' ho'', if_pos rfl, described_sent hu ho, List.append_assoc]
  rfl

/-- **When a failed subscription leaves no trace.**  For every table and session: that an exception of `add_subscriber`
leaves the subscribers as they were holds exactly if there is none, because every row fits a snapshot message of its own;
then an open session has been sent the description and the whole snapshot. -/
theorem failed_subscription (s : TableServer) (sid : Nat) :
    (((s.addSubscriber sid).2.isSome = true → (s.addSubscriber sid).1.table.subscribers = s.table.subscribers) ↔
      s.table.RowsFit) ∧
    (s.table.RowsFit → s.used sid = true → s.isOpen sid = true → ∃ msgs batchsize,
      (s.table.subscribe sid).snapshotMsgs = .ok (msgs, batchsize) ∧
      (s.addSubscriber sid).1.sent sid = s.sent sid ++ (s.table.subscribe sid).descrMsg :: msgs) := by
  refine ⟨⟨fun h => ?_, fun hfit hthrow => ?_⟩, fun hfit hu ho => ?_⟩
  · by_contra hbig
    have hsubs := h ((addSubscriber_isSome_iff s sid).2 (DataTable.not_rowsFit_iff.1 hbig))
    rw [(s.addSubscriber_frame sid).1] at hsubs
    exact absurd hsubs (by simp)
  · exact absurd hfit (DataTable.not_rowsFit_iff.2 ((addSubscriber_isSome_iff s sid).1 hthrow))
  · obtain ⟨⟨msgs, batchsize⟩, hok⟩ := snapshotMsgs_isOk (t := s.table.subscribe sid) hfit
    exact ⟨msgs, batchsize, hok, addSubscriber_sent hu ho hok⟩

theorem length_le_escaped : ∀ (v : Bytes), v.length ≤ (escaped v).length
  | [] => Nat.le_refl 0
  | c :: v => by
    have := length_le_escaped v
    unfold escaped at this ⊢
    rw [Scan.escapeWith_cons, List.length_append, List.length_cons]
    split <;> simp only [List.length_cons, List.length_nil] <;> omega

theorem length_le_itemsBytes {c v : Bytes} : ∀ (is : List TxItem), findField c is = some v →
    v.length ≤ (itemsBytes is).length
  | .field n w :: is, h => by
    rw [itemsBytes, List.length_append, TxItem.bytes]
    simp only [List.length_append, List.length_cons]
    rw [findField] at h
    split at h
    · rw [← Option.some.inj h]
      have := length_le_escaped w
      omega
    · have := length_le_itemsBytes is h
      omega
  | .container n cs :: is, h => by
    have hrest : findField c is = some v := h
    have := length_le_itemsBytes is hrest
    rw [itemsBytes, List.length_append]
    omega

/-- A value longer than a message. -/
theorem checkEncSize_long (t : DataTable) {row : DataRow} {c v : Bytes} (hv : row.fields[c]? = some v)
    (hlen : maxMsgLen < v.length) : checkEncSize (t.snapshotBatch [row]) roomForSnapFields = false := by
  have hitems := length_le_itemsBytes _ ((findField_snapshotItems t.pcmd row c).trans hv)
  rw [checkEncSize, decide_eq_false_iff_not, calcEncodedSize_snapshotBatch_singleton]
  unfold rowSize itemsSize
  simp only
  omega

/-- **A subscription that fails is recorded**: after the exception the session is sent the updates, and never a snapshot. -/
theorem addSubscriber_long {v : Bytes} (hlen : maxMsgLen < v.length) {s : TableServer} (hinv : s.table.Inv) {sid : Nat}
    (hu : s.used sid = true) (ho : s.isOpen sid = true) {k c : Bytes} (hv : s.table.copyField k c = some v) :
    (s.addSubscriber sid).2 = some ⟨"failed to encode snapshot"⟩ ∧
      (s.addSubscriber sid).1.table.subscribers = s.table.subscribers ++ [sid] ∧
      (s.addSubscriber sid).1.sent sid = s.sent sid ++ [(s.table.subscribe sid).descrMsg] := by
  have hk : s.table.hasRow k = true := by
    by_contra hn
    rw [DataTable.copyField_of_not_hasRow hn] at hv
    cases hv
  obtain ⟨i, row, -, hi, rfl⟩ := DataTable.exists_row hinv hk
  have hrow := List.mem_of_getElem? hi
  rw [DataTable.copyField_row hinv hrow] at hv
  have herr : (s.described sid).table.snapshotMsgs = .error ⟨"failed to encode snapshot"⟩ := by
    rw [described_table]
    exact (snapshotMsgs_error_iff _).2 ⟨row, hrow, checkEncSize_long _ hv hlen⟩
  have hsend : s.addSubscriber sid = (s.described sid, some ⟨"failed to encode snapshot"⟩) :=
    sendSnapshot_of_error herr sid
  exact ⟨congrArg Prod.snd hsend, (s.addSubscriber_frame sid).1,
    (congrArg (fun r => r.1.sent sid) hsend).trans (described_sent hu ho)⟩

/-- An update of a new row goes to every open subscriber. -/
theorem mem_sent_updateRow {s : TableServer} (hinv : s.table.Inv) {sid : Nat} (hu : s.used sid = true)
    (ho : s.isOpen sid = true) (hsub : sid ∈ s.table.subscribers) (clock : Nat → Bytes) {rowkey : Bytes} {fields : Fields}
    (hk : ¬ s.table.hasRow rowkey = true) (hf : ∃ c ∈ fields, ¬ reserved c = true) :
    ∃ m ∈ (s.exec (.updateRow clock rowkey fields)).1.sent sid, m.type = Id.tableupdate := by
  have ht := updateRow_tracked hinv clock rowkey fields
  obtain ⟨e, he, hek⟩ := List.mem_filterMap.1 ((mem_writtenRows_updateRow hinv clock fields hk).2 hf)
  obtain ⟨name, ev, rfl⟩ : ∃ name ev, e = .rowMultiUpdate name rowkey ev := by
    cases e with
    | rowMultiUpdate name k ev =>
      cases hek
      exact ⟨name, ev, rfl⟩
    | _ => cases hek
  refine ⟨updateMsg name rowkey ev, ?_, rfl⟩
  show _ ∈ (s.commit _).sent sid
  rw [TableServer.commit_sent hu ho, ht.subs]
  refine List.mem_append_right _ (List.mem_flatMap.2 ⟨_, List.mem_flatMap.2 ⟨_, he, List.mem_singleton_self _⟩, ?_⟩)
  exact List.mem_replicate.2 ⟨Nat.ne_of_gt (List.count_pos_iff.2 hsub), rfl⟩

/-- A table with one row, `v` in its column `x`, before anyone has subscribed. -/
def longServer (v : Bytes) : TableServer :=
  (TableServer.exec ⟨.new (ascii "t"), fun _ => true, fun _ => true, fun _ => []⟩
    (.updateRow (fun _ => ascii "now") (ascii "a") ((∅ : Fields).insert (ascii "x") v))).1

theorem longServer_eq (v : Bytes) : longServer v = TableServer.commit ⟨.new (ascii "t"), fun _ => true, fun _ => true, fun _ => []⟩
    ((DataTable.new (ascii "t")).updateRow (fun _ => ascii "now") (ascii "a") ((∅ : Fields).insert (ascii "x") v)) := by
  rw [longServer, TableServer.exec]

theorem longServer_sessions (v : Bytes) (sid : Nat) : (longServer v).used sid = true ∧ (longServer v).isOpen sid = true ∧
    (longServer v).table.subscribers = [] ∧ (longServer v).sent sid = [] := by
  have ht := updateRow_tracked (DataTable.new_inv (ascii "t")) (fun _ => ascii "now") (ascii "a")
    ((∅ : Fields).insert (ascii "x") v)
  obtain ⟨htable, hu, ho⟩ := TableServer.commit_frame ⟨.new (ascii "t"), fun _ => true, fun _ => true, fun _ => []⟩
    ((DataTable.new (ascii "t")).updateRow (fun _ => ascii "now") (ascii "a") ((∅ : Fields).insert (ascii "x") v))
  rw [longServer_eq]
  refine ⟨congrFun hu sid, congrFun ho sid, (congrArg DataTable.subscribers htable).trans ht.subs, ?_⟩
  have hnone : (DataTable.new (ascii "t")).subscribers.count sid = 0 := rfl
  rw [TableServer.commit_sent (by rfl) (by rfl), ht.subs, hnone, List.nil_append]
  exact List.flatMap_eq_nil_iff.2 fun _ _ => List.replicate_zero

theorem longServer_table (v : Bytes) : (longServer v).table.Inv ∧
    (longServer v).table.copyField (ascii "a") (ascii "x") = some v ∧ ¬ (longServer v).table.hasRow (ascii "b") = true := by
  have hinv := DataTable.new_inv (ascii "t")
  have htable := TableServer.commit_table ⟨.new (ascii "t"), fun _ => true, fun _ => true, fun _ => []⟩
    ((DataTable.new (ascii "t")).updateRow (fun _ => ascii "now") (ascii "a") ((∅ : Fields).insert (ascii "x") v))
  rw [longServer_eq, htable]
  refine ⟨(updateRow_tracked hinv _ _ _).inv, ?_, ?_⟩
  · rw [DataTable.copyField_updateRow hinv _ _ _ _ (by decide), if_pos rfl, Std.TreeMap.getElem?_insert_self,
      Option.some_or]
  · rw [DataTable.hasRow_updateRow hinv]
    decide +kernel

theorem longServer_run (v : Bytes) : Steps.run tableStep (.new (ascii "t")) [.sessions (fun _ => true) (fun _ => true),
    .updateRow (fun _ => ascii "now") (ascii "a") ((∅ : Fields).insert (ascii "x") v)] = some (longServer v) := by
  rw [Steps.run, tableStep, TableServer.exec, Option.bind_some, Steps.run, tableStep, Option.bind_some, Steps.run, longServer]
  rfl

/-- A value of 100000 bytes: the session's subscription fails, and it is sent the updates all the same. -/
theorem failed_subscription_recorded : ∃ s s₁ s₂, Steps.run tableStep (.new (ascii "t"))
      [.sessions (fun _ => true) (fun _ => true),
        .updateRow (fun _ => ascii "now") (ascii "a") ((∅ : Fields).insert (ascii "x") (List.replicate 100000 120))] =
      some s ∧
    s.table.subscribers = [] ∧ s.addSubscriber 1 = (s₁, some ⟨"failed to encode snapshot"⟩) ∧
    s₁.table.subscribers = [1] ∧ s₁.sent 1 = [(s.table.subscribe 1).descrMsg] ∧
    tableStep s₁ (.updateRow (fun _ => ascii "later") (ascii "b") ((∅ : Fields).insert (ascii "x") (ascii "2"))) = some s₂ ∧
    ∃ m ∈ s₂.sent 1, m.type = Id.tableupdate := by
  -- only the length of the value matters
  generalize hv : List.replicate 100000 (120 : UInt8) = v
  have hlen : maxMsgLen < v.length := by
    rw [← hv, List.length_replicate, maxMsgLen]
    decide
  obtain ⟨hu, ho, hsubs, hsent⟩ := longServer_sessions v 1
  obtain ⟨hinv, hcell, hrow⟩ := longServer_table v
  have hrun := longServer_run v
  generalize longServer v = s at *
  obtain ⟨hthrow, hsubs₁, hsent₁⟩ := addSubscriber_long hlen hinv hu ho hcell
  obtain ⟨-, hu₁, ho₁⟩ := s.addSubscriber_frame 1
  have hdata := s.addSubscriber_sameData 1
  rw [hsubs] at hsubs₁
  rw [hsent] at hsent₁
  rcases hr : s.addSubscriber 1 with ⟨s₁, e⟩
  rw [hr] at hthrow hsubs₁ hsent₁ hu₁ ho₁ hdata
  simp only at hthrow hsubs₁ hsent₁ hu₁ ho₁ hdata
  rw [hthrow] at hr
  refine ⟨s, s₁, _, hrun, hsubs, hr, hsubs₁, hsent₁, rfl, ?_⟩
  refine mem_sent_updateRow (hinv.sameData hdata) (hu₁ ▸ hu) (ho₁ ▸ ho) (hsubs₁ ▸ List.mem_singleton_self 1) _ ?_
    ⟨ascii "x", by decide +kernel, by decide⟩
  rw [DataTable.hasRow, hdata.rowIndex]
  exact hrow

end Exio
