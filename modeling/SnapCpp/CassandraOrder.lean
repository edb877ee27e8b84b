import SnapCpp.CassValue
import SnapCpp.StringReplace

/-!
`QCassandraOrder`, the request that a client sends to `snapdbproxy`: how
`encodeOrder()` writes it and `decodeOrder()` reads it back. Optional fields are
left out when they have their default, as eight bits of the flags tell. The number
of parameters is written in 16 bits whatever it is, and the consistency level in 8.
-/
namespace SnapCpp.CassandraOrder

open Utf StringReplace CassValue Encoder Decoder

/-- `type_of_result_t`; four bits can also hold six values without a name. -/
inductive TypeOfResult
  | close
  | batchAdd
  | batchCommit
  | batchDeclare
  | batchRollback
  | declare
  | describe
  | fetch
  | rows
  | success
  | unnamed (code : Fin 6)
  deriving DecidableEq, Repr

namespace TypeOfResult

def code : TypeOfResult → Fin 16
  | close => 0
  | batchAdd => 1
  | batchCommit => 2
  | batchDeclare => 3
  | batchRollback => 4
  | declare => 5
  | describe => 6
  | fetch => 7
  | rows => 8
  | success => 9
  | unnamed c => ⟨10 + c, by omega⟩

/-- `static_cast<type_of_result_t>(n)`. -/
def ofCode : ℕ → TypeOfResult
  | 0 => close
  | 1 => batchAdd
  | 2 => batchCommit
  | 3 => batchDeclare
  | 4 => batchRollback
  | 5 => declare
  | 6 => describe
  | 7 => fetch
  | 8 => rows
  | 9 => success
  | n => unnamed (Fin.ofNat 6 (n - 10))

theorem ofCode_code (t : TypeOfResult) : ofCode t.code = t := by
  cases t with
  | unnamed c =>
    revert c
    decide
  | _ => rfl

end TypeOfResult

/-- The fields of a `QCassandraOrder`, with the defaults of a new one. -/
structure Order where
  fCql : QString := []
  fValid : Bool := true
  fBlocking : Bool := true
  fClearClusterDescription : Bool := false
  fTypeOfResult : TypeOfResult := .success
  fConsistencyLevel : Int32 := 1
  fTimestamp : Int64 := 0
  fTimeoutMs : Int32 := 0
  fColumnCount : Int8 := 1
  fPagingSize : Int32 := 0
  fCursorIndex : Int32 := -1
  fBatchIndex : Int32 := -1
  fParameter : List Bytes := []
  deriving DecidableEq

namespace Order

/-- The size that `encodeOrder()` reserves, before it knows which fields it writes. -/
def expectedSize (o : Order) : ℕ :=
  4 + 4 + 2 + 1 + 2 + o.fCql.length + 8 + 4 + 1 + 4 + 2 + 2 +
    (o.fParameter.map fun param => 4 + param.length).sum

def flags (o : Order) : ℕ :=
  ((o.fTypeOfResult.code : ℕ) &&& 15)
    ||| (if o.fBlocking then 0x0010 else 0)
    ||| (if o.fTimestamp ≠ 0 then 0x0020 else 0)
    ||| (if o.fTimeoutMs ≠ 0 then 0x0040 else 0)
    ||| (if o.fColumnCount ≠ 1 then 0x0080 else 0)
    ||| (if o.fPagingSize ≠ 0 then 0x0100 else 0)
    ||| (if o.fCursorIndex ≠ -1 then 0x0200 else 0)
    ||| (if o.fClearClusterDescription then 0x0400 else 0)
    ||| (if o.fBatchIndex ≠ -1 then 0x0800 else 0)

/-- The appends of `encodeOrder()`, up to the patch of the size. -/
def writeOrder (o : Order) : Write Unit := do
  appendSignedCharValue 'C'.toNat
  appendSignedCharValue 'Q'.toNat
  appendSignedCharValue 'L'.toNat
  appendSignedCharValue 'P'.toNat
  appendUInt32Value (o.expectedSize - 8)
  appendUInt16Value o.flags
  appendSignedCharValue o.fConsistencyLevel.toInt
  appendP16StringValue o.fCql
  optional (o.fTimestamp ≠ 0) (appendInt64Value o.fTimestamp.toInt)
  optional (o.fTimeoutMs ≠ 0) (appendInt32Value o.fTimeoutMs.toInt)
  optional (o.fColumnCount ≠ 1) (appendSignedCharValue o.fColumnCount.toInt)
  optional (o.fPagingSize ≠ 0) (appendInt32Value o.fPagingSize.toInt)
  optional (o.fCursorIndex ≠ -1) (appendUInt16Value o.fCursorIndex.toInt)
  optional (o.fBatchIndex ≠ -1) (appendUInt16Value o.fBatchIndex.toInt)
  appendUInt16Value o.fParameter.length
  o.fParameter.forM appendBinaryValue

def encodeOrder (o : Order) : Except String Bytes := do
  let write : Write Unit := do
    o.writeOrder
    let size ← Encoder.size
    replaceUInt32Value (size - 8) 4
  let (_, encoder) ← write Encoder.empty
  return encoder.fArray

/-- The reads of `decodeOrder()`, with what it returns and the order it leaves. -/
def readOrder (o : Order) : Read (Bool × Order) := do
  let flags ← uint16Value
  let consistencyLevel ← signedCharValue
  let cql ← p16StringValue
  let timestamp ← optional (flags &&& 0x20 ≠ 0) int64Value 0
  let timeout ← optional (flags &&& 0x40 ≠ 0) int32Value 0
  let columnCount ← optional (flags &&& 0x80 ≠ 0) signedCharValue 1
  let pagingSize ← optional (flags &&& 0x100 ≠ 0) int32Value 0
  let cursorIndex ← optional (flags &&& 0x200 ≠ 0) (do return Int32.ofInt (← uint16Value)) (-1)
  let batchIndex ← optional (flags &&& 0x800 ≠ 0) (do return Int32.ofInt (← uint16Value)) (-1)
  let count ← uint16Value
  let parameters ← binaryValues count
  return (true, { o with
    fTypeOfResult := .ofCode (flags &&& 15)
    fBlocking := flags &&& 0x10 ≠ 0
    fClearClusterDescription := flags &&& 0x400 ≠ 0
    fConsistencyLevel := Int32.ofInt consistencyLevel.toInt
    fCql := cql
    fTimestamp := timestamp
    fTimeoutMs := timeout
    fColumnCount := columnCount
    fPagingSize := pagingSize
    fCursorIndex := cursorIndex
    fBatchIndex := batchIndex
    fParameter := o.fParameter ++ parameters })

def decodeOrder (o : Order) (encoded : Bytes) : Except String (Bool × Order) := do
  let (result, _) ← o.readOrder ⟨encoded, 0⟩
  return result

def layout (o : Order) (parameters : Bytes) : Bytes :=
  bigEndian 2 o.flags ++ (bigEndian 1 o.fConsistencyLevel.toInt ++
    (bigEndian 2 (toUtf8 o.fCql).length ++ toUtf8 o.fCql ++
    ((if o.fTimestamp ≠ 0 then bigEndian 8 o.fTimestamp.toInt else []) ++
    ((if o.fTimeoutMs ≠ 0 then bigEndian 4 o.fTimeoutMs.toInt else []) ++
    ((if o.fColumnCount ≠ 1 then bigEndian 1 o.fColumnCount.toInt else []) ++
    ((if o.fPagingSize ≠ 0 then bigEndian 4 o.fPagingSize.toInt else []) ++
    ((if o.fCursorIndex ≠ -1 then bigEndian 2 o.fCursorIndex.toInt else []) ++
    ((if o.fBatchIndex ≠ -1 then bigEndian 2 o.fBatchIndex.toInt else []) ++
    (bigEndian 2 o.fParameter.length ++ parameters)))))))))

def body (o : Order) : Bytes := o.layout (blobs o.fParameter)

/-- The letters `CQLP`. -/
def tag : Bytes := [67, 81, 76, 80]

variable {o : Order}

theorem writes_writeOrder (h : (toUtf8 o.fCql).length < 64 * 1024) :
    Writes o.writeOrder (tag ++ bigEndian 4 (o.expectedSize - 8) ++ o.body) := by
  have htag : tag = bigEndian 1 'C'.toNat ++ bigEndian 1 'Q'.toNat ++ bigEndian 1 'L'.toNat ++
      bigEndian 1 'P'.toNat := by decide
  simp only [htag, List.append_assoc]
  refine .bind rfl <| .bind rfl <| .bind rfl <| .bind rfl <| .bind rfl ?_
  refine .bind rfl <| .bind rfl <| .bind (.p16String h) ?_
  refine .bind (.optional _ rfl) <| .bind (.optional _ rfl) <| .bind (.optional _ rfl) ?_
  refine .bind (.optional _ rfl) <| .bind (.optional _ rfl) <| .bind (.optional _ rfl) ?_
  exact .bind rfl (.binaries _)

theorem fails_writeOrder (h : 64 * 1024 ≤ (toUtf8 o.fCql).length) :
    Fails o.writeOrder := by
  have hcql := (fails_p16String h).first
  exact ((((((Fails.later (hcql _) _).later _).later _).later _).later _).later _).later _

/-- What makes `encodeOrder()` throw. -/
def Oversized (o : Order) : Prop :=
  64 * 1024 ≤ (toUtf8 o.fCql).length ∨ bufferMaxSize < 8 + o.body.length

theorem encodeOrder_error (h : o.Oversized) :
    ∃ message, o.encodeOrder = .error message := by
  by_cases hcql : 64 * 1024 ≤ (toUtf8 o.fCql).length
  · obtain ⟨message, he⟩ := (fails_writeOrder hcql).first _ Encoder.empty
    refine ⟨message, ?_⟩
    rw [encodeOrder, he]
    rfl
  · have hsize := h.resolve_left hcql
    have he := (writes_writeOrder (Nat.not_le.mp hcql)).run_empty_error (by
      simp only [List.length_append, length_bigEndian, tag, List.length_cons, List.length_nil]
      omega)
    refine ⟨"resulting value is more than 67108864 bytes", ?_⟩
    simp only [encodeOrder, Bind.bind, StateT.bind, he, Except.bind]

theorem encodeOrder_ok (h : ¬o.Oversized) :
    o.encodeOrder = .ok (tag ++ bigEndian 4 o.body.length ++ o.body) := by
  obtain ⟨hcql, hsize⟩ := not_or.mp h
  have hlen : (tag ++ bigEndian 4 (o.expectedSize - 8) ++ o.body).length = 8 + o.body.length := by
    simp only [List.length_append, length_bigEndian, tag, List.length_cons, List.length_nil]
  have he := (writes_writeOrder (Nat.not_le.mp hcql)).run_empty (by omega)
  have hbody : ((8 + o.body.length : ℕ) : ℤ) - 8 = o.body.length := by omega
  have hreplace : 4 + 4 ≤ 8 + o.body.length := by omega
  simp only [encodeOrder, Bind.bind, StateT.bind, he, Except.bind, Encoder.size, hlen, hbody,
    replaceUInt32Value, hreplace, dite_true]
  rfl

structure FlagsTell (o : Order) (flags : ℕ) : Prop where
  small : flags < 2 ^ 16
  type : flags &&& 15 = o.fTypeOfResult.code
  blocking : decide (flags &&& 0x10 ≠ 0) = o.fBlocking
  timestamp : flags &&& 0x20 ≠ 0 ↔ o.fTimestamp ≠ 0
  timeout : flags &&& 0x40 ≠ 0 ↔ o.fTimeoutMs ≠ 0
  column : flags &&& 0x80 ≠ 0 ↔ o.fColumnCount ≠ 1
  paging : flags &&& 0x100 ≠ 0 ↔ o.fPagingSize ≠ 0
  cursor : flags &&& 0x200 ≠ 0 ↔ o.fCursorIndex ≠ -1
  clear : decide (flags &&& 0x400 ≠ 0) = o.fClearClusterDescription
  batch : flags &&& 0x800 ≠ 0 ↔ o.fBatchIndex ≠ -1

theorem decide_and_two_pow (flags i : ℕ) : decide (flags &&& 2 ^ i ≠ 0) = flags.testBit i := by
  rw [Nat.and_two_pow]
  cases flags.testBit i <;> simp

theorem flagBits (code : Fin 16)
    (blocking timestamp timeout column paging cursor clear batch : Bool) :
    let flags := ((code : ℕ) &&& 15) ||| (if blocking then 0x0010 else 0)
      ||| (if timestamp then 0x0020 else 0) ||| (if timeout then 0x0040 else 0)
      ||| (if column then 0x0080 else 0) ||| (if paging then 0x0100 else 0)
      ||| (if cursor then 0x0200 else 0) ||| (if clear then 0x0400 else 0)
      ||| (if batch then 0x0800 else 0)
    flags < 2 ^ 16 ∧ flags &&& 15 = code ∧ decide (flags &&& 0x10 ≠ 0) = blocking ∧
      decide (flags &&& 0x20 ≠ 0) = timestamp ∧ decide (flags &&& 0x40 ≠ 0) = timeout ∧
      decide (flags &&& 0x80 ≠ 0) = column ∧ decide (flags &&& 0x100 ≠ 0) = paging ∧
      decide (flags &&& 0x200 ≠ 0) = cursor ∧ decide (flags &&& 0x400 ≠ 0) = clear ∧
      decide (flags &&& 0x800 ≠ 0) = batch := by
  have hcode : (code : ℕ) &&& 15 = code := by
    rw [show 15 = 2 ^ 4 - 1 by rfl, Nat.and_two_pow_sub_one_eq_mod, Nat.mod_eq_of_lt code.isLt]
  have hbit (k : ℕ) (hk : 4 ≤ k) : (code : ℕ).testBit k = false :=
    Nat.testBit_lt_two_pow (code.isLt.trans_le (Nat.pow_le_pow_right (n := 2) two_pos hk))
  have hflag (b : Bool) (i k : ℕ) :
      (if b then 2 ^ i else 0 : ℕ).testBit k = (b && decide (i = k)) := by
    cases b <;> simp [Nat.testBit_two_pow]
  have hsmall (b : Bool) (i : ℕ) (hi : i < 16) : (if b then 2 ^ i else 0 : ℕ) < 2 ^ 16 := by
    cases b
    · simp
    · simpa using Nat.pow_lt_pow_right (by decide) hi
  intro flags
  have hflags : flags = (code : ℕ) ||| (if blocking then 2 ^ 4 else 0)
      ||| (if timestamp then 2 ^ 5 else 0) ||| (if timeout then 2 ^ 6 else 0)
      ||| (if column then 2 ^ 7 else 0) ||| (if paging then 2 ^ 8 else 0)
      ||| (if cursor then 2 ^ 9 else 0) ||| (if clear then 2 ^ 10 else 0)
      ||| (if batch then 2 ^ 11 else 0) := by
    rw [← hcode]; rfl
  have htell (i : ℕ) (hi : 4 ≤ i) : flags.testBit i = ((blocking && decide (4 = i)) ||
      (timestamp && decide (5 = i)) || (timeout && decide (6 = i)) || (column && decide (7 = i)) ||
      (paging && decide (8 = i)) || (cursor && decide (9 = i)) || (clear && decide (10 = i)) ||
      (batch && decide (11 = i))) := by
    simp only [hflags, Nat.testBit_or, hbit i hi, hflag, Bool.false_or]
  refine ⟨?_, ?_, ?_⟩
  · rw [hflags]
    have hc : (code : ℕ) < 2 ^ 16 := code.isLt.trans (by decide)
    iterate 8 refine Nat.or_lt_two_pow ?_ (hsmall _ _ (by decide))
    exact hc
  · rw [hflags, show 15 = 2 ^ 4 - 1 by rfl]
    apply Nat.eq_of_testBit_eq
    intro i
    simp only [Nat.testBit_and, Nat.testBit_two_pow_sub_one, Nat.testBit_or, hflag]
    by_cases hi : i < 4
    · simp [hi, show ¬ 4 = i by omega, show ¬ 5 = i by omega, show ¬ 6 = i by omega,
        show ¬ 7 = i by omega, show ¬ 8 = i by omega, show ¬ 9 = i by omega,
        show ¬ 10 = i by omega, show ¬ 11 = i by omega]
    · rw [hbit i (by omega)]
      simp [hi]
  · refine ⟨?_, ?_, ?_, ?_, ?_, ?_, ?_, ?_⟩
    · simpa using (decide_and_two_pow flags 4).trans (htell 4 (by decide))
    · simpa using (decide_and_two_pow flags 5).trans (htell 5 (by decide))
    · simpa using (decide_and_two_pow flags 6).trans (htell 6 (by decide))
    · simpa using (decide_and_two_pow flags 7).trans (htell 7 (by decide))
    · simpa using (decide_and_two_pow flags 8).trans (htell 8 (by decide))
    · simpa using (decide_and_two_pow flags 9).trans (htell 9 (by decide))
    · simpa using (decide_and_two_pow flags 10).trans (htell 10 (by decide))
    · simpa using (decide_and_two_pow flags 11).trans (htell 11 (by decide))

theorem flags_tell (o : Order) : o.FlagsTell o.flags := by
  have h := flagBits o.fTypeOfResult.code o.fBlocking (decide (o.fTimestamp ≠ 0))
    (decide (o.fTimeoutMs ≠ 0)) (decide (o.fColumnCount ≠ 1)) (decide (o.fPagingSize ≠ 0))
    (decide (o.fCursorIndex ≠ -1)) o.fClearClusterDescription (decide (o.fBatchIndex ≠ -1))
  simp only [decide_eq_true_eq, decide_eq_decide] at h
  obtain ⟨h₁, h₂, h₃, h₄, h₅, h₆, h₇, h₈, h₉, h₁₀⟩ := h
  exact ⟨h₁, h₂, h₃, h₄, h₅, h₆, h₇, h₈, h₉, h₁₀⟩

def readIndex (n : Int32) : Int32 := if n ≠ -1 then Int32.ofInt (n.toInt % 2 ^ 16) else -1

theorem reads_index (n : Int32) (hn : n ≠ -1) :
    Reads (do return Int32.ofInt (← uint16Value)) (bigEndian 2 n.toInt) (readIndex n) := by
  have hread := (Reads.uint16_narrow n.toInt).map fun m => Int32.ofInt m
  rw [Int.toNat_of_nonneg (by omega)] at hread
  rw [readIndex, if_pos hn]
  exact hread

/-- The order that the other side gets, apart from the flag that is not written. -/
def restored (o : Order) (valid : Bool) : Order :=
  { o with
    fValid := valid
    fCql := fromUtf8Array (toUtf8 o.fCql)
    fConsistencyLevel := Int32.ofInt (Int8.ofInt o.fConsistencyLevel.toInt).toInt
    fCursorIndex := readIndex o.fCursorIndex
    fBatchIndex := readIndex o.fBatchIndex
    fParameter := o.fParameter.take (o.fParameter.length % 2 ^ 16) }

theorem reads_readOrder (hcql : (toUtf8 o.fCql).length < 64 * 1024)
    (hparam : ∀ b ∈ o.fParameter, b.length < 2 ^ 31) (valid : Bool) :
    Reads ({ fValid := valid } : Order).readOrder
      (o.layout (blobs (o.restored valid).fParameter)) (true, o.restored valid) := by
  have htell := o.flags_tell
  have hflags := Reads.uint16 o.flags
  rw [Nat.mod_eq_of_lt htell.small] at hflags
  have hcolumn := Reads.signedChar o.fColumnCount.toInt
  rw [Int8.ofInt_toInt] at hcolumn
  have habsent : ∀ n : Int32, ¬n ≠ -1 → -1 = readIndex n := fun n h => (if_neg h).symm
  have hblobs : ∀ b ∈ (o.restored valid).fParameter, b.length < 2 ^ 31 :=
    fun b hb => hparam b (List.mem_of_mem_take hb)
  have hcount : (o.restored valid).fParameter.length = o.fParameter.length % 2 ^ 16 :=
    (List.length_take ..).trans (min_eq_left (Nat.mod_le ..))
  have hread := (Reads.binaries hblobs).map fun parameters => (true, { o.restored valid with
    fParameter := parameters })
  rw [hcount] at hread
  refine hflags.bind <| (Reads.signedChar _).bind <| (Reads.p16String hcql).bind ?_
  refine (Reads.optional htell.timestamp (fun _ => .int64 _) fun h => (not_not.mp h).symm).bind ?_
  refine (Reads.optional htell.timeout (fun _ => .int32 _) fun h => (not_not.mp h).symm).bind ?_
  refine (Reads.optional htell.column (fun _ => hcolumn) fun h => (not_not.mp h).symm).bind ?_
  refine (Reads.optional htell.paging (fun _ => .int32 _) fun h => (not_not.mp h).symm).bind ?_
  refine (Reads.optional htell.cursor (reads_index _) (habsent _)).bind ?_
  refine (Reads.optional htell.batch (reads_index _) (habsent _)).bind ?_
  refine (Reads.uint16 _).bind ?_
  rw [htell.type, htell.blocking, htell.clear, TypeOfResult.ofCode_code]
  exact hread

theorem layout_append (o : Order) (a b : Bytes) : o.layout (a ++ b) = o.layout a ++ b := by
  simp only [layout, List.append_assoc]

theorem length_blobs_le (o : Order) : (blobs o.fParameter).length ≤ o.body.length := by
  have h := congrArg List.length (o.layout_append [] (blobs o.fParameter))
  rw [List.nil_append, List.length_append] at h
  rw [body, h]
  exact Nat.le_add_left _ _

theorem decodeOrder_body (h : ¬o.Oversized) (valid : Bool) :
    ({ fValid := valid } : Order).decodeOrder o.body = .ok (true, o.restored valid) := by
  obtain ⟨hcql, hsize⟩ := not_or.mp h
  have hsmall : o.body.length < 2 ^ 31 := by
    rw [bufferMaxSize] at hsize
    omega
  have hparam : ∀ b ∈ o.fParameter, b.length < 2 ^ 31 := fun b hb =>
    ((length_le_length_blobs hb).trans o.length_blobs_le).trans_lt hsmall
  have hsplit : o.body = o.layout (blobs (o.restored valid).fParameter) ++
      blobs (o.fParameter.drop (o.fParameter.length % 2 ^ 16)) := by
    rw [← layout_append, ← blobs_append, body]
    exact congrArg (fun l => o.layout (blobs l)) (List.take_append_drop ..).symm
  have hread := reads_readOrder (Nat.not_le.mp hcql) hparam valid
  rw [hsplit] at hsmall ⊢
  obtain ⟨d, hd⟩ := hread.run _ hsmall
  rw [decodeOrder, hd]
  rfl

/-- The conditions under which nothing is lost on the way. -/
structure Restorable (o : Order) : Prop where
  valid : o.fValid = true
  mark : o.fCql.head? ≠ some 0xFEFF
  null : 0 ∉ o.fCql
  level : -128 ≤ o.fConsistencyLevel.toInt ∧ o.fConsistencyLevel.toInt ≤ 127
  count : o.fParameter.length ≤ 65535

def IsUnicode (s : QString) : Prop := ∃ cs, s = utf16 cs

theorem takeWhile_utf8 (cs : List Char) :
    (utf8 cs).takeWhile (· ≠ 0) = utf8 (cs.takeWhile (· ≠ '\x00')) := by
  induction cs with
  | nil => rfl
  | cons c cs ih =>
    have hchar : utf8 (c :: cs) = utf8Char c ++ utf8 cs := rfl
    by_cases hc : c = '\x00'
    · subst hc
      rfl
    · have hfree : ∀ b ∈ utf8Char c, decide (b ≠ 0) = true := by
        intro b hb
        have hzero : (0 : UInt8) ∈ utf8Char c ↔ '\x00' = c :=
          utf8_asciiCompatible.mem_char (by decide : IsAscii '\x00')
        exact decide_eq_true fun h => hc (hzero.mp (h ▸ hb)).symm
      rw [hchar, List.takeWhile_append_of_pos hfree, ih, List.takeWhile_cons, if_pos (by simpa)]
      rfl

/-- A text that starts with a byte order mark or has a zero in it does not come back. -/
theorem fromUtf8Array_toUtf8_eq_iff {s : QString} (h : IsUnicode s) :
    fromUtf8Array (toUtf8 s) = s ↔ s.head? ≠ some 0xFEFF ∧ 0 ∉ s := by
  obtain ⟨cs, rfl⟩ := h
  have hhead : (utf16 cs).head? = some 0xFEFF ↔ cs.head? = some byteOrderMark :=
    head_utf16 (c := byteOrderMark) ⟨by decide, by decide⟩
  have hzero : (0 : UInt16) ∈ utf16 cs ↔ '\x00' ∈ cs :=
    utf16_asciiCompatible.mem_iff (by decide : IsAscii '\x00') cs
  rw [fromUtf8Array, toUtf8, chars_utf16, takeWhile_utf8, fromUtf8_utf8, ne_eq, hhead, hzero]
  by_cases hnull : '\x00' ∈ cs
  · refine iff_of_false (fun heq => ?_) (fun hboth => hboth.2 hnull)
    have hskip := (skipMark_sublist (cs.takeWhile (· ≠ '\x00'))).subset
    rw [utf16_injective heq] at hskip
    have hkept := List.mem_takeWhile_imp (hskip hnull)
    simp at hkept
  · have hall : ∀ c ∈ cs, decide (c ≠ '\x00') = true := by
      intro c hc
      exact decide_eq_true (fun h => hnull (h ▸ hc))
    rw [List.takeWhile_eq_self_iff.mpr hall]
    cases cs with
    | nil => simp [skipMark]
    | cons c rest =>
      rw [skipMark, List.head?_cons, Option.some_inj]
      split_ifs with hc
      · refine iff_of_false (fun heq => ?_) (fun hboth => hboth.1 hc)
        exact absurd (congrArg List.length (utf16_injective heq)) (by simp)
      · exact iff_of_true rfl ⟨hc, hnull⟩

theorem narrowed_level_eq_iff (n : Int32) :
    Int32.ofInt (Int8.ofInt n.toInt).toInt = n ↔ -128 ≤ n.toInt ∧ n.toInt ≤ 127 := by
  have hlow := (Int8.ofInt n.toInt).le_toInt
  have hhigh := (Int8.ofInt n.toInt).toInt_lt
  rw [← Int32.toInt_inj, Int32.toInt_ofInt_of_le (by omega) (by omega)]
  constructor
  · intro heq
    omega
  · intro h
    rw [Int8.toInt_ofInt_of_le (by omega) (by omega)]

def IsIndex (n : Int32) : Prop := -1 ≤ n.toInt ∧ n.toInt ≤ 65535

theorem readIndex_eq {n : Int32} (h : IsIndex n) : readIndex n = n := by
  obtain ⟨hlow, hhigh⟩ := h
  rw [readIndex]
  split_ifs with hn
  · have hneg : n.toInt ≠ -1 := fun heq => hn (Int32.toInt_inj.mp heq)
    rw [Int.emod_eq_of_lt (by omega) (by omega), Int32.ofInt_toInt]
  · exact (not_not.mp hn).symm

theorem restored_eq_iff (h : IsUnicode o.fCql) (hcursor : IsIndex o.fCursorIndex)
    (hbatch : IsIndex o.fBatchIndex) : o.restored true = o ↔ o.Restorable := by
  have htake : o.fParameter.take (o.fParameter.length % 2 ^ 16) = o.fParameter ↔
      o.fParameter.length ≤ 65535 := by
    rw [List.take_eq_self_iff]
    omega
  constructor
  · intro heq
    obtain ⟨hmark, hnull⟩ := (fromUtf8Array_toUtf8_eq_iff h).mp (congrArg fCql heq)
    exact ⟨(congrArg fValid heq).symm, hmark, hnull,
      (narrowed_level_eq_iff _).mp (congrArg fConsistencyLevel heq),
      htake.mp (congrArg fParameter heq)⟩
  · intro hr
    rw [restored, (fromUtf8Array_toUtf8_eq_iff h).mpr ⟨hr.mark, hr.null⟩,
      (narrowed_level_eq_iff _).mpr hr.level,
      htake.mpr hr.count, readIndex_eq hcursor, readIndex_eq hbatch, ← hr.valid]

/-- Either `encodeOrder()` throws, or it writes `CQLP`, the number of bytes that
follow, and a body that a new order reads back as the same order. -/
def RoundTrips (o : Order) : Prop :=
  (∃ message, o.encodeOrder = .error message) ∨
    ∃ body : Bytes, o.encodeOrder = .ok (tag ++ bigEndian 4 body.length ++ body) ∧
      number (bigEndian 4 body.length) = body.length ∧
      ({} : Order).decodeOrder body = .ok (true, o)

theorem roundTrips_iff_restored (h : ¬o.Oversized) :
    o.RoundTrips ↔ o.restored true = o := by
  have hencode := encodeOrder_ok h
  have hdecode := decodeOrder_body h true
  constructor
  · rintro (⟨message, he⟩ | ⟨body, he, -, hd⟩)
    · rw [hencode] at he
      cases he
    · rw [hencode] at he
      have hbytes := Except.ok.inj he
      have hbody : o.body = body := (List.append_inj hbytes rfl).2
      rw [← hbody, hdecode] at hd
      exact congrArg Prod.snd (Except.ok.inj hd)
  · intro heq
    refine .inr ⟨o.body, hencode, ?_, by rw [hdecode, heq]⟩
    have hsize := (not_or.mp h).2
    have hnumber := number_bigEndian 4 o.body.length
    rw [bufferMaxSize] at hsize
    omega

/-- Every order that fits makes the way and back, unless it is marked invalid, its
text starts with a byte order mark or has a zero in it, its level has more than 8
bits or it has more parameters than 16 bits can count. -/
theorem order_roundTrips_iff {o : Order} (hcql : IsUnicode o.fCql)
    (hcursor : IsIndex o.fCursorIndex)
    (hbatch : IsIndex o.fBatchIndex) : o.RoundTrips ↔ o.Oversized ∨ o.Restorable := by
  by_cases h : o.Oversized
  · exact iff_of_true (.inl (encodeOrder_error h)) (.inl h)
  · rw [roundTrips_iff_restored h, restored_eq_iff hcql hcursor hbatch]
    exact ⟨.inr, fun hor => hor.resolve_left h⟩

def sampleOrder : Order :=
  { fCql := utf16 "SELECT é FROM t".toList, fBlocking := false, fTypeOfResult := .declare,
    fConsistencyLevel := -1, fTimestamp := -5, fColumnCount := 3, fCursorIndex := 65535,
    fParameter := [[1, 2], []] }

theorem order_roundTrips_sample : sampleOrder.RoundTrips :=
  (order_roundTrips_iff ⟨_, rfl⟩ ⟨by decide, by decide⟩ ⟨by decide, by decide⟩).mpr
    (.inr ⟨rfl, by decide, by decide, ⟨by decide, by decide⟩, by decide⟩)

def manyParameters : Order := { fParameter := List.replicate 65536 [] }

/-- 65536 empty parameters are counted as none. -/
theorem many_parameters_lost : ¬manyParameters.RoundTrips := by
  have hlength : manyParameters.body.length = 262151 := by
    have hblobs : (blobs manyParameters.fParameter).length = 262144 := by
      rw [length_blobs, manyParameters, List.map_replicate, List.sum_replicate]
      rfl
    have happend := congrArg List.length
      (manyParameters.layout_append [] (blobs manyParameters.fParameter))
    rw [List.nil_append, List.length_append, hblobs] at happend
    exact happend
  have hfits : ¬manyParameters.Oversized := by
    rintro (hcql | hsize)
    · exact absurd hcql (by decide)
    · rw [hlength, bufferMaxSize] at hsize
      omega
  rw [roundTrips_iff_restored hfits]
  intro heq
  have hnone : (manyParameters.restored true).fParameter = [] := by
    rw [restored, manyParameters, List.length_replicate]
    rfl
  rw [heq] at hnone
  have hcount := congrArg List.length hnone
  rw [manyParameters, List.length_replicate] at hcount
  cases hcount

end Order

end SnapCpp.CassandraOrder
