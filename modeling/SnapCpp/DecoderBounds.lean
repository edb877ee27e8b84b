import SnapCpp.CassInteger
import SnapCpp.CassandraOrder
import SnapCpp.CassandraResult

/-!
What `decodeOrder()` and `decodeResult()` read of a buffer that anyone may have sent.
The reads of a `Decoder` are a program that runs in two ways: one gives the value, the
other the fields with their places in the buffer. A blob whose length is the largest
number of 32 bits gets all the bytes that are left, and the index then goes back.
-/
namespace SnapCpp.DecoderBounds

open Utf CassValue CassandraOrder CassandraResult

/-- The reads of a `Decoder`: a number of at most eight bytes, or the bytes behind a
length that was read. -/
inductive Program (α : Type) : Type
  | done (a : α)
  | fixed (width : Fin 9) (message : ℕ → String) (next : Bytes → Program α)
  | raw (length : ℕ) (next : Bytes → Program α)

/-- A field that was read: the index in front of it and behind it, and the length that
was declared for it. -/
structure Field where
  start : ℤ
  stop : ℤ
  declared : Option ℕ

namespace Program

variable {α β : Type}

def bind : Program α → (α → Program β) → Program β
  | done a, f => f a
  | fixed width message next, f => fixed width message fun b => (next b).bind f
  | raw length next, f => raw length fun b => (next b).bind f

instance : Monad Program where
  pure := done
  bind := bind

def run : Program α → Read α
  | done a => Pure.pure a
  | fixed width message next => do (next (← Decoder.fixedValue width message)).run
  | raw length next => do (next (← Decoder.rawValue length)).run

def trace : Program α → Decoder → List Field
  | done _, _ => []
  | fixed width message next, d =>
      match Decoder.fixedValue width message d with
      | .error _ => []
      | .ok (b, d') => ⟨d.fIndex, d'.fIndex, none⟩ :: (next b).trace d'
  | raw length next, d =>
      match Decoder.rawValue length d with
      | .error _ => []
      | .ok (b, d') => ⟨d.fIndex, d'.fIndex, some length⟩ :: (next b).trace d'

def signedCharValue : Program Int8 :=
  fixed 1 (fun _ => "buffer too small for this signedCharValue") fun b =>
    done (Int8.ofInt (number b))

def uint16Value : Program ℕ :=
  fixed 2 (fun _ => "buffer too small for this uint16Value") fun b => done (number b)

def int32Value : Program Int32 :=
  fixed 4 (fun _ => "buffer too small for this int32Value") fun b => done (Int32.ofInt (number b))

def uint32Value : Program ℕ :=
  fixed 4 (fun _ => "buffer too small for this uint32Value") fun b => done (number b)

def int64Value : Program Int64 :=
  fixed 8 (fun size => "buffer too small (" ++ toString size ++ ") for this int64Value")
    fun b => done (Int64.ofInt (number b))

def p16StringValue : Program QString := do
  let length ← uint16Value
  raw length fun b => done (fromUtf8Array b)

def binaryValue : Program Bytes := do
  let length ← uint32Value
  raw length done

def binaryValues : ℕ → Program (List Bytes)
  | 0 => return []
  | count + 1 => do
      let b ← binaryValue
      let rest ← binaryValues count
      return b :: rest

def optional (p : Prop) [Decidable p] (m : Program α) (absent : α) : Program α :=
  if p then m else pure absent

/-- The reads of `decodeOrder()`. -/
def readOrder (o : Order) : Program (Bool × Order) := do
  let flags ← uint16Value
  let consistencyLevel ← signedCharValue
  let cql ← p16StringValue
  let timestamp ← optional (flags &&& 0x20 ≠ 0) int64Value 0
  let timeout ← optional (flags &&& 0x40 ≠ 0) int32Value 0
  let columnCount ← optional (flags &&& 0x80 ≠ 0) signedCharValue 1
  let pagingSize ← optional (flags &&& 0x100 ≠ 0) int32Value 0
  let cursorIndex ← optional (flags &&& 0x200 ≠ 0) (do return Int32.ofInt (← uint16Value)) (-1)
  let batchIndex ← optional (flags &&& 0x800 ≠ 0) (do return Int32.ofInt (← uint16Value)) (-1)
  let count ← uint16Value
  let parameters ← binaryValues count
  return (true, { o with
    fTypeOfResult := .ofCode (flags &&& 15)
    fBlocking := flags &&& 0x10 ≠ 0
    fClearClusterDescription := flags &&& 0x400 ≠ 0
    fConsistencyLevel := Int32.ofInt consistencyLevel.toInt
    fCql := cql
    fTimestamp := timestamp
    fTimeoutMs := timeout
    fColumnCount := columnCount
    fPagingSize := pagingSize
    fCursorIndex := cursorIndex
    fBatchIndex := batchIndex
    fParameter := o.fParameter ++ parameters })

/-- The reads of `decodeResult()`. -/
def readResult (r : OrderResult) : Program (Bool × OrderResult) := do
  let count ← uint16Value
  let values ← binaryValues count
  return (true, { r with fResult := r.fResult ++ values })

@[simp] theorem run_pure (a : α) : (pure a : Program α).run = pure a := rfl

theorem run_bind (p : Program α) (f : α → Program β) :
    (p >>= f).run = p.run >>= fun a => (f a).run := by
  induction p with
  | done a =>
    funext d
    rfl
  | fixed width message next ih =>
    funext d
    have hnext : ∀ b, ((next b).bind f).run = (next b).run >>= fun a => (f a).run := ih
    change (Decoder.fixedValue width message >>= fun b => ((next b).bind f).run) d = _
    simp only [hnext, run, bind_assoc]
  | raw length next ih =>
    funext d
    have hnext : ∀ b, ((next b).bind f).run = (next b).run >>= fun a => (f a).run := ih
    change (Decoder.rawValue length >>= fun b => ((next b).bind f).run) d = _
    simp only [hnext, run, bind_assoc]

theorem run_p16StringValue : p16StringValue.run = Decoder.p16StringValue := by
  rw [p16StringValue, run_bind]
  rfl

theorem run_binaryValue : binaryValue.run = Decoder.binaryValue := by
  rw [binaryValue, run_bind]
  funext d
  simp only [run, bind_pure]
  rfl

theorem run_binaryValues (count : ℕ) : (binaryValues count).run = Decoder.binaryValues count := by
  induction count with
  | zero => rfl
  | succ count ih =>
    rw [binaryValues, run_bind, run_binaryValue]
    simp only [run_bind, ih]
    rfl

theorem run_optional (p : Prop) [Decidable p] (m : Program α) (absent : α) :
    (optional p m absent).run = Decoder.optional p m.run absent := by
  rw [optional, Decoder.optional]
  split_ifs <;> rfl

theorem run_readOrder (o : Order) : (readOrder o).run = o.readOrder := by
  simp only [readOrder, run_bind, run_p16StringValue, run_optional, run_binaryValues, run_pure]
  rfl

theorem run_readResult (r : OrderResult) : (readResult r).run = r.readResult := by
  simp only [readResult, run_bind, run_binaryValues, run_pure]
  rfl

end Program

def Field.Overlong (size : ℕ) (f : Field) : Prop := ∃ n ∈ f.declared, (size : ℤ) - f.start < n

def Consecutive (size : ℕ) : ℤ → List Field → Prop
  | _, [] => True
  | i, f :: rest => f.start = i ∧ i ≤ f.stop ∧ f.stop ≤ size ∧
      (∀ n ∈ f.declared, (n : ℤ) ≤ size - i ∧ f.stop = i + n) ∧ Consecutive size f.stop rest

section Reads

open Decoder

variable {d : Decoder} {rest : Bytes} {n : ℕ}

theorem bmod_eq (n : ℤ) : n.bmod (2 ^ 32) = (n + 2 ^ 31) % 2 ^ 32 - 2 ^ 31 := by
  rw [Int.bmod_eq_emod]
  split_ifs <;> omega

theorem atRest_index (h : AtRest d rest) :
    d.fIndex = d.fArray.length - rest.length ∧ rest.length ≤ d.fArray.length ∧
      d.fArray.length < 2 ^ 31 := by
  obtain ⟨hsmall, front, harray, hindex⟩ := h
  have hlen := congrArg List.length harray
  rw [List.length_append] at hlen
  omega

theorem atRest_drop (h : AtRest d rest) (hn : n ≤ rest.length) :
    AtRest (d.advance n) (rest.drop n) ∧ (d.advance n).fIndex = d.fIndex + n := by
  have hsplit := h
  rw [← List.take_append_drop n rest] at hsplit
  have hadvanced := hsplit.advanced
  rw [List.length_take_of_le hn] at hadvanced
  refine ⟨hadvanced, ?_⟩
  have hbefore := atRest_index h
  have hafter := atRest_index hadvanced
  have harray : (d.advance n).fArray = d.fArray := rfl
  rw [harray, List.length_drop] at hafter
  omega

theorem fixedValue_ok {width : ℕ} (message : ℕ → String) (h : AtRest d rest)
    (hw : width ≤ rest.length) :
    fixedValue width message d = .ok (rest.take width, d.advance width) := by
  have hsplit := h
  rw [← List.take_append_drop width rest] at hsplit
  have htake := hsplit.take
  have huint := hsplit.uint_le
  rw [List.length_take_of_le hw] at htake huint
  rw [fixedValue, if_neg (by omega), htake]

theorem fixedValue_error {width : ℕ} (message : ℕ → String) (h : AtRest d rest)
    (hwidth : width ≤ 8) (hw : rest.length < width) :
    ∃ e, fixedValue width message d = .error e := by
  have hindex := atRest_index h
  have hbeyond : (d.fArray.length : ℤ) < uint (d.fIndex + width) := by
    rw [uint, Int.emod_eq_of_lt] <;> omega
  exact ⟨_, by rw [fixedValue, if_pos (.inr hbeyond)]⟩

theorem rawValue_ok (h : AtRest d rest) (hn : n ≤ rest.length) :
    rawValue n d = .ok (rest.take n, d.advance n) := by
  have hindex := atRest_index h
  have hsplit := h
  rw [← List.take_append_drop n rest] at hsplit
  have htake := hsplit.take
  have huint := hsplit.uint_le
  rw [List.length_take_of_le hn] at htake huint
  have hbmod : (n : ℤ).bmod (2 ^ 32) = n := by
    rw [bmod_eq]
    omega
  have hne : (n : ℤ) ≠ -1 := by omega
  rw [rawValue]
  simp only [hbmod, hne, if_false]
  rw [if_neg (by omega), Int.toNat_natCast, htake]

/-- The length that stands for all the bytes that are left. -/
def everything : ℕ := 2 ^ 32 - 1

/-- The largest length is never refused, and the index goes back by one. -/
theorem rawValue_everything (h : AtRest d rest) :
    rawValue everything d = .ok (rest, d.advance everything) := by
  have hindex := atRest_index h
  have hrest : (d.fArray.drop d.fIndex.toNat).take
      ((d.fArray.length : ℤ) - d.fIndex).toNat = rest := by
    have hwhole := @AtRest.take d rest [] (by rwa [List.append_nil])
    have hlength : ((d.fArray.length : ℤ) - d.fIndex).toNat = rest.length := by omega
    rw [hlength, hwhole]
  have hbmod : (everything : ℤ).bmod (2 ^ 32) = -1 := by decide
  have hin : ¬((d.fArray.length : ℤ) < uint d.fIndex ∨
      (d.fArray.length : ℤ) < uint ((d.fArray.length : ℤ) - d.fIndex) ∨
      (d.fArray.length : ℤ) < uint (d.fIndex + ((d.fArray.length : ℤ) - d.fIndex))) := by
    unfold uint
    omega
  rw [rawValue]
  simp only [hbmod, if_true]
  rw [if_neg hin, hrest]

theorem index_everything (h : AtRest d rest) (hpos : 0 < d.fIndex) :
    (d.advance everything).fIndex = d.fIndex - 1 := by
  have hindex := atRest_index h
  have hcast : (everything : ℤ) = 2 ^ 32 - 1 := by decide
  simp only [advance, bmod_eq, hcast]
  omega

theorem rawValue_error (h : AtRest d rest) (hlt : rest.length < n) (hn : n < everything) :
    ∃ e, rawValue n d = .error e := by
  have hindex := atRest_index h
  rw [everything] at hn
  have hne : (n : ℤ).bmod (2 ^ 32) ≠ -1 := by
    rw [bmod_eq]
    omega
  have hbeyond : (d.fArray.length : ℤ) < uint ((n : ℤ).bmod (2 ^ 32)) ∨
      (d.fArray.length : ℤ) < uint (d.fIndex + (n : ℤ).bmod (2 ^ 32)) := by
    unfold uint
    rw [bmod_eq]
    omega
  rw [rawValue]
  simp only [hne, if_false]
  exact ⟨_, by rw [if_pos (.inr hbeyond)]⟩

end Reads

section Programs

open Decoder Program

variable {α β : Type} {d : Decoder} {rest : Bytes} {a : α} {d' : Decoder} {f : α → Program β}
  {p : Program α}

theorem run_fixed_ok (width : Fin 9) (message : ℕ → String) (next : Bytes → Program α)
    (h : AtRest d rest) (hw : (width : ℕ) ≤ rest.length) :
    (fixed width message next).run d = (next (rest.take width)).run (d.advance width) ∧
      (fixed width message next).trace d = ⟨d.fIndex, d.fIndex + width, none⟩ ::
        (next (rest.take width)).trace (d.advance width) := by
  have hread := fixedValue_ok message h hw
  constructor
  · simp only [run, Bind.bind, StateT.bind, hread, Except.bind]
  · simp only [trace, hread, (atRest_drop h hw).2]

theorem run_fixed_error (width : Fin 9) (message : ℕ → String) (next : Bytes → Program α)
    (h : AtRest d rest) (hw : rest.length < (width : ℕ)) :
    (∃ e, (fixed width message next).run d = .error e) ∧
      (fixed width message next).trace d = [] := by
  obtain ⟨e, he⟩ := fixedValue_error message h (Nat.le_of_lt_succ width.isLt) hw
  constructor
  · exact ⟨e, by simp only [run, Bind.bind, StateT.bind, he, Except.bind]⟩
  · simp only [trace, he]

theorem run_raw_ok {n : ℕ} (next : Bytes → Program α) (h : AtRest d rest)
    (hn : n ≤ rest.length) :
    (raw n next).run d = (next (rest.take n)).run (d.advance n) ∧
      (raw n next).trace d = ⟨d.fIndex, d.fIndex + n, some n⟩ ::
        (next (rest.take n)).trace (d.advance n) := by
  have hread := rawValue_ok h hn
  constructor
  · simp only [run, Bind.bind, StateT.bind, hread, Except.bind]
  · simp only [trace, hread, (atRest_drop h hn).2]

/-- The fields follow each other unless one of them declares too much. -/
theorem consecutive_iff (p : Program α) (h : AtRest d rest) :
    Consecutive d.fArray.length d.fIndex (p.trace d) ↔
      ∀ f ∈ p.trace d, ¬f.Overlong d.fArray.length := by
  induction p generalizing d rest with
  | done a => exact iff_of_true trivial fun f hf => absurd hf List.not_mem_nil
  | fixed width message next ih =>
    by_cases hw : (width : ℕ) ≤ rest.length
    · obtain ⟨hrest, hindex⟩ := atRest_drop h hw
      have hplace := atRest_index h
      have hnext := ih (rest.take width) hrest
      have harray : (d.advance width).fArray = d.fArray := rfl
      rw [harray, hindex] at hnext
      rw [(run_fixed_ok _ _ _ h hw).2, List.forall_mem_cons, Consecutive]
      simp only [hnext]
      constructor
      · rintro ⟨-, -, -, -, hfields⟩
        exact ⟨by simp [Field.Overlong], hfields⟩
      · rintro ⟨-, hfields⟩
        exact ⟨trivial, by omega, by omega, by simp, hfields⟩
    · rw [(run_fixed_error _ _ _ h (Nat.lt_of_not_le hw)).2]
      exact iff_of_true trivial fun f hf => absurd hf List.not_mem_nil
  | raw n next ih =>
    have hplace := atRest_index h
    by_cases hn : n ≤ rest.length
    · obtain ⟨hrest, hindex⟩ := atRest_drop h hn
      have hnext := ih (rest.take n) hrest
      have harray : (d.advance n).fArray = d.fArray := rfl
      rw [harray, hindex] at hnext
      rw [(run_raw_ok _ h hn).2, List.forall_mem_cons, Consecutive]
      simp only [hnext]
      constructor
      · rintro ⟨-, -, -, -, hfields⟩
        refine ⟨?_, hfields⟩
        rintro ⟨m, hm, hlong⟩
        obtain rfl := Option.some.inj hm
        simp only at hlong
        omega
      · rintro ⟨-, hfields⟩
        refine ⟨trivial, by omega, by omega, ?_, hfields⟩
        rintro m ⟨rfl⟩
        exact ⟨by omega, rfl⟩
    · rw [trace]
      cases rawValue n d with
      | error e => exact iff_of_true trivial fun f hf => absurd hf List.not_mem_nil
      | ok r =>
        refine iff_of_false ?_ ?_
        · rintro ⟨-, -, -, hdeclared, -⟩
          have := (hdeclared n rfl).1
          omega
        · intro hall
          refine hall _ List.mem_cons_self ⟨n, rfl, ?_⟩
          simp only
          omega

/-- A program gives a value although a field declares more bytes than are left. -/
def Overruns (p : Program α) (d : Decoder) : Prop :=
  (∃ r, p.run d = .ok r) ∧ ∃ f ∈ p.trace d, f.Overlong d.fArray.length

theorem bounded_iff (p : Program α) (h : AtRest d rest) :
    ((∃ e, p.run d = .error e) ∨ Consecutive d.fArray.length d.fIndex (p.trace d)) ↔
      ¬Overruns p d := by
  rw [consecutive_iff p h, Overruns]
  cases hrun : p.run d with
  | error e =>
    refine iff_of_true (.inl ⟨e, rfl⟩) ?_
    rintro ⟨⟨r, hr⟩, -⟩
    cases hr
  | ok r =>
    constructor
    · rintro (⟨e, he⟩ | hall) ⟨-, f, hf, hlong⟩
      · cases he
      · exact hall f hf hlong
    · intro hnot
      exact .inr fun f hf hlong => hnot ⟨⟨r, rfl⟩, f, hf, hlong⟩

theorem trace_bind (p : Program α) (f : α → Program β) (d : Decoder) :
    (p >>= f).trace d = p.trace d ++
      match p.run d with
      | .ok (a, d') => (f a).trace d'
      | .error _ => [] := by
  induction p generalizing d with
  | done a => rfl
  | fixed width message next ih =>
    have hbind : (fixed width message next >>= f) =
        fixed width message fun b => next b >>= f := rfl
    rw [hbind, trace, trace, run]
    cases hread : fixedValue width message d with
    | error e => simp only [hread, Bind.bind, StateT.bind, Except.bind, List.append_nil]
    | ok r => simp only [hread, Bind.bind, StateT.bind, Except.bind, List.cons_append, ← ih]
  | raw n next ih =>
    have hbind : (raw n next >>= f) = raw n fun b => next b >>= f := rfl
    rw [hbind, trace, trace, run]
    cases hread : rawValue n d with
    | error e => simp only [hread, Bind.bind, StateT.bind, Except.bind, List.append_nil]
    | ok r => simp only [hread, Bind.bind, StateT.bind, Except.bind, List.cons_append, ← ih]

def Succeeds (p : Program α) (d : Decoder) : Prop := ∃ r, p.run d = .ok r

theorem succeeds_bind (h : p.run d = .ok (a, d')) : Succeeds (p >>= f) d ↔ Succeeds (f a) d' := by
  rw [Succeeds, Succeeds, run_bind]
  simp only [Bind.bind, StateT.bind, h, Except.bind]

theorem succeeds_map (p : Program α) (g : α → β) (d : Decoder) :
    Succeeds (p >>= fun a => pure (g a)) d ↔ Succeeds p d := by
  rw [Succeeds, Succeeds, run_bind]
  cases hrun : p.run d with
  | error e =>
    simp only [Bind.bind, StateT.bind, hrun, Except.bind]
    exact iff_of_false (fun ⟨r, hr⟩ => by cases hr) fun ⟨r, hr⟩ => by cases hr
  | ok r =>
    simp only [Bind.bind, StateT.bind, hrun, Except.bind]
    exact iff_of_true ⟨_, rfl⟩ ⟨r, rfl⟩

/-- A last step without reads changes nothing. -/
theorem overruns_map (p : Program α) (g : α → β) (d : Decoder) :
    Overruns (p >>= fun a => pure (g a)) d ↔ Overruns p d := by
  have htrace : (p >>= fun a => pure (g a)).trace d = p.trace d := by
    rw [trace_bind]
    cases p.run d with
    | error e => exact List.append_nil _
    | ok r => exact List.append_nil _
  rw [Overruns, Overruns, htrace]
  exact and_congr_left fun _ => succeeds_map p g d

theorem not_succeeds_bind {e : String}
    (h : p.run d = .error e) : ¬Succeeds (p >>= f) d := by
  rintro ⟨r, hr⟩
  rw [run_bind] at hr
  simp only [Bind.bind, StateT.bind, h, Except.bind] at hr
  cases hr

theorem overruns_bind (h : p.run d = .ok (a, d')) (harray : d'.fArray = d.fArray) :
    Overruns (p >>= f) d ↔
      Succeeds (f a) d' ∧ ((∃ x ∈ p.trace d, x.Overlong d.fArray.length) ∨
        ∃ x ∈ (f a).trace d', x.Overlong d'.fArray.length) := by
  have hsucceeds : (∃ r, (p >>= f).run d = .ok r) ↔ Succeeds (f a) d' := succeeds_bind h
  rw [Overruns, hsucceeds, trace_bind, h, harray]
  simp only [List.mem_append, or_and_right, exists_or]

theorem overruns_bind_iff (h : p.run d = .ok (a, d')) (harray : d'.fArray = d.fArray)
    (hfields : ∀ x ∈ p.trace d, ¬x.Overlong d.fArray.length) :
    Overruns (p >>= f) d ↔ Overruns (f a) d' := by
  rw [overruns_bind h harray]
  refine and_congr_right fun _ => ⟨fun hlong => ?_, .inr⟩
  exact hlong.resolve_left fun ⟨x, hx, hover⟩ => hfields x hx hover

end Programs

theorem number_concat (b : Bytes) (x : UInt8) : number (b ++ [x]) = number b * 256 + x.toNat := by
  rw [number, List.foldl_append]
  rfl

variable {b : Bytes}

theorem number_injective {a : Bytes} (hlength : a.length = b.length) (h : number a = number b) :
    a = b := by
  induction a using List.reverseRecOn generalizing b with
  | nil => exact (List.eq_nil_of_length_eq_zero hlength.symm).symm
  | append_singleton a x ih =>
    rcases List.eq_nil_or_concat b with rfl | ⟨b, y, rfl⟩
    · simp at hlength
    · rw [List.concat_eq_append] at hlength h ⊢
      rw [number_concat, number_concat] at h
      simp only [List.length_append, List.length_singleton, Nat.add_right_cancel_iff] at hlength
      have hx := x.toNat_lt
      have hy := y.toNat_lt
      have hlast : x = y := UInt8.toNat_inj.mp (by omega)
      rw [ih hlength (by omega), hlast]

theorem number_lt (b : Bytes) : number b < 256 ^ b.length := by
  induction b using List.reverseRecOn with
  | nil => decide
  | append_singleton b x ih =>
    have hx := x.toNat_lt
    rw [number_concat, List.length_append, List.length_singleton, pow_succ]
    omega

theorem number_length {n : ℕ} (h : n < 2 ^ 32) : number (bigEndian 4 n) = n := by
  have := number_bigEndian 4 n
  omega

theorem eq_bigEndian (hlength : b.length = 4) {n : ℕ} (h : number b = n)
    (hn : n < 2 ^ 32) : b = bigEndian 4 n :=
  number_injective (by rw [hlength, length_bigEndian]) (by rw [h, number_length hn])

theorem number_everything (hlength : b.length = 4) :
    number b = everything ↔ b = List.replicate 4 0xFF := by
  have hall : number (List.replicate 4 0xFF) = everything := by decide
  constructor
  · intro h
    exact number_injective (by rw [hlength, List.length_replicate]) (by rw [h, hall])
  · rintro rfl
    exact hall

/-- A number that starts with the byte FF is larger than any buffer. -/
theorem le_number (hlength : (0xFF :: b).length = 4) : 0xFF000000 ≤ number (0xFF :: b) := by
  obtain ⟨x, y, z, rfl⟩ := List.length_eq_three.mp (Nat.succ.inj hlength)
  simp [number]
  omega

section Blobs

open Program
open Decoder (AtRest)

variable {d : Decoder} {whole rest : Bytes} {b : Bytes} {count : ℕ}

/-- The read of a blob behind the number in front of it. -/
theorem run_binaryValue_head (h : AtRest d whole) (hlength : 4 ≤ whole.length) :
    AtRest (d.advance 4) (whole.drop 4) ∧ (d.advance 4).fIndex = d.fIndex + 4 ∧
      binaryValue.run d = (raw (number (whole.take 4)) done).run (d.advance 4) ∧
      binaryValue.trace d = ⟨d.fIndex, d.fIndex + 4, none⟩ ::
        (raw (number (whole.take 4)) done).trace (d.advance 4) := by
  obtain ⟨hrun, htrace⟩ := run_fixed_ok 4
    (fun _ => "buffer too small for this uint32Value") (fun b => raw (number b) done) h hlength
  obtain ⟨hrest, hindex⟩ := atRest_drop h hlength
  exact ⟨hrest, hindex, hrun, htrace⟩

/-- A blob whose bytes are there is read whole. -/
theorem binaryValue_ok (h : AtRest d (bigEndian 4 b.length ++ (b ++ rest))) :
    ∃ d', binaryValue.run d = .ok (b, d') ∧ AtRest d' rest ∧ d'.fArray = d.fArray ∧
      ∀ f ∈ binaryValue.trace d, ¬f.Overlong d.fArray.length := by
  have hindex := atRest_index h
  have hlength : b.length < 2 ^ 31 := by
    simp only [List.length_append, length_bigEndian] at hindex
    omega
  obtain ⟨hrest, hstart, hrun, htrace⟩ := run_binaryValue_head h (by simp)
  have htake : (bigEndian 4 b.length ++ (b ++ rest)).take 4 = bigEndian 4 b.length :=
    List.take_left' (length_bigEndian 4 _)
  have hdrop : (bigEndian 4 b.length ++ (b ++ rest)).drop 4 = b ++ rest :=
    List.drop_left' (length_bigEndian 4 _)
  rw [htake, number_length (by omega)] at hrun htrace
  rw [hdrop] at hrest
  have hle : b.length ≤ (b ++ rest).length := by simp
  obtain ⟨hraw, hfields⟩ := run_raw_ok done hrest hle
  obtain ⟨hbehind, -⟩ := atRest_drop hrest hle
  rw [List.take_left] at hraw hfields
  rw [List.drop_left] at hbehind
  refine ⟨_, hrun.trans hraw, hbehind, rfl, ?_⟩
  rw [htrace, hfields]
  have hplace := atRest_index hrest
  have harray : (d.advance 4).fArray = d.fArray := rfl
  rw [harray, List.length_append] at hplace
  intro f hf
  simp only [List.mem_cons, trace, List.not_mem_nil, or_false] at hf
  rcases hf with rfl | rfl
  · simp [Field.Overlong]
  · rintro ⟨n, hn, hlong⟩
    obtain rfl := Option.some.inj hn
    simp only at hlong
    omega

/-- The largest length gives all the bytes that are left, and the index goes back to the
last byte of that length. -/
theorem binaryValue_everything (h : AtRest d (List.replicate 4 0xFF ++ rest)) :
    ∃ d', binaryValue.run d = .ok (rest, d') ∧ AtRest d' (0xFF :: rest) ∧ d'.fArray = d.fArray ∧
      ∃ f ∈ binaryValue.trace d, f.Overlong d.fArray.length := by
  obtain ⟨hrest, hstart, hrun, htrace⟩ := run_binaryValue_head h (by simp)
  have htake : (List.replicate 4 (0xFF : UInt8) ++ rest).take 4 = List.replicate 4 0xFF :=
    List.take_left' List.length_replicate
  have hdrop : (List.replicate 4 (0xFF : UInt8) ++ rest).drop 4 = rest :=
    List.drop_left' List.length_replicate
  rw [htake, (number_everything List.length_replicate).mpr rfl] at hrun htrace
  rw [hdrop] at hrest
  have hraw := rawValue_everything hrest
  have hindex := atRest_index h
  have hplace := atRest_index hrest
  refine ⟨(d.advance 4).advance everything, ?_, ?_, rfl, ?_⟩
  · rw [hrun, run]
    simp only [Bind.bind, StateT.bind, hraw, Except.bind]
    rfl
  · obtain ⟨hsmall, front, harray, hfront⟩ := h
    refine ⟨hsmall, front ++ List.replicate 3 0xFF, ?_, ?_⟩
    · change d.fArray = _
      rw [harray, List.append_assoc]
      rfl
    · rw [index_everything hrest (by omega), hstart, List.length_append, List.length_replicate]
      omega
  · rw [htrace, trace, hraw]
    refine ⟨_, List.mem_cons_of_mem _ List.mem_cons_self, everything, rfl, ?_⟩
    have hcast : (everything : ℤ) = 2 ^ 32 - 1 := by decide
    simp only [hcast]
    omega

/-- On anything else the read of a blob fails. -/
theorem binaryValue_shape (h : AtRest d whole) :
    (∃ b rest, whole = bigEndian 4 b.length ++ (b ++ rest)) ∨
      (∃ rest, whole = List.replicate 4 0xFF ++ rest) ∨ ∃ e, binaryValue.run d = .error e := by
  by_cases hlength : 4 ≤ whole.length
  · obtain ⟨hrest, hstart, hrun, -⟩ := run_binaryValue_head h hlength
    have hsplit := (List.take_append_drop 4 whole).symm
    have htake := List.length_take_of_le hlength
    have hplace := atRest_index hrest
    by_cases hle : number (whole.take 4) ≤ (whole.drop 4).length
    · refine .inl ⟨(whole.drop 4).take (number (whole.take 4)),
        (whole.drop 4).drop (number (whole.take 4)), ?_⟩
      rw [List.take_append_drop, List.length_take_of_le hle,
        ← eq_bigEndian htake rfl (by omega), List.take_append_drop]
    · by_cases hall : number (whole.take 4) = everything
      · refine .inr (.inl ⟨whole.drop 4, ?_⟩)
        rwa [← (number_everything htake).mp hall]
      · have hlt : number (whole.take 4) < everything := by
          have hbound := number_lt (whole.take 4)
          rw [htake] at hbound
          rw [everything] at hall ⊢
          omega
        obtain ⟨e, he⟩ := rawValue_error hrest (Nat.lt_of_not_le hle) hlt
        refine .inr (.inr ⟨e, ?_⟩)
        rw [hrun, run]
        simp only [Bind.bind, StateT.bind, he, Except.bind]
  · obtain ⟨⟨e, he⟩, -⟩ := run_fixed_error 4
      (fun _ => "buffer too small for this uint32Value") (fun b => raw (number b) done) h
        (Nat.lt_of_not_le hlength)
    exact .inr (.inr ⟨e, he⟩)

def Hostile (count : ℕ) (whole : Bytes) : Prop :=
  ∃ (l : List Bytes) (k : ℕ) (tail : Bytes), 1 ≤ k ∧ l.length + k = count ∧
    whole = blobs l ++ (List.replicate (3 * k + 1) 0xFF ++ tail)

theorem binaryValues_succ (count : ℕ) : binaryValues (count + 1) =
    binaryValue >>= fun b => binaryValues count >>= fun rest => pure (b :: rest) := rfl

theorem length_ne_everything (hb : b.length < 2 ^ 31) (rest rest' : Bytes) :
    bigEndian 4 b.length ++ rest ≠ List.replicate 4 0xFF ++ rest' := by
  intro heq
  have hhead := (List.append_inj heq (by simp)).1
  have hnumber := number_length (n := b.length) (by omega)
  rw [hhead, (number_everything List.length_replicate).mpr rfl, everything] at hnumber
  omega

/-- Once the index is on a byte FF, the reads that follow succeed as long as there are
such bytes. -/
theorem succeeds_behind (count : ℕ) (h : AtRest d (0xFF :: rest)) :
    Succeeds (binaryValues count) d ↔
      ∃ tail, 0xFF :: rest = List.replicate (3 * count + 1) 0xFF ++ tail := by
  induction count generalizing d rest with
  | zero => exact iff_of_true ⟨_, rfl⟩ ⟨rest, rfl⟩
  | succ count ih =>
    have hsmall := atRest_index h
    have hmore : List.replicate (3 * (count + 1) + 1) (0xFF : UInt8) =
        List.replicate 3 0xFF ++ List.replicate (3 * count + 1) 0xFF := by
      rw [← List.replicate_add]
      congr 1
      omega
    rw [binaryValues_succ, hmore]
    rcases binaryValue_shape h with ⟨b, rest', hwhole⟩ | ⟨rest', hwhole⟩ | ⟨e, he⟩
    · have hb : b.length < 2 ^ 31 := by
        have := congrArg List.length hwhole
        simp only [List.length_append, length_bigEndian] at this
        omega
      have hnumber := number_length (n := b.length) (by omega)
      obtain ⟨c, hc⟩ : ∃ c, bigEndian 4 b.length = 0xFF :: c := by
        have hhead := congrArg List.head? hwhole
        rw [bigEndian] at hhead ⊢
        simp only [List.head?_cons, List.cons_append, Option.some_inj] at hhead
        rw [← hhead]
        exact ⟨_, rfl⟩
      have hle := le_number (b := c) (by rw [← hc, length_bigEndian])
      rw [← hc, hnumber] at hle
      omega
    · rw [hwhole] at h
      obtain ⟨d', hrun, hd', -⟩ := binaryValue_everything h
      rw [succeeds_bind hrun, succeeds_map, ih hd', hwhole]
      constructor
      · rintro ⟨tail, htail⟩
        refine ⟨tail, ?_⟩
        rw [List.append_assoc, ← htail]
        rfl
      · rintro ⟨tail, htail⟩
        refine ⟨tail, ?_⟩
        rw [List.append_assoc] at htail
        exact (List.append_right_inj (List.replicate 3 0xFF)).mp htail
    · refine iff_of_false (not_succeeds_bind he) ?_
      rintro ⟨tail, htail⟩
      have hwhole : 0xFF :: rest = List.replicate 4 0xFF ++
          (List.replicate (3 * count) 0xFF ++ tail) := by
        rw [htail, List.append_assoc, List.replicate_succ]
        rfl
      rw [hwhole] at h
      obtain ⟨d', hrun, -⟩ := binaryValue_everything h
      rw [he] at hrun
      cases hrun

theorem hostile_cons (hsmall : (bigEndian 4 b.length ++ (b ++ rest)).length < 2 ^ 31) :
    Hostile (count + 1) (bigEndian 4 b.length ++ (b ++ rest)) ↔ Hostile count rest := by
  have hb : b.length < 2 ^ 31 := by
    simp only [List.length_append, length_bigEndian] at hsmall
    omega
  constructor
  · rintro ⟨l, k, tail, hk, hcount, hwhole⟩
    cases l with
    | nil =>
      obtain ⟨n, hn⟩ : ∃ n, 3 * k + 1 = 4 + n := ⟨3 * k - 3, by omega⟩
      rw [hn, List.replicate_add, blobs, List.flatMap_nil, List.nil_append,
        List.append_assoc] at hwhole
      exact absurd hwhole (length_ne_everything hb _ _)
    | cons c l =>
      rw [blobs, List.flatMap_cons, List.append_assoc, List.append_assoc] at hwhole
      obtain ⟨hhead, htail⟩ := List.append_inj hwhole (by simp)
      have hc : c.length < 2 ^ 31 := by
        have := congrArg List.length hwhole
        simp only [List.length_append, length_bigEndian] at this hsmall
        omega
      have hlength : b.length = c.length := by
        rw [← number_length (n := b.length) (by omega), hhead, number_length (by omega)]
      refine ⟨l, k, tail, hk, ?_, (List.append_inj htail hlength).2⟩
      rw [List.length_cons] at hcount
      omega
  · rintro ⟨l, k, tail, hk, rfl, rfl⟩
    refine ⟨b :: l, k, tail, hk, by rw [List.length_cons]; omega, ?_⟩
    simp only [blobs, List.flatMap_cons, List.append_assoc]

theorem hostile_everything (hsmall : (List.replicate 4 0xFF ++ rest).length < 2 ^ 31) :
    Hostile (count + 1) (List.replicate 4 0xFF ++ rest) ↔
      ∃ tail, 0xFF :: rest = List.replicate (3 * count + 1) 0xFF ++ tail := by
  constructor
  · rintro ⟨l, k, tail, hk, hcount, hwhole⟩
    cases l with
    | nil =>
      obtain rfl : k = count + 1 := by simpa using hcount
      refine ⟨tail, (List.append_right_inj (List.replicate 3 0xFF)).mp ?_⟩
      have hmore : 3 * (count + 1) + 1 = 3 + (3 * count + 1) := by omega
      rw [hmore, List.replicate_add, blobs, List.flatMap_nil, List.nil_append,
        List.append_assoc] at hwhole
      rw [← hwhole]
      rfl
    | cons c l =>
      rw [blobs, List.flatMap_cons, List.append_assoc, List.append_assoc] at hwhole
      have hc : c.length < 2 ^ 31 := by
        have := congrArg List.length hwhole
        simp only [List.length_append, length_bigEndian, List.length_replicate] at this hsmall
        omega
      exact absurd hwhole.symm (length_ne_everything hc _ _)
  · rintro ⟨tail, htail⟩
    refine ⟨[], count + 1, tail, by omega, by simp, ?_⟩
    have hmore : 3 * (count + 1) + 1 = 3 + (3 * count + 1) := by omega
    rw [hmore, List.replicate_add, List.append_assoc, ← htail]
    rfl

theorem Hostile.shape (h : Hostile count whole) :
    (∃ b rest, whole = bigEndian 4 b.length ++ (b ++ rest)) ∨
      ∃ rest, whole = List.replicate 4 0xFF ++ rest := by
  obtain ⟨l, k, tail, hk, -, rfl⟩ := h
  cases l with
  | nil =>
    obtain ⟨n, hn⟩ : ∃ n, 3 * k + 1 = 4 + n := ⟨3 * k - 3, by omega⟩
    refine .inr ⟨List.replicate n 0xFF ++ tail, ?_⟩
    rw [hn, List.replicate_add, List.append_assoc]
    rfl
  | cons c l =>
    refine .inl ⟨c, blobs l ++ (List.replicate (3 * k + 1) 0xFF ++ tail), ?_⟩
    simp only [blobs, List.flatMap_cons, List.append_assoc]

/-- The blobs that overrun a buffer. -/
theorem overruns_binaryValues (count : ℕ) (h : AtRest d whole) :
    Overruns (binaryValues count) d ↔ Hostile count whole := by
  induction count generalizing d whole with
  | zero =>
    refine iff_of_false ?_ ?_
    · rintro ⟨-, f, hf, -⟩
      cases hf
    · rintro ⟨l, k, tail, hk, hcount, -⟩
      omega
  | succ count ih =>
    have hsmall := atRest_index h
    rw [binaryValues_succ]
    rcases binaryValue_shape h with ⟨b, rest, rfl⟩ | ⟨rest, rfl⟩ | ⟨e, he⟩
    · obtain ⟨d', hrun, hd', harray, hfields⟩ := binaryValue_ok h
      rw [overruns_bind_iff hrun harray hfields, overruns_map, ih hd',
        hostile_cons (by omega)]
    · obtain ⟨d', hrun, hd', harray, hfield⟩ := binaryValue_everything h
      rw [overruns_bind hrun harray, succeeds_map, succeeds_behind count hd',
        hostile_everything (by omega)]
      exact and_iff_left (.inl hfield)
    · refine iff_of_false (fun hover => not_succeeds_bind he hover.1) fun hhostile => ?_
      rcases hhostile.shape with ⟨b, rest, rfl⟩ | ⟨rest, rfl⟩
      · obtain ⟨d', hrun, -⟩ := binaryValue_ok h
        rw [he] at hrun
        cases hrun
      · obtain ⟨d', hrun, -⟩ := binaryValue_everything h
        rw [he] at hrun
        cases hrun

end Blobs

section Messages

open Program
open Decoder (AtRest)

variable {α β : Type} {d : Decoder} {whole : Bytes} {f : α → Program β} {g : Bytes → α}
  {P : Bytes → Bytes → Prop}

/-- A number in front of the rest of a program. -/
theorem overruns_fixed {width : Fin 9} {message : ℕ → String}
    (hf : ∀ b : Bytes, b.length = width → ∀ d rest, AtRest d rest →
    (Overruns (f (g b)) d ↔ P b rest))
    (h : AtRest d whole) : Overruns ((fixed width message fun b => done (g b)) >>= f) d ↔
      (width : ℕ) ≤ whole.length ∧ P (whole.take width) (whole.drop width) := by
  by_cases hle : (width : ℕ) ≤ whole.length
  · obtain ⟨hrun, htrace⟩ := run_fixed_ok _ message (fun b => done (g b)) h hle
    have hfields : ∀ x ∈ (fixed width message fun b => done (g b)).trace d,
        ¬x.Overlong d.fArray.length := by
      rw [htrace]
      simp [trace, Field.Overlong]
    rw [overruns_bind_iff hrun rfl hfields,
      hf _ (List.length_take_of_le hle) _ _ (atRest_drop h hle).1]
    exact (and_iff_right hle).symm
  · obtain ⟨⟨e, he⟩, -⟩ := run_fixed_error _ message (fun b => done (g b)) h
      (Nat.lt_of_not_le hle)
    exact iff_of_false (fun hover => not_succeeds_bind he hover.1) fun hand => hle hand.1

/-- The bytes behind a length, which is not the largest, in front of the rest. -/
theorem overruns_raw {n : ℕ} (hn : n < everything)
    (hf : ∀ b d rest, AtRest d rest → (Overruns (f (g b)) d ↔ P b rest))
    (h : AtRest d whole) : Overruns ((raw n fun b => done (g b)) >>= f) d ↔
      n ≤ whole.length ∧ P (whole.take n) (whole.drop n) := by
  by_cases hle : n ≤ whole.length
  · obtain ⟨hrun, htrace⟩ := run_raw_ok (fun b => done (g b)) h hle
    have hplace := atRest_index h
    have hfields : ∀ x ∈ (raw n fun b => done (g b)).trace d, ¬x.Overlong d.fArray.length := by
      rw [htrace]
      intro x hx
      simp only [List.mem_cons, trace, List.not_mem_nil, or_false] at hx
      rintro ⟨m, hm, hlong⟩
      rw [hx] at hm hlong
      obtain rfl := Option.some.inj hm
      simp only at hlong
      omega
    rw [overruns_bind_iff hrun rfl hfields, hf _ _ _ (atRest_drop h hle).1]
    exact (and_iff_right hle).symm
  · obtain ⟨e, he⟩ := rawValue_error h (Nat.lt_of_not_le hle) hn
    have hrun : (raw n fun b => done (g b)).run d = .error e := by
      rw [run]
      simp only [Bind.bind, StateT.bind, he, Except.bind]
    exact iff_of_false (fun hover => not_succeeds_bind hrun hover.1) fun hand => hle hand.1

def Behind (n : ℕ) (Q : Bytes → Prop) (whole : Bytes) : Prop :=
  n ≤ whole.length ∧ Q (whole.drop n)

theorem behind_add (m n : ℕ) (Q : Bytes → Prop) : Behind (m + n) Q = Behind m (Behind n Q) := by
  funext whole
  refine propext (Iff.symm ?_)
  rw [Behind, Behind, Behind, List.length_drop, List.drop_drop]
  constructor
  · rintro ⟨hm, hn, hQ⟩
    exact ⟨by omega, hQ⟩
  · rintro ⟨hmn, hQ⟩
    exact ⟨by omega, by omega, hQ⟩

theorem overruns_optional {Q : Bytes → Prop} (q : Prop) [Decidable q] (width : Fin 9)
    (message : ℕ → String) (g : Bytes → α) (absent : α)
    (hf : ∀ a d rest, AtRest d rest → (Overruns (f a) d ↔ Q rest)) (h : AtRest d whole) :
    Overruns (Program.optional q (fixed width message fun b => done (g b)) absent >>= f) d ↔
      Behind (if q then (width : ℕ) else 0) Q whole := by
  rw [Program.optional]
  by_cases hq : q
  · rw [if_pos hq, if_pos hq]
    exact overruns_fixed (P := fun _ => Q) (fun b _ d rest hd => hf _ d rest hd) h
  · rw [if_neg hq, if_neg hq]
    have hpure : ((pure absent : Program α) >>= f) = f absent := rfl
    rw [hpure, hf absent d whole h, Behind, List.drop_zero]
    exact (and_iff_right (Nat.zero_le _)).symm

def BehindText (Q : Bytes → Prop) (whole : Bytes) : Prop :=
  2 ≤ whole.length ∧ Behind (number (whole.take 2)) Q (whole.drop 2)

theorem overruns_p16String {f : QString → Program β} {Q : Bytes → Prop}
    (hf : ∀ a d rest, AtRest d rest → (Overruns (f a) d ↔ Q rest)) (h : AtRest d whole) :
    Overruns (p16StringValue >>= f) d ↔ BehindText Q whole := by
  have hassoc : (p16StringValue >>= f) = uint16Value >>= fun length =>
      (raw length fun b => done (fromUtf8Array b)) >>= f := rfl
  rw [hassoc]
  refine overruns_fixed (P := fun b rest => Behind (number b) Q rest) (fun b hb d rest hd => ?_) h
  have hlt := number_lt b
  rw [hb] at hlt
  have hn : number b < everything := hlt.trans (by decide)
  exact overruns_raw (P := fun _ => Q) hn (fun c d rest hd => hf _ d rest hd) hd

def HostileBlobs (whole : Bytes) : Prop :=
  2 ≤ whole.length ∧ Hostile (number (whole.take 2)) (whole.drop 2)

theorem overruns_blobs (g : List Bytes → α) (h : AtRest d whole) :
    Overruns (uint16Value >>= fun count => binaryValues count >>= fun l => pure (g l)) d ↔
      HostileBlobs whole :=
  overruns_fixed (P := fun b rest => Hostile (number b) rest)
    (fun b _ d _ hd => (overruns_map _ g d).trans (overruns_binaryValues (number b) hd)) h

def optionalWidth (flags : ℕ) : ℕ :=
  (if flags &&& 0x20 ≠ 0 then 8 else 0) + ((if flags &&& 0x40 ≠ 0 then 4 else 0) +
    ((if flags &&& 0x80 ≠ 0 then 1 else 0) + ((if flags &&& 0x100 ≠ 0 then 4 else 0) +
      ((if flags &&& 0x200 ≠ 0 then 2 else 0) + (if flags &&& 0x800 ≠ 0 then 2 else 0)))))

def HostileOrder (whole : Bytes) : Prop :=
  2 ≤ whole.length ∧ Behind 1 (BehindText (Behind (optionalWidth (number (whole.take 2)))
    HostileBlobs)) (whole.drop 2)

theorem overruns_readResult (r : OrderResult) (h : AtRest d whole) :
    Overruns (readResult r) d ↔ HostileBlobs whole :=
  overruns_blobs (fun values => (true, ({ r with fResult := r.fResult ++ values } : OrderResult))) h

theorem overruns_readOrder (o : Order) (h : AtRest d whole) :
    Overruns (readOrder o) d ↔ HostileOrder whole := by
  refine overruns_fixed (P := fun flags => Behind 1 (BehindText
    (Behind (optionalWidth (number flags)) HostileBlobs))) (fun flags _ d rest hd => ?_) h
  refine overruns_fixed (P := fun _ => BehindText (Behind (optionalWidth (number flags))
    HostileBlobs)) (fun level _ d rest hd => ?_) hd
  refine overruns_p16String (fun cql d rest hd => ?_) hd
  simp only [optionalWidth, behind_add]
  refine overruns_optional (number flags &&& 0x20 ≠ 0) 8 _ _ _ (fun timestamp d rest hd => ?_) hd
  refine overruns_optional (number flags &&& 0x40 ≠ 0) 4 _ _ _ (fun timeout d rest hd => ?_) hd
  refine overruns_optional (number flags &&& 0x80 ≠ 0) 1 _ _ _ (fun columnCount d rest hd => ?_) hd
  refine overruns_optional (number flags &&& 0x100 ≠ 0) 4 _ _ _ (fun pagingSize d rest hd => ?_) hd
  refine overruns_optional (number flags &&& 0x200 ≠ 0) 2 _ (fun b => Int32.ofInt (number b)) _
    (fun cursorIndex d rest hd => ?_) hd
  refine overruns_optional (number flags &&& 0x800 ≠ 0) 2 _ (fun b => Int32.ofInt (number b)) _
    (fun batchIndex d rest hd => ?_) hd
  exact overruns_blobs _ hd

/-- The fields that `decodeOrder()` reads stay in bounds, or it throws. -/
def OrderBounded (o : Order) (encoded : CassInteger.Buffer) : Prop :=
  (∃ message, o.decodeOrder encoded.data = .error message) ∨
    Consecutive encoded.size 0 ((readOrder o).trace ⟨encoded.data, 0⟩)

/-- The fields that `decodeResult()` reads stay in bounds, or it throws. -/
def ResultBounded (r : OrderResult) (encoded : CassInteger.Buffer) : Prop :=
  (∃ message, r.decodeResult encoded.data = .error message) ∨
    Consecutive encoded.size 0 ((readResult r).trace ⟨encoded.data, 0⟩)

theorem atRest_start (encoded : CassInteger.Buffer) : AtRest ⟨encoded.data, 0⟩ encoded.data :=
  ⟨encoded.small, [], rfl, rfl⟩

theorem decodeOrder_error_iff (o : Order) (encoded : CassInteger.Buffer) :
    (∃ message, o.decodeOrder encoded.data = .error message) ↔
      ∃ message, (readOrder o).run ⟨encoded.data, 0⟩ = .error message := by
  rw [run_readOrder, Order.decodeOrder]
  cases o.readOrder ⟨encoded.data, 0⟩ with
  | error e => exact iff_of_true ⟨e, rfl⟩ ⟨e, rfl⟩
  | ok r => exact iff_of_false (by rintro ⟨e, he⟩; cases he) (by rintro ⟨e, he⟩; cases he)

theorem decodeResult_error_iff (r : OrderResult) (encoded : CassInteger.Buffer) :
    (∃ message, r.decodeResult encoded.data = .error message) ↔
      ∃ message, (readResult r).run ⟨encoded.data, 0⟩ = .error message := by
  rw [run_readResult, OrderResult.decodeResult]
  cases r.readResult ⟨encoded.data, 0⟩ with
  | error e => exact iff_of_true ⟨e, rfl⟩ ⟨e, rfl⟩
  | ok r => exact iff_of_false (by rintro ⟨e, he⟩; cases he) (by rintro ⟨e, he⟩; cases he)

theorem orderBounded_iff (o : Order) (encoded : CassInteger.Buffer) :
    OrderBounded o encoded ↔ ¬HostileOrder encoded.data := by
  rw [OrderBounded, decodeOrder_error_iff, ← overruns_readOrder o (atRest_start encoded)]
  exact bounded_iff (readOrder o) (atRest_start encoded)

theorem resultBounded_iff (r : OrderResult) (encoded : CassInteger.Buffer) :
    ResultBounded r encoded ↔ ¬HostileBlobs encoded.data := by
  rw [ResultBounded, decodeResult_error_iff, ← overruns_readResult r (atRest_start encoded)]
  exact bounded_iff (readResult r) (atRest_start encoded)

/-- For every buffer, the reads of both decoders stay in bounds or throw unless, behind
blobs that are whole, all the others have the largest length, each of them starting on
the last byte of the length before it. -/
theorem decoders_bounded_iff (encoded : CassInteger.Buffer) :
    (∀ o, OrderBounded o encoded ↔ ¬HostileOrder encoded.data) ∧
      ∀ r, ResultBounded r encoded ↔ ¬HostileBlobs encoded.data :=
  ⟨fun o => orderBounded_iff o encoded, fun r => resultBounded_iff r encoded⟩

/-- A result with one blob, of the largest length and without bytes, is accepted. -/
theorem largest_length_accepted : ∃ encoded : CassInteger.Buffer, ¬ResultBounded {} encoded := by
  refine ⟨⟨[0, 1, 0xFF, 0xFF, 0xFF, 0xFF], by decide⟩, fun h => ?_⟩
  exact (resultBounded_iff _ _).mp h ⟨by decide, [], 1, [], le_rfl, by decide, rfl⟩

end Messages

end SnapCpp.DecoderBounds
