import SnapCpp.Utf

/-!
The byte buffers of `cassvalue/encoder.h`: numbers with their most significant
byte first, strings and blobs behind their length, and the limit of 64 MiB that
every append checks. An `Encoder` cannot hold more than that limit. What a writer
appends and what a reader consumes compose (`Writes`, `Reads`).
-/
namespace SnapCpp.CassValue

open Utf

/-- The data of a `QByteArray`. -/
abbrev Bytes := List UInt8

def bufferMaxSize : ℕ := 64 * 1024 * 1024

/-- `static_cast<char>(value)`. -/
def byte (value : ℤ) : UInt8 := UInt8.ofNat (value % 256).toNat

/-- The low bytes of a number, from `value >> 8 * (width - 1)` down to `value`. -/
def bigEndian : ℕ → ℤ → Bytes
  | 0, _ => []
  | width + 1, value => byte (value / 256 ^ width) :: bigEndian width value

/-- The bytes shifted to their places and joined with `|`. -/
def number (bytes : Bytes) : ℕ := bytes.foldl (fun n b => n * 256 + b.toNat) 0

/-- `QString::fromUtf8()` of a `QByteArray`: the text ends before the first zero byte. -/
def fromUtf8Array (b : Bytes) : QString := fromUtf8 (b.takeWhile (· ≠ 0))

def blobs (l : List Bytes) : Bytes := l.flatMap fun b => bigEndian 4 b.length ++ b

structure Encoder where
  fArray : Bytes
  bounded : fArray.length ≤ bufferMaxSize

abbrev Write := StateT Encoder (Except String)

namespace Encoder

def empty : Encoder := ⟨[], Nat.zero_le _⟩

/-- `cassvalue::appendBinaryValue()`, with its `checkBufferSize()`. -/
def append (value : Bytes) : Write Unit := fun e =>
  if h : e.fArray.length + value.length ≤ bufferMaxSize then
    .ok ((), ⟨e.fArray ++ value, by rw [List.length_append]; exact h⟩)
  else .error "resulting value is more than 67108864 bytes"

def appendSignedCharValue (value : ℤ) : Write Unit := append (bigEndian 1 value)

def appendUInt16Value (value : ℤ) : Write Unit := append (bigEndian 2 value)

def appendInt32Value (value : ℤ) : Write Unit := append (bigEndian 4 value)

def appendUInt32Value (value : ℤ) : Write Unit := appendInt32Value value

def appendInt64Value (value : ℤ) : Write Unit := append (bigEndian 8 value)

def appendP16StringValue (value : QString) : Write Unit :=
  if 64 * 1024 ≤ (toUtf8 value).length then throw "strings are limited to 64Kb"
  else do
    appendUInt16Value (toUtf8 value).length
    append (toUtf8 value)

def appendBinaryValue (value : Bytes) : Write Unit := do
  appendUInt32Value value.length
  append value

def size : Write ℕ := fun e => .ok (e.fArray.length, e)

def replaceUInt32Value (value : ℤ) (index : ℕ) : Write Unit := fun e =>
  if h : index + 4 ≤ e.fArray.length then
    .ok ((), ⟨e.fArray.take index ++ bigEndian 4 value ++ e.fArray.drop (index + 4), by
      have hlen : (bigEndian 4 value).length = 4 := rfl
      simp only [List.length_append, List.length_take, List.length_drop, hlen]
      have := e.bounded
      omega⟩)
  else .error "buffer too small for this int32Value"

/-- A field that is written only if `p`. -/
def optional (p : Prop) [Decidable p] (m : Write Unit) : Write Unit := if p then m else pure ()

def Writes (m : Write Unit) (bytes : Bytes) : Prop := m = append bytes

def Fails (m : Write Unit) : Prop := ∀ e, ∃ message, m e = .error message

end Encoder

structure Decoder where
  fArray : Bytes
  fIndex : ℤ

abbrev Read := StateT Decoder (Except String)

/-- `static_cast<unsigned int>(n)`. -/
def uint (n : ℤ) : ℤ := n % 2 ^ 32

namespace Decoder

/-- `f_index += n` in 32 bits. -/
def advance (d : Decoder) (n : ℤ) : Decoder := { d with fIndex := (d.fIndex + n).bmod (2 ^ 32) }

def fixedValue (width : ℕ) (message : ℕ → String) : Read Bytes := fun d =>
  if d.fArray.length < uint d.fIndex ∨ d.fArray.length < uint (d.fIndex + width) then
    .error (message d.fArray.length)
  else .ok ((d.fArray.drop d.fIndex.toNat).take width, d.advance width)

def signedCharValue : Read Int8 := do
  let b ← fixedValue 1 fun _ => "buffer too small for this signedCharValue"
  return Int8.ofInt (number b)

def uint16Value : Read ℕ := do
  let b ← fixedValue 2 fun _ => "buffer too small for this uint16Value"
  return number b

def int32Value : Read Int32 := do
  let b ← fixedValue 4 fun _ => "buffer too small for this int32Value"
  return Int32.ofInt (number b)

def uint32Value : Read ℕ := do
  let b ← fixedValue 4 fun _ => "buffer too small for this uint32Value"
  return number b

def int64Value : Read Int64 := do
  let b ← fixedValue 8 fun size => "buffer too small (" ++ toString size ++ ") for this int64Value"
  return Int64.ofInt (number b)

/-- `cassvalue::binaryValue()` at the current index: a size of -1 stands for
everything that is left. The index then moves by the unsigned `length`. -/
def rawValue (length : ℕ) : Read Bytes := fun d =>
  let size : ℤ := (length : ℤ).bmod (2 ^ 32)
  let size := if size = -1 then d.fArray.length - d.fIndex else size
  if d.fArray.length < uint d.fIndex ∨ d.fArray.length < uint size ∨
      d.fArray.length < uint (d.fIndex + size) then
    .error "buffer too small for this binaryValue() call"
  else .ok ((d.fArray.drop d.fIndex.toNat).take size.toNat, d.advance length)

def p16StringValue : Read QString := do
  let length ← uint16Value
  let b ← rawValue length
  return fromUtf8Array b

def binaryValue : Read Bytes := do
  let length ← uint32Value
  rawValue length

/-- The blobs that a counted loop of `push_back(decoder.binaryValue())` adds. -/
def binaryValues : ℕ → Read (List Bytes)
  | 0 => return []
  | count + 1 => do
      let b ← binaryValue
      let rest ← binaryValues count
      return b :: rest

/-- A field that is read only if `p`, with the value it has when it is not there. -/
def optional {α : Type} (p : Prop) [Decidable p] (m : Read α) (absent : α) : Read α :=
  if p then m else pure absent

/-- The decoder stands before `rest` in a buffer that a `QByteArray` can hold. -/
structure AtRest (d : Decoder) (rest : Bytes) : Prop where
  small : d.fArray.length < 2 ^ 31
  front : ∃ front, d.fArray = front ++ rest ∧ d.fIndex = front.length

def Reads {α : Type} (m : Read α) (bytes : Bytes) (a : α) : Prop :=
  ∀ d rest, AtRest d (bytes ++ rest) → ∃ d', m d = .ok (a, d') ∧ AtRest d' rest

end Decoder

@[simp] theorem length_bigEndian (width : ℕ) (value : ℤ) :
    (bigEndian width value).length = width := by
  induction width with
  | zero => rfl
  | succ width ih => rw [bigEndian, List.length_cons, ih]

theorem toNat_byte (value : ℤ) : ((byte value).toNat : ℤ) = value % 256 := by
  have hnn : 0 ≤ value % 256 := Int.emod_nonneg _ (by norm_num)
  have hlt : value % 256 < 256 := Int.emod_lt_of_pos _ (by norm_num)
  rw [byte, UInt8.toNat_ofNat', Nat.mod_eq_of_lt (by omega), Int.toNat_of_nonneg hnn]

theorem emod_pow_succ (value : ℤ) (width : ℕ) :
    value % 256 ^ (width + 1) = value / 256 ^ width % 256 * 256 ^ width + value % 256 ^ width := by
  have hdiv : value / (256 ^ width * 256) = value / 256 ^ width / 256 :=
    (Int.ediv_ediv_of_nonneg (by positivity)).symm
  rw [pow_succ, Int.emod_def value (256 ^ width * 256), hdiv, Int.emod_def value,
    Int.emod_def (value / 256 ^ width)]
  ring

/-- The bytes of a number start with those of what is left without its low bytes. -/
theorem bigEndian_add (width low : ℕ) (value : ℤ) :
    bigEndian (width + low) value = bigEndian width (value / 256 ^ low) ++ bigEndian low value := by
  induction width with
  | zero => rw [Nat.zero_add, bigEndian, List.nil_append]
  | succ width ih =>
    rw [show width + 1 + low = width + low + 1 by omega, bigEndian, bigEndian, ih,
      List.cons_append, Int.ediv_ediv_of_nonneg (by positivity), ← pow_add, Nat.add_comm low width]

theorem foldl_bigEndian (width : ℕ) (value : ℤ) (n : ℕ) :
    (((bigEndian width value).foldl (fun n b => n * 256 + b.toNat) n : ℕ) : ℤ) =
      n * 256 ^ width + value % 256 ^ width := by
  induction width generalizing n with
  | zero => simp [bigEndian]
  | succ width ih =>
    rw [bigEndian, List.foldl_cons, ih, emod_pow_succ]
    push_cast
    rw [toNat_byte]
    ring

theorem number_bigEndian (width : ℕ) (value : ℤ) :
    (number (bigEndian width value) : ℤ) = value % 256 ^ width := by
  rw [number, foldl_bigEndian]
  simp

theorem length_blobs (l : List Bytes) : (blobs l).length = (l.map fun b => 4 + b.length).sum := by
  simp only [blobs, List.length_flatMap, List.length_append, length_bigEndian]

theorem blobs_append (l l' : List Bytes) : blobs (l ++ l') = blobs l ++ blobs l' :=
  List.flatMap_append

theorem length_le_length_blobs {l : List Bytes} {b : Bytes} (h : b ∈ l) :
    b.length ≤ (blobs l).length := by
  rw [length_blobs]
  have hle := List.single_le_sum (fun _ _ => Nat.zero_le _) _
    (List.mem_map_of_mem (f := fun b : Bytes => 4 + b.length) h)
  omega

namespace Encoder

theorem append_nil : append [] = pure () := by
  funext e
  simp [append, e.bounded, pure, StateT.pure, Except.pure]

/-- Two appends are one: a limit that the first one hits is hit by both. -/
theorem append_bind (a b : Bytes) : (append a >>= fun _ => append b) = append (a ++ b) := by
  funext e
  simp only [bind, StateT.bind, append]
  by_cases ha : e.fArray.length + a.length ≤ bufferMaxSize
  · simp only [ha, dite_true, Except.bind, List.length_append, add_assoc, List.append_assoc]
  · have hab : ¬e.fArray.length + (a ++ b).length ≤ bufferMaxSize := by
      rw [List.length_append]
      omega
    simp only [ha, hab, dite_false, Except.bind]

namespace Writes

variable {m k : Write Unit} {a b : Bytes}

theorem bind (hm : Writes m a) (hk : Writes k b) : Writes (m >>= fun _ => k) (a ++ b) := by
  rw [Writes, hm, hk, append_bind]

theorem optional (p : Prop) [Decidable p] (hm : Writes m a) :
    Writes (Encoder.optional p m) (if p then a else []) := by
  rw [Encoder.optional]
  split_ifs
  · exact hm
  · exact append_nil.symm

theorem forM {α : Type} {f : α → Write Unit} {g : α → Bytes} (hf : ∀ a, Writes (f a) (g a))
    (l : List α) : Writes (l.forM f) (l.flatMap g) := by
  induction l with
  | nil => exact append_nil.symm
  | cons a l ih =>
    rw [List.flatMap_cons]
    exact (hf a).bind ih

theorem p16String {value : QString} (h : (toUtf8 value).length < 64 * 1024) :
    Writes (appendP16StringValue value)
      (bigEndian 2 (toUtf8 value).length ++ toUtf8 value) := by
  rw [appendP16StringValue, if_neg (Nat.not_le.mpr h)]
  exact bind rfl rfl

theorem binary (value : Bytes) :
    Writes (appendBinaryValue value) (bigEndian 4 value.length ++ value) :=
  bind rfl rfl

theorem binaries (l : List Bytes) : Writes (l.forM appendBinaryValue) (blobs l) := forM binary l

theorem run_empty (hm : Writes m a) (h : a.length ≤ bufferMaxSize) :
    m empty = .ok ((), ⟨a, h⟩) := by
  rw [hm, append, dif_pos (by simpa [empty] using h)]
  rfl

theorem run_empty_error (hm : Writes m a) (h : bufferMaxSize < a.length) :
    m empty = .error "resulting value is more than 67108864 bytes" := by
  rw [hm, append, dif_neg (by simpa [empty] using h)]

end Writes

theorem fails_p16String {value : QString} (h : 64 * 1024 ≤ (toUtf8 value).length) :
    Fails (appendP16StringValue value) := by
  intro e
  rw [appendP16StringValue, if_pos h]
  exact ⟨_, rfl⟩

theorem Fails.first {m : Write Unit} (hm : Fails m) (k : Unit → Write Unit) : Fails (m >>= k) := by
  intro e
  obtain ⟨message, he⟩ := hm e
  exact ⟨message, by simp only [Bind.bind, StateT.bind, he, Except.bind]⟩

theorem Fails.later {k : Write Unit} (hk : Fails k) (m : Write Unit) :
    Fails (m >>= fun _ => k) := by
  intro e
  cases he : m e with
  | error message => exact ⟨message, by simp only [Bind.bind, StateT.bind, he, Except.bind]⟩
  | ok r =>
    obtain ⟨message, hmessage⟩ := hk r.2
    refine ⟨message, ?_⟩
    rw [← hmessage]
    simp only [Bind.bind, StateT.bind, he, Except.bind]

end Encoder

namespace Decoder

variable {b : Bytes}

theorem AtRest.advanced {d : Decoder} {rest : Bytes} (h : AtRest d (b ++ rest)) :
    AtRest (d.advance b.length) rest := by
  obtain ⟨hsmall, front, harray, hindex⟩ := h
  refine ⟨hsmall, front ++ b, ?_, ?_⟩
  · rw [advance, harray, List.append_assoc]
  · have hlen := congrArg List.length harray
    simp only [List.length_append] at hlen
    rw [advance, hindex, List.length_append, Int.bmod_eq_of_le] <;> push_cast <;> omega

theorem AtRest.take {d : Decoder} {b rest : Bytes} (h : AtRest d (b ++ rest)) :
    (d.fArray.drop d.fIndex.toNat).take b.length = b := by
  obtain ⟨-, front, harray, hindex⟩ := h
  rw [hindex, Int.toNat_natCast, harray, List.drop_left, List.take_left]

/-- No index or size that the checks compare is beyond what the buffer has. -/
theorem AtRest.uint_le {d : Decoder} {rest : Bytes} (h : AtRest d (b ++ rest)) :
    uint d.fIndex ≤ d.fArray.length ∧ uint b.length ≤ d.fArray.length ∧
      uint (d.fIndex + b.length) ≤ d.fArray.length := by
  obtain ⟨hsmall, front, harray, hindex⟩ := h
  have hlen := congrArg List.length harray
  simp only [List.length_append] at hlen
  rw [hindex]
  unfold uint
  omega

/-- A reader started on a whole buffer. -/
theorem Reads.run {α : Type} {m : Read α} {a : α} (hm : Reads m b a) (rest : Bytes)
    (h : (b ++ rest).length < 2 ^ 31) : ∃ d, m ⟨b ++ rest, 0⟩ = .ok (a, d) := by
  obtain ⟨d, hd, -⟩ := hm ⟨b ++ rest, 0⟩ rest ⟨h, [], rfl, rfl⟩
  exact ⟨d, hd⟩

namespace Reads

variable {α β : Type} {a : α} {b : Bytes} {m : Read α}

theorem pure (a : α) : Reads (Pure.pure a) [] a := by
  intro d rest h
  exact ⟨d, rfl, h⟩

theorem bind {f : α → Read β} {e : Bytes} {c : β} (hm : Reads m b a)
    (hf : Reads (f a) e c) : Reads (m >>= f) (b ++ e) c := by
  intro d rest h
  rw [List.append_assoc] at h
  obtain ⟨d₁, hd₁, h₁⟩ := hm d _ h
  obtain ⟨d₂, hd₂, h₂⟩ := hf d₁ _ h₁
  refine ⟨d₂, ?_, h₂⟩
  rw [← hd₂]
  simp only [Bind.bind, StateT.bind, hd₁, Except.bind]

theorem map (hm : Reads m b a) (f : α → β) :
    Reads (do let a ← m; return f a) b (f a) := by
  have := hm.bind (f := fun a => Pure.pure (f a)) (pure (f a))
  rwa [List.append_nil] at this

theorem optional {p q : Prop} [Decidable p] [Decidable q] (hpq : p ↔ q) {absent : α}
    (hm : q → Reads m b a) (habsent : ¬q → absent = a) :
    Reads (Decoder.optional p m absent) (if q then b else []) a := by
  rw [Decoder.optional]
  by_cases hq : q
  · rw [if_pos (hpq.mpr hq), if_pos hq]
    exact hm hq
  · rw [if_neg fun hp => hq (hpq.mp hp), if_neg hq, habsent hq]
    exact pure a

theorem fixed (message : ℕ → String) (b : Bytes) : Reads (fixedValue b.length message) b b := by
  intro d rest h
  obtain ⟨hindex, -, hend⟩ := h.uint_le
  refine ⟨d.advance b.length, ?_, h.advanced⟩
  rw [fixedValue, if_neg (by omega), h.take]

theorem fixed_bigEndian (message : ℕ → String) (width : ℕ) (value : ℤ) :
    Reads (fixedValue width message) (bigEndian width value) (bigEndian width value) := by
  have := fixed message (bigEndian width value)
  rwa [length_bigEndian] at this

theorem signedChar (value : ℤ) : Reads signedCharValue (bigEndian 1 value) (Int8.ofInt value) := by
  have := (fixed_bigEndian (fun _ => "buffer too small for this signedCharValue") 1 value).map
    fun b => Int8.ofInt (number b)
  rwa [number_bigEndian, (Int8.ofInt_eq_iff_bmod_eq_toInt _ (Int8.ofInt value)).mpr] at this
  rw [Int8.toInt_ofInt]
  exact Int.emod_bmod _ _

theorem uint16_narrow (value : ℤ) :
    Reads uint16Value (bigEndian 2 value) (value % 2 ^ 16).toNat := by
  have := (fixed_bigEndian (fun _ => "buffer too small for this uint16Value") 2 value).map number
  have hval : number (bigEndian 2 value) = (value % 2 ^ 16).toNat := by
    have := number_bigEndian 2 value
    omega
  rwa [hval] at this

theorem uint16 (n : ℕ) : Reads uint16Value (bigEndian 2 n) (n % 2 ^ 16) := uint16_narrow n

theorem int32 (value : Int32) : Reads int32Value (bigEndian 4 value.toInt) value := by
  have := (fixed_bigEndian (fun _ => "buffer too small for this int32Value") 4 value.toInt).map
    fun b => Int32.ofInt (number b)
  rwa [number_bigEndian, (Int32.ofInt_eq_iff_bmod_eq_toInt _ value).mpr] at this
  exact (Int.emod_bmod _ _).trans value.toInt_bmod

theorem uint32 {n : ℕ} (hn : n < 2 ^ 32) : Reads uint32Value (bigEndian 4 n) n := by
  have := (fixed_bigEndian (fun _ => "buffer too small for this uint32Value") 4 n).map number
  have hval : number (bigEndian 4 n) = n := by
    have := number_bigEndian 4 n
    omega
  rwa [hval] at this

theorem int64 (value : Int64) : Reads int64Value (bigEndian 8 value.toInt) value := by
  have := (fixed_bigEndian (fun size => "buffer too small (" ++ toString size ++
    ") for this int64Value") 8 value.toInt).map fun b => Int64.ofInt (number b)
  rwa [number_bigEndian, (Int64.ofInt_eq_iff_bmod_eq_toInt _ value).mpr] at this
  exact (Int.emod_bmod _ _).trans value.toInt_bmod

theorem raw (b : Bytes) (hb : b.length < 2 ^ 31) : Reads (rawValue b.length) b b := by
  intro d rest h
  obtain ⟨hindex, hsize, hend⟩ := h.uint_le
  have hbmod : (b.length : ℤ).bmod (2 ^ 32) = b.length := Int.bmod_eq_of_le (by omega) (by omega)
  have hrest : (b.length : ℤ) ≠ -1 := by omega
  refine ⟨d.advance b.length, ?_, h.advanced⟩
  simp only [rawValue, hbmod, hrest, if_false]
  rw [if_neg (by omega), Int.toNat_natCast, h.take]

theorem p16String {value : QString} (h : (toUtf8 value).length < 64 * 1024) :
    Reads p16StringValue (bigEndian 2 (toUtf8 value).length ++ toUtf8 value)
      (fromUtf8Array (toUtf8 value)) := by
  have hlength := uint16 (toUtf8 value).length
  rw [Nat.mod_eq_of_lt (by omega)] at hlength
  exact hlength.bind ((raw _ (by omega)).map fromUtf8Array)

theorem binary (hb : b.length < 2 ^ 31) :
    Reads binaryValue (bigEndian 4 b.length ++ b) b :=
  (uint32 (by omega)).bind (raw b hb)

theorem binaries {l : List Bytes} (hl : ∀ b ∈ l, b.length < 2 ^ 31) :
    Reads (binaryValues l.length) (blobs l) l := by
  induction l with
  | nil => exact pure []
  | cons b l ih =>
    rw [blobs, List.flatMap_cons]
    refine (binary (hl b List.mem_cons_self)).bind ?_
    exact (ih fun c hc => hl c (List.mem_cons_of_mem b hc)).map (b :: ·)

end Reads

end Decoder

end SnapCpp.CassValue
