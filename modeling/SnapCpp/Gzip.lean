import Mathlib

/-!
The gzip compressor. zlib is a parameter; what the program does around it is to size the
buffers, and to decompress it takes the size from the last four bytes of the stream, as signed
characters put together in an `int`.
-/
namespace SnapCpp.Gzip

abbrev Bytes := List UInt8

/-- The members of zlib's `gz_header` that the program sets. -/
structure GzHeader where
  text : Bool
  time : ℕ
  os : ℕ
  comment : String
  deriving DecidableEq

/-- The functions of zlib in use. `deflate()` and `inflate()` with Z_FINISH tell whether they
ended with Z_STREAM_END, and what they put in the room they were given. -/
structure Zlib where
  deflateInit2 : ℕ → Bool
  deflateSetHeader : GzHeader → Bool
  deflateBound : ℕ → ℕ
  deflate : ℕ → GzHeader → Bytes → ℕ → Bool × Bytes
  inflateInit2 : Bool
  inflate : Bytes → ℕ → Bool × Bytes

/-- The size of an array after `resize()` with an `int`; a negative one empties it. -/
def resized (size : BitVec 32) : ℕ := size.toInt.toNat

def boundLevel (level min max : ℕ) : ℕ :=
  if level < min then min else if level > max then max else level

def zlibLevel (level : ℤ) : ℕ :=
  let level := if level < 0 then 0 else if level > 100 then 100 else level.toNat
  boundLevel ((level * 2 + 25) / 25) 1 9

/-- The gzip stream `compress()` produces, none when some step of zlib fails. -/
def stream (z : Zlib) (time : ℕ) (input : Bytes) (level : ℤ) (text : Bool) : Option Bytes :=
  let header : GzHeader := { text, time, os := 3, comment := "Snap! Websites" }
  if !z.deflateInit2 (zlibLevel level) then none
  else if !z.deflateSetHeader header then none
  else
    let room := resized (BitVec.ofNat 32 (z.deflateBound input.length))
    let result := z.deflate (zlibLevel level) header input room
    if result.1 then some result.2 else none

/-- `gzip_t::compress()`: its input as it is when that fails. -/
def compress (z : Zlib) (time : ℕ) (input : Bytes) (level : ℤ) (text : Bool) : Bytes :=
  (stream z time input level text).getD input

/-- `input[avail_in - back]` as an `int`; `char` is signed. -/
def charFromEnd (input : Bytes) (back : ℕ) : Option (BitVec 32) := do
  guard (back ≤ input.length)
  let c ← input[input.length - back]?
  return c.toBitVec.signExtend 32

/-- The size saved in the last 4 bytes in little endian, as `resize()` gets it: through `size_t`
and back the `int` is the same. -/
def uncompressedSize (input : Bytes) : Option (BitVec 32) := do
  let b₀ ← charFromEnd input 4
  let b₁ ← charFromEnd input 3
  let b₂ ← charFromEnd input 2
  let b₃ ← charFromEnd input 1
  let size : BitVec 64 := (b₀ ||| (b₁ <<< 8) ||| (b₂ <<< 16) ||| (b₃ <<< 24)).signExtend 64
  return size.setWidth 32

/-- `gzip_t::decompress()`; none when a byte outside of the input is read. What `inflate()` does
not fill of the result is unspecified, here zeros. -/
def decompress (z : Zlib) (input : Bytes) : Option Bytes :=
  if !z.inflateInit2 then some input
  else do
    let room := resized (← uncompressedSize input)
    let result := z.inflate input room
    if result.1 then
      return result.2 ++ List.replicate (room - result.2.length) 0
    else
      return input

def littleEndian (n : ℕ) : Bytes :=
  [UInt8.ofNat n, UInt8.ofNat (n / 256), UInt8.ofNat (n / 65536), UInt8.ofNat (n / 16777216)]

structure Zlib.Lawful (z : Zlib) : Prop where
  inflateInit2 : z.inflateInit2 = true
  size : ∀ {level header input room out}, z.deflate level header input room = (true, out) →
    ∃ front, out = front ++ littleEndian input.length
  inflate : ∀ {level header input room out room'}, z.deflate level header input room = (true, out) →
    input ≠ [] → input.length ≤ room' → z.inflate out room' = (true, input)
  short : ∀ {level header input room out room'}, z.deflate level header input room = (true, out) →
    room' < input.length → (z.inflate out room').1 = false

def signedBytes (n : BitVec 32) : BitVec 32 :=
  (n.extractLsb' 0 8).signExtend 32 ||| ((n.extractLsb' 8 8).signExtend 32 <<< 8) |||
    ((n.extractLsb' 16 8).signExtend 32 <<< 16) ||| ((n.extractLsb' 24 8).signExtend 32 <<< 24)

theorem getLsbD_signedByte (n : BitVec 32) (start : ℕ) {i : ℕ} (hi : i < 32) :
    ((n.extractLsb' start 8).signExtend 32).getLsbD i =
      if i < 8 then n.getLsbD (start + i) else n.getLsbD (start + 7) := by
  rw [BitVec.getLsbD_signExtend, BitVec.msb_eq_getLsbD_last]
  simp only [hi, decide_true, Bool.true_and, BitVec.getLsbD_extractLsb']
  split_ifs with hlow
  · simp [hlow]
  · simp

theorem signedBytes_eq (n : BitVec 32) (h₀ : n.getLsbD 7 = false) (h₁ : n.getLsbD 15 = false)
    (h₂ : n.getLsbD 23 = false) : signedBytes n = n := by
  apply BitVec.eq_of_getLsbD_eq
  intro i hi
  have hshift : ∀ k, i - k < 32 := by omega
  simp only [signedBytes, BitVec.getLsbD_or, BitVec.getLsbD_shiftLeft, hi, decide_true,
    Bool.true_and, getLsbD_signedByte n _ hi, getLsbD_signedByte n _ (hshift _)]
  grind

theorem signedBytes_msb (n : BitVec 32) : (signedBytes n).getLsbD 31 =
    (n.getLsbD 7 || n.getLsbD 15 || n.getLsbD 23 || n.getLsbD 31) := by
  simp only [signedBytes, BitVec.getLsbD_or, BitVec.getLsbD_shiftLeft]
  rw [getLsbD_signedByte n 0 (by omega), getLsbD_signedByte n 8 (by omega),
    getLsbD_signedByte n 16 (by omega), getLsbD_signedByte n 24 (by omega)]
  simp

theorem charFromEnd_append (front tail : Bytes) (back : ℕ) (h : back ≤ tail.length) :
    charFromEnd (front ++ tail) back =
      (tail[tail.length - back]?).map fun c => c.toBitVec.signExtend 32 := by
  have hplace : (front ++ tail).length - back = front.length + (tail.length - back) := by
    rw [List.length_append]
    omega
  have hback : back ≤ (front ++ tail).length := by
    rw [List.length_append]
    omega
  unfold charFromEnd
  rw [hplace, List.getElem?_append_right (by omega), Nat.add_sub_cancel_left]
  simp only [guard, hback, if_true]
  cases tail[tail.length - back]? <;> rfl

theorem toBitVec_byte (n start : ℕ) (h : start + 8 ≤ 32) :
    (UInt8.ofNat (n / 2 ^ start)).toBitVec = (BitVec.ofNat 32 n).extractLsb' start 8 := by
  apply BitVec.eq_of_getLsbD_eq
  intro i hi
  have hplace : start + i < 32 := by omega
  have hbyte : (UInt8.ofNat (n / 2 ^ start)).toBitVec = BitVec.ofNat 8 (n / 2 ^ start) := rfl
  rw [hbyte, BitVec.getLsbD_extractLsb', BitVec.getLsbD_ofNat, BitVec.getLsbD_ofNat,
    Nat.testBit_div_two_pow, Nat.add_comm i start]
  simp [hi, hplace]

theorem uncompressedSize_append (front : Bytes) (n : ℕ) :
    uncompressedSize (front ++ littleEndian n) = some (signedBytes (BitVec.ofNat 32 n)) := by
  have hsame : ∀ b : BitVec 32, (b.signExtend 64).setWidth 32 = b := by
    intro b
    apply BitVec.eq_of_getLsbD_eq
    intro i hi
    have hwide : i < 64 := by omega
    rw [BitVec.getLsbD_setWidth, BitVec.getLsbD_signExtend]
    simp [hi, hwide]
  have hlength : (littleEndian n).length = 4 := rfl
  have h₀ := toBitVec_byte n 0 (by omega)
  have h₁ := toBitVec_byte n 8 (by omega)
  have h₂ := toBitVec_byte n 16 (by omega)
  have h₃ := toBitVec_byte n 24 (by omega)
  simp only [Nat.pow_zero, Nat.div_one, Nat.reducePow] at h₀ h₁ h₂ h₃
  unfold uncompressedSize
  rw [charFromEnd_append front _ 4 (by omega), charFromEnd_append front _ 3 (by omega),
    charFromEnd_append front _ 2 (by omega), charFromEnd_append front _ 1 (by omega)]
  simp [littleEndian, h₀, h₁, h₂, h₃, hsame, signedBytes]

def SmallBytes (n : ℕ) : Prop := n % 256 < 128 ∧ n / 256 % 256 < 128 ∧ n / 65536 % 256 < 128

theorem getLsbD_ofNat_iff (n i : ℕ) (hi : i < 32) :
    (BitVec.ofNat 32 n).getLsbD i = false ↔ n / 2 ^ i % 2 = 0 := by
  rw [BitVec.getLsbD_ofNat, Nat.testBit_eq_decide_div_mod_eq]
  simp only [hi, decide_true, Bool.true_and, decide_eq_false_iff_not]
  omega

theorem smallBytes_iff (n : ℕ) : SmallBytes n ↔ (BitVec.ofNat 32 n).getLsbD 7 = false ∧
    (BitVec.ofNat 32 n).getLsbD 15 = false ∧ (BitVec.ofNat 32 n).getLsbD 23 = false := by
  rw [getLsbD_ofNat_iff n 7 (by omega), getLsbD_ofNat_iff n 15 (by omega),
    getLsbD_ofNat_iff n 23 (by omega)]
  unfold SmallBytes
  omega

theorem resized_of_small {n : ℕ} (hn : n < 2 ^ 31) (h : SmallBytes n) :
    resized (signedBytes (BitVec.ofNat 32 n)) = n := by
  obtain ⟨h₀, h₁, h₂⟩ := (smallBytes_iff n).mp h
  have hvalue : (BitVec.ofNat 32 n).toNat = n := by
    rw [BitVec.toNat_ofNat]
    omega
  rw [signedBytes_eq _ h₀ h₁ h₂, resized, BitVec.toInt_eq_toNat_of_lt (by omega), hvalue,
    Int.toNat_natCast]

theorem resized_of_not_small {n : ℕ} (h : ¬SmallBytes n) :
    resized (signedBytes (BitVec.ofNat 32 n)) = 0 := by
  have hsign : (signedBytes (BitVec.ofNat 32 n)).msb = true := by
    rw [BitVec.msb_eq_getLsbD_last]
    show (signedBytes (BitVec.ofNat 32 n)).getLsbD 31 = true
    rw [signedBytes_msb]
    rw [smallBytes_iff] at h
    grind
  have hneg := BitVec.toInt_neg_of_msb_true hsign
  unfold resized
  omega

section RoundTrip

variable {z : Zlib} {time : ℕ} {level : ℤ} {text : Bool} {x c : Bytes}

theorem deflate_of_stream (h : stream z time x level text = some c) :
    ∃ room, z.deflate (zlibLevel level)
      { text, time, os := 3, comment := "Snap! Websites" } x room = (true, c) := by
  unfold stream at h
  dsimp only at h
  split_ifs at h with hinit hheader hend
  exact ⟨_, Prod.ext hend (Option.some.inj h)⟩

theorem compress_of_stream (h : stream z time x level text = some c) :
    compress z time x level text = c := by
  rw [compress, h]
  rfl

theorem uncompressedSize_of_stream (hz : z.Lawful) (h : stream z time x level text = some c) :
    uncompressedSize c = some (signedBytes (BitVec.ofNat 32 x.length)) := by
  obtain ⟨room, hdeflate⟩ := deflate_of_stream h
  obtain ⟨front, rfl⟩ := hz.size hdeflate
  exact uncompressedSize_append front x.length

theorem decompress_of_small (hz : z.Lawful) (hx : x ≠ []) (hlt : x.length < 2 ^ 31)
    (h : stream z time x level text = some c) (hsize : SmallBytes x.length) :
    decompress z c = some x := by
  obtain ⟨room, hdeflate⟩ := deflate_of_stream h
  have hinflate := hz.inflate hdeflate hx (Nat.le_refl _)
  unfold decompress
  rw [uncompressedSize_of_stream hz h, hz.inflateInit2]
  simp [resized_of_small hlt hsize, hinflate]

/-- What was compressed is decompressed to what it was, and its size read back, exactly when
the low bytes of the size are no negative characters. -/
theorem decompress_compress_iff (hz : z.Lawful) (hx : x ≠ []) (hlt : x.length < 2 ^ 31)
    (h : stream z time x level text = some c) :
    (decompress z (compress z time x level text) = some x ∧
      uncompressedSize (compress z time x level text) = some (BitVec.ofNat 32 x.length)) ↔
    SmallBytes x.length := by
  rw [compress_of_stream h, uncompressedSize_of_stream hz h]
  constructor
  · rintro ⟨-, hread⟩
    by_contra hsize
    have hzero := resized_of_not_small hsize
    have hpos := List.length_pos_of_ne_nil hx
    have hvalue : (BitVec.ofNat 32 x.length).toNat = x.length := by
      rw [BitVec.toNat_ofNat]
      omega
    rw [Option.some.inj hread, resized, BitVec.toInt_eq_toNat_of_lt (by omega), hvalue,
      Int.toNat_natCast] at hzero
    omega
  · intro hsize
    obtain ⟨h₀, h₁, h₂⟩ := (smallBytes_iff x.length).mp hsize
    exact ⟨decompress_of_small hz hx hlt h hsize, by rw [signedBytes_eq _ h₀ h₁ h₂]⟩

end RoundTrip

section Sample

/-- Two texts with the streams zlib makes of them at level 9 for time 0. -/
def sampleStreams : List (Bytes × Bytes) :=
  [([0x61],
    [0x1F, 0x8B, 0x08, 0x10, 0x00, 0x00, 0x00, 0x00, 0x02, 0x03, 0x53, 0x6E, 0x61, 0x70, 0x21, 0x20,
     0x57, 0x65, 0x62, 0x73, 0x69, 0x74, 0x65, 0x73, 0x00, 0x4B, 0x04, 0x00, 0x43, 0xBE, 0xB7, 0xE8,
     0x01, 0x00, 0x00, 0x00]),
   (List.replicate 128 0x61,
    [0x1F, 0x8B, 0x08, 0x10, 0x00, 0x00, 0x00, 0x00, 0x02, 0x03, 0x53, 0x6E, 0x61, 0x70, 0x21, 0x20,
     0x57, 0x65, 0x62, 0x73, 0x69, 0x74, 0x65, 0x73, 0x00, 0x4B, 0x4C, 0x1C, 0x58, 0x00, 0x00, 0x8C,
     0x36, 0x2B, 0xF1, 0x80, 0x00, 0x00, 0x00])]

def sampleZlib : Zlib where
  deflateInit2 _ := true
  deflateSetHeader _ := true
  deflateBound n := n + (n + 7) / 8 + (n + 63) / 64 + 5 + 18 + 15
  deflate level header input room :=
    match sampleStreams.find? fun sample => sample.1 = input with
    | some sample =>
      if level = 9 ∧ header = { text := false, time := 0, os := 3, comment := "Snap! Websites" } ∧
          sample.2.length ≤ room then
        (true, sample.2)
      else
        (false, [])
    | none => (false, [])
  inflateInit2 := true
  inflate input room :=
    match sampleStreams.find? fun sample => sample.2 = input with
    | some sample =>
      if sample.1.length ≤ room then (true, sample.1) else (false, sample.1.take room)
    | none => (false, [])

theorem sampleZlib_deflate {level : ℕ} {header : GzHeader} {input out : Bytes} {room : ℕ}
    (h : sampleZlib.deflate level header input room = (true, out)) :
    (input, out) ∈ sampleStreams := by
  simp only [sampleZlib] at h
  cases hfind : sampleStreams.find? fun sample => sample.1 = input with
  | none =>
    rw [hfind] at h
    cases h
  | some sample =>
    rw [hfind] at h
    dsimp only at h
    split_ifs at h
    · have hmem := List.mem_of_find?_eq_some hfind
      have hinput : sample.1 = input := by simpa using List.find?_some hfind
      rw [← hinput, ← (Prod.mk.inj h).2]
      exact hmem
    · cases h

theorem sampleZlib_inflate {input out : Bytes} (h : (input, out) ∈ sampleStreams) (room : ℕ) :
    sampleZlib.inflate out room =
      if input.length ≤ room then (true, input) else (false, input.take room) := by
  have hfind : ∀ sample ∈ sampleStreams,
      (sampleStreams.find? fun other => other.2 = sample.2) = some sample := by decide
  show (match sampleStreams.find? fun other => other.2 = out with
    | some sample => _
    | none => _) = _
  rw [hfind _ h]

set_option maxRecDepth 20000 in
theorem sampleZlib_lawful : sampleZlib.Lawful where
  inflateInit2 := rfl
  size h := by
    have hsize : ∀ sample ∈ sampleStreams,
        sample.2.drop (sample.2.length - 4) = littleEndian sample.1.length := by
      decide
    have hmem := hsize _ (sampleZlib_deflate h)
    exact ⟨_, hmem ▸ (List.take_append_drop _ _).symm⟩
  inflate h _ hroom := by rw [sampleZlib_inflate (sampleZlib_deflate h), if_pos hroom]
  short h hroom := by rw [sampleZlib_inflate (sampleZlib_deflate h), if_neg (by omega)]

set_option maxRecDepth 20000 in
/-- A text of 128 bytes is returned still compressed. -/
theorem long_text_kept_compressed : ¬∀ (z : Zlib) (time : ℕ) (level : ℤ) (text : Bool)
    (x c : Bytes), z.Lawful → x ≠ [] → x.length < 2 ^ 31 → stream z time x level text = some c →
    decompress z (compress z time x level text) = some x := by
  intro h
  have hwrong : decompress sampleZlib
      (compress sampleZlib 0 (List.replicate 128 0x61) 100 false) ≠
        some (List.replicate 128 0x61) := by decide
  have hstream : stream sampleZlib 0 (List.replicate 128 0x61) 100 false =
      some (compress sampleZlib 0 (List.replicate 128 0x61) 100 false) := by decide
  exact hwrong (h sampleZlib 0 100 false _ _ sampleZlib_lawful (by simp) (by simp) hstream)

theorem decompress_compress_iff_letter :
    (decompress sampleZlib (compress sampleZlib 0 [0x61] 100 false) = some [0x61] ∧
      uncompressedSize (compress sampleZlib 0 [0x61] 100 false) = some (BitVec.ofNat 32 1)) ↔
    SmallBytes 1 :=
  decompress_compress_iff (z := sampleZlib) (x := [0x61]) sampleZlib_lawful (by decide) (by decide)
    rfl

end Sample

end SnapCpp.Gzip
