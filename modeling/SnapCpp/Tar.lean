import SnapCpp.Utf

/-!
The tar archiver. A file is appended as a header of 512 bytes, with its numbers in octal,
and its data padded to a multiple of 512; the next file is read by copying a header out
of the archive and taking the fields apart. Every access to a header is checked, as a header
is a vector of a size of its own.
-/
namespace SnapCpp.Tar

open Utf

abbrev Bytes := List UInt8

inductive FileType
  | regular
  | directory
  deriving DecidableEq

/-- `archiver_t::file_t` -/
structure File where
  fType : FileType
  fData : Bytes
  fFilename : QString
  fUser : QString
  fGroup : QString
  fUid : BitVec 32
  fGid : BitVec 32
  fMode : BitVec 32
  fMtime : BitVec 64
  deriving DecidableEq

/-- What a new `file_t` holds; its numbers are not initialized, here zero. -/
def newFile : File :=
  { fType := .regular, fData := [], fFilename := [], fUser := [], fGroup := [],
    fUid := 0, fGid := 0, fMode := 0, fMtime := 0 }

/-- The exceptions with their messages, and an access outside of a vector. -/
inductive TarError
  | notCompatible (message : String)
  | notSupported (message : String)
  | outOfRange
  deriving DecidableEq

/-- `header[i] = c` -/
def store (header : Bytes) (i : ℕ) (c : UInt8) : Except TarError Bytes :=
  if i < header.length then .ok (header.set i c) else .error .outOfRange

/-- `std::copy()` to `header.begin() + start`. -/
def copyTo (header : Bytes) (start : ℕ) (bytes : Bytes) : Except TarError Bytes :=
  if start + bytes.length ≤ header.length then
    .ok (header.take start ++ bytes ++ header.drop (start + bytes.length))
  else
    .error .outOfRange

def fillLeft (start : ℕ) (fill : UInt8) : ℕ → Bytes → Except TarError Bytes
  | 0, header => .ok header
  | length + 1, header => do
    let header ← store header (start + (length + 1)) fill
    fillLeft start fill length header

/-- `append_int()` at `&header[start]`: the digits go from `header[length]` down to `header[1]`. -/
def appendInt (start : ℕ) (base : ℤ) (fill : UInt8) : ℕ → ℤ → Bytes → Except TarError Bytes
  -- the unsigned length would wrap around
  | 0, _, _ => .error .outOfRange
  | length + 1, value, header => do
    let digit := UInt8.ofNat ((value.tmod base + 0x30) % 256).toNat
    let header ← store header (start + (length + 1)) digit
    if 0 < length ∧ value.tdiv base ≠ 0 then
      appendInt start base fill length (value.tdiv base) header
    else
      fillLeft start fill length header

/-- `read_int()` on the characters of a field; `char` is signed. -/
def readInt (base : BitVec 32) : BitVec 32 → Bytes → BitVec 32
  | result, [] => result
  | result, c :: rest =>
    if c = 0 ∨ c = 0x20 then result
    else readInt base (result * base + (c.toBitVec.signExtend 32 - 0x30)) rest

def field (header : Bytes) (start length : ℕ) : Bytes := (header.drop start).take length

def tarCheckSum (s : Bytes) : BitVec 32 :=
  (field s 0 148 ++ field s 156 356).foldl (fun result c => result + c.toBitVec.signExtend 32)
    (8 * 0x20)

def copyName (header : Bytes) (name : QString) (message : String) : Except TarError Bytes := do
  let utf8 := toUtf8 name
  if utf8.length > 32 then throw (.notCompatible message)
  copyTo header 265 utf8

def storeType (header : Bytes) (file : File) : Except TarError Bytes :=
  match file.fType with
  | .regular => do
    let header ← store header 156 0x30
    appendInt 124 8 0x30 11 file.fData.length header
  | .directory => do
    let header ← store header 156 0x35
    appendInt 124 8 0x30 11 0 header

def storeCheckSum (header : Bytes) : Except TarError Bytes := do
  let checksum := tarCheckSum header
  let header ← appendInt 148 8 0x30 (if 32767 < checksum.toNat then 7 else 6) checksum.toInt header
  store header 155 0x20

/-- The header `append_file()` makes. -/
def makeHeader (file : File) : Except TarError Bytes := do
  let header := List.replicate 512 0
  let header ← copyTo header 257 [0x75, 0x73, 0x74, 0x61, 0x72, 0x20]
  let header ← store header 263 0x20
  let header ← store header 264 0
  if file.fFilename.length > 100 then
    throw (.notCompatible
      "this file cannot be added to a tar archive at this point (filename too long)")
  let header ← copyTo header 0 (toUtf8 file.fFilename)
  let header ← appendInt 100 8 0x30 7 file.fMode.toInt header
  let header ← appendInt 108 8 0x30 7 file.fUid.toInt header
  let header ← appendInt 116 8 0x30 7 file.fGid.toInt header
  let header ← appendInt 136 8 0x30 11 (file.fMtime.setWidth 32).toInt header
  let header ← copyName header file.fUser
    "this file cannot be added to a tar archive at this point (user name too long)"
  let header ← copyName header file.fGroup
    "this file cannot be added to a tar archive at this point (group name too long)"
  let header ← storeType header file
  storeCheckSum header

def padding (size : ℕ) : Bytes :=
  if size % 512 ≠ 0 then List.replicate (512 - size % 512) 0 else []

def appendFile (fArchive : Bytes) (file : File) : Except TarError Bytes := do
  let header ← makeHeader file
  match file.fType with
  | .regular => return fArchive ++ header ++ file.fData ++ padding file.fData.length
  | .directory => return fArchive ++ header

/-- `QString::fromUtf8()` with `strnlen()`. -/
def cString (bytes : Bytes) : QString := fromUtf8 (bytes.takeWhile (· != 0))

def readFilename (header : Bytes) : QString :=
  let filename := cString (field header 0 100)
  if header.getD 345 0 ≠ 0 then
    let longPrefix := cString (field header 345 155)
    if longPrefix.getLast? = some QString.slash then longPrefix ++ filename
    else longPrefix ++ [QString.slash] ++ filename
  else
    filename

def readType (header : Bytes) : Except TarError FileType :=
  match header.getD 156 0 with
  | 0 | 0x30 => .ok .regular
  | 0x35 => .ok .directory
  | _ => .error (.notSupported
      "file in tarball not supported (we accept regular and directory files only)")

/-- What `next_file()` takes from a header whose magic code and checksum it has checked. -/
def readHeader (header : Bytes) (file : File) : Except TarError File := do
  let fType ← readType header
  return { file with
    fFilename := readFilename header
    fType
    fMode := readInt 8 0 (field header 100 8)
    fMtime := (readInt 8 0 (field header 136 12)).setWidth 64
    fUser := fromUtf8 (field header 265 32)
    fUid := readInt 8 0 (field header 108 8)
    fGroup := fromUtf8 (field header 297 32)
    fGid := readInt 8 0 (field header 116 8) }

/-- The data after a header at `fPos`, and where the next header is. -/
def readData (fArchive : Bytes) (fPos : ℕ) (header : Bytes) (file : File) :
    Except TarError (File × ℕ) := do
  let size := readInt 8 0 (field header 124 12)
  let totalSize := ((size + 511) &&& (-512)).toInt
  if (fPos : ℤ) + totalSize > fArchive.length then
    throw (.notSupported "file data not available (archive too small)")
  if fPos + size.toNat > fArchive.length then throw .outOfRange
  return ({ file with fData := field fArchive fPos size.toNat }, (fPos + totalSize).toNat)

def magic (header : Bytes) : Bool :=
  field header 257 5 = [0x75, 0x73, 0x74, 0x61, 0x72] ∧
    (header.getD 262 0 = 0x20 ∨ header.getD 262 0 = 0)

/-- `next_file()` at `fPos`: whether there was one, the file and the new position. -/
def nextFile (fArchive : Bytes) (fPos : ℕ) (file : File) : Except TarError (Bool × File × ℕ) := do
  if fPos + 512 > fArchive.length then return (false, file, fPos)
  -- `std::vector<char> header;` has no elements
  let header ← copyTo [] 0 (field fArchive fPos 512)
  if !magic header then
    if header.any (· != 0) then
      throw (.notCompatible s!"ustar magic code missing at position {fPos}")
    return (false, file, fPos + 512)
  if readInt 8 0 (field header 148 8) ≠ tarCheckSum header then
    throw (.notCompatible "ustar checksum code does not match what was expected")
  let file ← readHeader header file
  let fPos := fPos + 512
  match file.fType with
  | .regular =>
    let (file, fPos) ← readData fArchive fPos header file
    return (true, file, fPos)
  | .directory => return (true, file, fPos)

section Writing

def Makes (step : Except TarError Bytes) : Prop := ∃ out, step = .ok out ∧ out.length = 512

variable {header : Bytes} {start : ℕ}

theorem Makes.bind {step : Except TarError Bytes} {next : Bytes → Except TarError Bytes}
    (h : Makes step) (hnext : ∀ header, header.length = 512 → Makes (next header)) :
    Makes (step >>= next) := by
  obtain ⟨header, rfl, hlength⟩ := h
  exact hnext header hlength

theorem makes_store {i : ℕ} (c : UInt8) (hheader : header.length = 512) (hi : i < 512) :
    Makes (store header i c) :=
  ⟨_, if_pos (by omega), List.length_set.trans hheader⟩

theorem makes_copyTo {bytes : Bytes} (hheader : header.length = 512)
    (h : start + bytes.length ≤ 512) : Makes (copyTo header start bytes) := by
  refine ⟨_, if_pos (by omega), ?_⟩
  simp only [List.length_append, List.length_take, List.length_drop]
  omega

theorem makes_fillLeft (fill : UInt8) (length : ℕ) (hheader : header.length = 512)
    (h : start + length < 512) : Makes (fillLeft start fill length header) := by
  induction length generalizing header with
  | zero => exact ⟨header, rfl, hheader⟩
  | succ length ih =>
    rw [fillLeft]
    apply (makes_store fill hheader h).bind
    intro header hheader
    exact ih hheader (by omega)

theorem makes_appendInt (base : ℤ) (fill : UInt8) (length : ℕ) (value : ℤ)
    (hheader : header.length = 512) (hpos : 0 < length) (h : start + length < 512) :
    Makes (appendInt start base fill length value header) := by
  induction length generalizing header value with
  | zero => omega
  | succ length ih =>
    rw [appendInt]
    apply (makes_store _ hheader h).bind
    intro header hheader
    split_ifs with hmore
    · exact ih (value.tdiv base) hheader hmore.1 (by omega)
    · exact makes_fillLeft fill length hheader (by omega)

theorem makes_copyName {name : QString} (message : String) (hheader : header.length = 512)
    (hname : (toUtf8 name).length ≤ 32) : Makes (copyName header name message) := by
  unfold copyName
  dsimp only
  rw [if_neg (by omega)]
  exact makes_copyTo hheader (by omega)

theorem makes_storeType (file : File) (hheader : header.length = 512) :
    Makes (storeType header file) := by
  unfold storeType
  split
  · apply (makes_store _ hheader (by omega)).bind
    intro header hheader
    exact makes_appendInt _ _ _ _ hheader (by omega) (by omega)
  · apply (makes_store _ hheader (by omega)).bind
    intro header hheader
    exact makes_appendInt _ _ _ _ hheader (by omega) (by omega)

theorem makes_storeCheckSum (hheader : header.length = 512) : Makes (storeCheckSum header) := by
  unfold storeCheckSum
  dsimp only
  have hdigits : Makes (appendInt 148 8 0x30
      (if 32767 < (tarCheckSum header).toNat then 7 else 6) (tarCheckSum header).toInt header) := by
    split_ifs
    · exact makes_appendInt _ _ _ _ hheader (by omega) (by omega)
    · exact makes_appendInt _ _ _ _ hheader (by omega) (by omega)
  apply hdigits.bind
  intro header hheader
  exact makes_store _ hheader (by omega)

end Writing

/-- What a file must be to go into an archive: its names fit in their fields, its numbers in
their octal digits, and its data in an array. -/
structure Fits (file : File) : Prop where
  filename : (toUtf8 file.fFilename).length ≤ 100
  user : (toUtf8 file.fUser).length ≤ 32
  group : (toUtf8 file.fGroup).length ≤ 32
  uid : file.fUid.toNat < 8 ^ 7
  gid : file.fGid.toNat < 8 ^ 7
  mode : file.fMode.toNat < 8 ^ 7
  mtime : file.fMtime.toNat < 8 ^ 11
  data : file.fData.length < 2 ^ 31

section Archive

variable {file : File}

theorem utf8Char_length (c : Char) :
    1 ≤ (utf8Char c).length ∧ (0x10000 ≤ c.toNat → (utf8Char c).length = 4) := by
  unfold utf8Char
  split_ifs <;> simp <;> omega

theorem length_le_toUtf8 (s : QString) : s.length ≤ (toUtf8 s).length := by
  unfold toUtf8
  fun_induction chars s with
  | case1 => exact Nat.zero_le _
  | case2 u =>
    have := (utf8Char_length (unitChar u)).1
    simpa [utf8] using this
  | case3 u v rest hpair ih =>
    obtain ⟨hu, hv⟩ := Bool.and_eq_true_iff.mp hpair
    have hchar := (utf8Char_length (pairChar u v)).2 (pairChar_plane hu hv)
    simp only [utf8, List.flatMap_cons, List.length_append, List.length_cons] at ih ⊢
    omega
  | case4 u v rest hpair ih =>
    have := (utf8Char_length (unitChar u)).1
    simp only [utf8, List.flatMap_cons, List.length_append, List.length_cons] at ih ⊢
    omega

theorem makes_header (h : Fits file) : Makes (makeHeader file) := by
  have hname : file.fFilename.length ≤ 100 := (length_le_toUtf8 _).trans h.filename
  have hutf8 := h.filename
  unfold makeHeader
  apply (makes_copyTo List.length_replicate (by decide)).bind
  intro header hheader
  apply (makes_store _ hheader (by omega)).bind
  intro header hheader
  apply (makes_store _ hheader (by omega)).bind
  intro header hheader
  rw [if_neg (by omega)]
  apply (makes_copyTo hheader (by omega)).bind
  intro header hheader
  apply (makes_appendInt _ _ _ _ hheader (by omega) (by omega)).bind
  intro header hheader
  apply (makes_appendInt _ _ _ _ hheader (by omega) (by omega)).bind
  intro header hheader
  apply (makes_appendInt _ _ _ _ hheader (by omega) (by omega)).bind
  intro header hheader
  apply (makes_appendInt _ _ _ _ hheader (by omega) (by omega)).bind
  intro header hheader
  apply (makes_copyName _ hheader h.user).bind
  intro header hheader
  apply (makes_copyName _ hheader h.group).bind
  intro header hheader
  apply (makes_storeType file hheader).bind
  intro header hheader
  exact makes_storeCheckSum hheader

theorem appendFile_ok (fArchive : Bytes) (h : Fits file) :
    ∃ out, appendFile fArchive file = .ok out ∧ fArchive.length + 512 ≤ out.length := by
  obtain ⟨header, hheader, hlength⟩ := makes_header h
  unfold appendFile
  rw [hheader]
  simp only [bind, Except.bind]
  cases file.fType with
  | regular =>
    refine ⟨_, rfl, ?_⟩
    simp only [List.length_append]
    omega
  | directory =>
    refine ⟨_, rfl, ?_⟩
    rw [List.length_append]
    omega

theorem appendFiles_ok (files : List File) (fArchive : Bytes) (h : ∀ file ∈ files, Fits file) :
    ∃ out, files.foldlM appendFile fArchive = .ok out ∧
      fArchive.length + 512 * files.length ≤ out.length := by
  induction files generalizing fArchive with
  | nil => exact ⟨fArchive, rfl, by simp⟩
  | cons file rest ih =>
    obtain ⟨next, hnext, hlength⟩ := appendFile_ok fArchive (h file List.mem_cons_self)
    obtain ⟨out, hout, hrest⟩ := ih next (List.forall_mem_cons.mp h).2
    refine ⟨out, ?_, ?_⟩
    · rw [List.foldlM_cons, hnext]
      exact hout
    · rw [List.length_cons, Nat.mul_succ]
      calc fArchive.length + (512 * rest.length + 512)
          = fArchive.length + 512 + 512 * rest.length := by rw [Nat.add_right_comm, Nat.add_assoc]
        _ ≤ next.length + 512 * rest.length := Nat.add_le_add_right hlength _
        _ ≤ out.length := hrest

end Archive

def archived (file : File) : File :=
  match file.fType with
  | .regular => file
  | .directory => { file with fData := [] }

/-- The calls of `next_file()` from a position on give these files, then nothing. -/
def ReadsBack (fArchive : Bytes) : ℕ → List File → Prop
  | fPos, [] => ∃ file fPos', nextFile fArchive fPos newFile = .ok (false, file, fPos')
  | fPos, file :: rest => ∃ fPos',
      nextFile fArchive fPos newFile = .ok (true, archived file, fPos') ∧
        ReadsBack fArchive fPos' rest

def RoundTrips (files : List File) : Prop :=
  ∃ fArchive, files.foldlM appendFile [] = .ok fArchive ∧ ReadsBack fArchive 0 files

theorem nextFile_outOfRange {fArchive : Bytes} {fPos : ℕ} (file : File)
    (h : fPos + 512 ≤ fArchive.length) : nextFile fArchive fPos file = .error .outOfRange := by
  have hlength : (field fArchive fPos 512).length = 512 := by
    simp only [field, List.length_take, List.length_drop]
    omega
  have hcopy : copyTo [] 0 (field fArchive fPos 512) = .error .outOfRange :=
    if_neg (by simp [hlength])
  unfold nextFile
  rw [if_neg (by omega), hcopy]
  rfl

theorem not_roundTrips_cons (file : File) (rest : List File)
    (h : ∀ f ∈ file :: rest, Fits f) : ¬RoundTrips (file :: rest) := by
  rintro ⟨fArchive, happend, fPos, hnext, -⟩
  obtain ⟨out, hout, hlength⟩ := appendFiles_ok (file :: rest) [] h
  obtain rfl := Except.ok.inj (happend.symm.trans hout)
  rw [nextFile_outOfRange newFile (by simp at hlength; omega)] at hnext
  cases hnext

/-- No archive but the empty one is read back. -/
theorem roundTrips_iff (files : List File) (h : ∀ file ∈ files, Fits file) :
    RoundTrips files ↔ files = [] := by
  constructor
  · intro hround
    cases files with
    | nil => rfl
    | cons file rest => exact absurd hround (not_roundTrips_cons file rest h)
  · rintro rfl
    exact ⟨[], rfl, newFile, 0, rfl⟩

def sampleFile : File :=
  { newFile with
    fData := [0x78]
    fFilename := QString.ascii "a.txt"
    fUser := QString.ascii "root"
    fGroup := QString.ascii "root"
    fMode := 0o644 }

theorem sampleFile_fits : Fits sampleFile := by
  constructor <;> decide

/-- An archive of one small file is not read back. -/
theorem one_file_not_read :
    ¬∀ files : List File, (∀ file ∈ files, Fits file) → RoundTrips files := by
  intro h
  have hfits : ∀ file ∈ [sampleFile], Fits file := by
    intro file hfile
    rw [List.mem_singleton.mp hfile]
    exact sampleFile_fits
  exact not_roundTrips_cons sampleFile [] hfits (h [sampleFile] hfits)

theorem roundTrips_iff_sample : RoundTrips [sampleFile] ↔ [sampleFile] = [] :=
  roundTrips_iff [sampleFile] fun file hfile => by
    rw [List.mem_singleton.mp hfile]
    exact sampleFile_fits

section Numbers

variable {header out : Bytes} {start : ℕ}

end Numbers

end SnapCpp.Tar
