import Mathlib

/-!
The quoted-printable encoder and decoder. The encoder holds back one space or tab, as
none may end a line, remembers a carriage return whose line feed is still to
come, and counts the columns of the line; the decoder skips soft line breaks.
-/
namespace SnapCpp.QuotedPrintable

abbrev Bytes := List UInt8

/-- `QUOTED_PRINTABLE_FLAG_BINARY` -/
def flagBinary : BitVec 32 := 0x0001

/-- `QUOTED_PRINTABLE_FLAG_EDBIC` -/
def flagEdbic : BitVec 32 := 0x0002

/-- `QUOTED_PRINTABLE_FLAG_LFONLY` -/
def flagLfOnly : BitVec 32 := 0x0004

/-- `QUOTED_PRINTABLE_FLAG_NO_LONE_PERIOD` -/
def flagNoLonePeriod : BitVec 32 := 0x0008

def hasFlag (flags flag : BitVec 32) : Bool := flags &&& flag != 0

/-- A `char` as an `int`: bytes from 0x80 on are negative. -/
def charToInt (c : UInt8) : ℤ := if c < 0x80 then c.toNat else c.toNat - 256

/-- The members of the class `result` of `encode()`. -/
structure Encoder where
  fFlags : BitVec 32
  fBuffer : UInt8
  fResult : Bytes
  fLine : ℕ
  fCr : Bool

namespace Encoder

def toHex (c : ℤ) : UInt8 :=
  let digit := (c % 16).toNat
  if digit ≤ 9 then UInt8.ofNat (digit + 0x30) else UInt8.ofNat (digit + 0x41 - 10)

/-- The `=` at the end of a line that the decoder joins with the next one. -/
def softBreak (flags : BitVec 32) : Bytes :=
  if hasFlag flags flagLfOnly then [0x3D, 0x0A] else [0x3D, 0x0D, 0x0A]

def addSoftBreak (r : Encoder) : Encoder :=
  { r with fResult := r.fResult ++ softBreak r.fFlags, fLine := 0 }

def addByte (r : Encoder) (c : UInt8) : Encoder :=
  if c = 0x0A ∨ c = 0x0D then
    { r with
      fResult := if c ≠ 0x0D ∨ hasFlag r.fFlags flagLfOnly = false then r.fResult ++ [c]
        else r.fResult
      fLine := 0 }
  else
    let r := if 75 ≤ r.fLine then r.addSoftBreak else r
    { r with fResult := r.fResult ++ [c], fLine := r.fLine + 1 }

def addHex (r : Encoder) (c : ℤ) : Encoder :=
  let r := if 73 ≤ r.fLine then r.addSoftBreak else r
  ((r.addByte 0x3D).addByte (toHex (c / 16))).addByte (toHex c)

def addData (r : Encoder) (c : UInt8) : Encoder :=
  if c = 0x20 ∨ c = 0x09 then
    let r := if r.fBuffer ≠ 0 then r.addByte r.fBuffer else r
    { r with fBuffer := c }
  else if c = 0x0A ∧ r.fCr then
    { r with fCr := false }
  else
    let r := { r with fCr := decide (c = 0x0D) }
    if c = 0x0A ∨ c = 0x0D then
      let r := if r.fBuffer ≠ 0 then { r.addHex (charToInt r.fBuffer) with fBuffer := 0 } else r
      (r.addByte 0x0D).addByte 0x0A
    else
      let r := if r.fBuffer ≠ 0 then { r.addByte r.fBuffer with fBuffer := 0 } else r
      r.addByte c

end Encoder

/-- The cases of `encode_char()` that only FLAG_EDBIC writes in hexadecimal. -/
def edbicChars : Bytes :=
  [0x21, 0x22, 0x23, 0x24, 0x40, 0x5B, 0x5C, 0x5D, 0x5E, 0x60, 0x7B, 0x7C, 0x7D, 0x7E]

def encodeChar (flags : BitVec 32) (c : UInt8) : Bool :=
  if c ∈ [0x0A, 0x0D, 0x09, 0x20] then hasFlag flags flagBinary
  else if c = 0x3D then true
  else if c ∈ edbicChars then hasFlag flags flagEdbic
  else !(0x20 ≤ charToInt c && charToInt c ≤ 0x7E)

def atLineEnd : Bytes → Bool
  | [] => true
  | c :: _ => c == 0x0D || c == 0x0A

namespace Encoder

def addChar (r : Encoder) (c : UInt8) : Encoder :=
  if encodeChar r.fFlags c then r.addHex (charToInt c) else r.addData c

/-- One turn of the loop of `add_string()`: `*s` is `c` and the rest follows. -/
def addNext (r : Encoder) (c : UInt8) (rest : Bytes) : Encoder :=
  if hasFlag r.fFlags flagNoLonePeriod ∧ c = 0x2E ∧ atLineEnd rest ∧
      (r.fLine = 0 ∨ 75 ≤ r.fLine) then
    r.addHex 0x2E
  else
    r.addChar c

def addChars (r : Encoder) : Bytes → Encoder
  | [] => r
  | c :: rest => (r.addNext c rest).addChars rest

/-- The space or tab that is still held at the end of the text. -/
def finish (r : Encoder) : Encoder :=
  if r.fBuffer ≠ 0 then { r.addHex (charToInt r.fBuffer) with fBuffer := 0 } else r

def addString (r : Encoder) (s : Bytes) : Encoder :=
  ({ r with fBuffer := 0 }.addChars s).finish

end Encoder

/-- What `c_str()` shows of a string: the bytes before the first NUL. -/
def cStr (s : Bytes) : Bytes := s.takeWhile (· != 0)

def encode (input : Bytes) (flags : BitVec 32) : Bytes :=
  let r : Encoder :=
    { fFlags := flags, fBuffer := 0, fResult := [], fLine := 0, fCr := false }
  (r.addString (cStr input)).fResult

def fromHex (c : UInt8) : Option ℕ :=
  if 0x30 ≤ c ∧ c ≤ 0x39 then some (c.toNat - 0x30)
  else if 0x61 ≤ c ∧ c ≤ 0x66 then some (c.toNat - 0x61 + 10)
  else if 0x41 ≤ c ∧ c ≤ 0x46 then some (c.toNat - 0x41 + 10)
  else none

/-- The next byte that is not part of a soft line break, NUL at the end, and where
`f_str` then points. -/
def getByte : Bytes → UInt8 × Bytes
  | 0x3D :: 0x0D :: 0x0A :: str => getByte str
  | 0x3D :: 0x0D :: str => getByte str
  | 0x3D :: 0x0A :: str => getByte str
  | c :: str => (c, str)
  | [] => (0, [])

def getc (str : Bytes) : UInt8 × Bytes :=
  let first := getByte str
  if first.1 = 0x3D then
    let high := getByte first.2
    match fromHex high.1 with
    | none => (0x3F, high.2)
    | some p =>
      let low := getByte high.2
      match fromHex low.1 with
      | none => (0x3F, low.2)
      | some q => (UInt8.ofNat (p * 16 + q), low.2)
  else
    first

theorem getByte_length (str : Bytes) : (getByte str).2.length ≤ str.length := by
  fun_induction getByte str <;> simp_all <;> omega

theorem getByte_length_lt (str : Bytes) (h : (getByte str).1 ≠ 0) :
    (getByte str).2.length < str.length := by
  fun_induction getByte str <;> simp_all <;> omega

theorem getc_length_lt (str : Bytes) (h : (getc str).1 ≠ 0) :
    (getc str).2.length < str.length := by
  have hhigh := getByte_length (getByte str).2
  have hlow := getByte_length (getByte (getByte str).2).2
  unfold getc at h ⊢
  by_cases hequal : (getByte str).1 = 0x3D
  · have hfirst := getByte_length_lt str (by rw [hequal]; decide)
    simp only [hequal, if_true]
    split
    · show (getByte (getByte str).2).2.length < str.length
      omega
    · split
      · show (getByte (getByte (getByte str).2).2).2.length < str.length
        omega
      · show (getByte (getByte (getByte str).2).2).2.length < str.length
        omega
  · simp only [hequal, if_false] at h ⊢
    exact getByte_length_lt str h

def process (str : Bytes) : Bytes :=
  let c := getc str
  if _ : c.1 = 0 then [] else c.1 :: process c.2
termination_by str.length
decreasing_by exact getc_length_lt str ‹_›

theorem process_eq (str : Bytes) : process str =
    if (getc str).1 = 0 then [] else (getc str).1 :: process (getc str).2 := by
  rw [process]
  rfl

def decode (input : Bytes) : Bytes := process (cStr input)

end SnapCpp.QuotedPrintable
