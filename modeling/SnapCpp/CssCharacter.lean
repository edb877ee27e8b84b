import SnapCpp.Ensures

/-!
The characters of a style sheet: bytes read from a stream as UTF-8, the end of the line written in
any way as one newline, and the buffer in which characters are put back. A character that cannot be
decoded is read as U+FFFD, and so is a null byte. A `wide_char_t` is an integer.
-/
namespace SnapCpp.Css

/-- A `std::string`. -/
abbrev Bytes := List UInt8

/-- The code of a character. -/
instance coeCharInt : Coe Char ℤ := ⟨fun c => (c.toNat : ℤ)⟩

def eof : ℤ := -1

def replacement : ℤ := 0xFFFD

def isSpace (c : ℤ) : Bool := c = ' ' || c = '\t' || c = '\n'

def isNonPrintable (c : ℤ) : Bool :=
  c = 0x00 || c = 0x08 || c = 0x0B || (0x0E ≤ c && c ≤ 0x1F) || c = 0x7F || c = 0xFFFD

def isDigit (c : ℤ) : Bool := '0' ≤ c && c ≤ '9'

def isLetter (c : ℤ) : Bool := ('A' ≤ c && c ≤ 'Z') || ('a' ≤ c && c ≤ 'z')

def isHex (c : ℤ) : Bool := isDigit c || ('A' ≤ c && c ≤ 'F') || ('a' ≤ c && c ≤ 'f')

def isVariable (c : ℤ) : Bool := isDigit c || isLetter c || c = '-' || c = '_'

def isIdentifier (c : ℤ) : Bool := isDigit c || isLetter c || c = '-' || c = '_' || 0x80 ≤ c

def isStartIdentifier (c : ℤ) : Bool :=
  isLetter c || (0x80 ≤ c && c ≠ 0xFFFD) || c = '_'

def isHashCharacter (c : ℤ) : Bool :=
  isDigit c || isLetter c || c = '-' || c = '_' || (0x80 ≤ c && c ≠ 0xFFFD)

/-- `std::tolower()` in the C locale. -/
def toLower (c : ℤ) : ℤ := if 'A' ≤ c ∧ c ≤ 'Z' then c + 32 else c

inductive Error where
  | byteNotValid (c : UInt8)
  | notIntroducer (c : UInt8)
  | sequenceTooShort
  | sequenceInvalid
  | sequenceTooLong
  | tooManyFollowBytes
  | unexpectedByte (c : UInt8)
  | surrogate
  | notCharacter
  | planeNotCharacter
  | tooLargeToEncode
  | escapedNewline
  | escapedReplacement
  | escapedEof
  | escapeTooLarge
  | escapeZero
  | emptyIdentifier
  | invalidUrl
  | unclosedUrl
  | integerTooLarge
  | noDecimalDigit
  | fractionTooLarge
  | exponentTooLarge
  | emptyHash
  | unterminatedString
  | stringNewline
  | unclosedComment
  | rangeTooLarge
  | rangeOrder
  | invalidCharacter (c : ℤ)
deriving DecidableEq, Repr

inductive Warning where
  | doubleEqual
  | preservedComment
deriving DecidableEq, Repr

/-- `csspp_exception_logic`, where it is thrown; the last one is a loop of the model that was not
given enough turns. -/
inductive Throw where
  | ungetcRange
  | ungetcSpace
  | hexToDec
  | identifierStart
  | exponentDigit
  | outOfFuel
deriving DecidableEq, Repr

def isFollow (b : UInt8) : Bool := 0x80 ≤ b && b ≤ 0xBF

def sequence : ℕ → ℕ → Bytes → ℤ × List Error
  | wc, 0, [] => (wc, [])
  | _, 0, _ :: _ => (replacement, [.sequenceTooLong])
  | _, _ + 1, [] => (replacement, [.sequenceTooShort])
  | wc, count + 1, c :: s =>
      if c = 0 then (replacement, [.sequenceTooShort])
      else if !isFollow c then (replacement, [.sequenceInvalid])
      else sequence (wc * 64 + c.toNat % 64) count s

def mbtowc : Bytes → ℤ × List Error
  | [] => (0, [])
  | c :: s =>
      if c < 0x80 then (c.toNat, [])
      else if 0xF8 ≤ c then (replacement, [.byteNotValid c])
      else if 0xF0 ≤ c then sequence (c.toNat % 8) 3 s
      else if 0xE0 ≤ c then sequence (c.toNat % 16) 2 s
      else if 0xC0 ≤ c then sequence (c.toNat % 32) 1 s
      else (replacement, [.notIntroducer c])

/-- A character read from the stream, what is reported about it, and the bytes after it. -/
structure Reading where
  char : ℤ
  errors : List Error
  rest : Bytes
deriving DecidableEq

/-- The ends of lines and pages are newlines, and a null byte is not valid. -/
def Reading.normal (r : Reading) : Reading :=
  if r.char = '\r' then
    { r with char := '\n', rest := if r.rest.head? = some 10 then r.rest.tail else r.rest }
  else if r.char = 12 then { r with char := '\n' }
  else if r.char = 0 then { r with char := replacement }
  else r

/-- The part of `getc()` that reads the stream, from its first byte on. -/
def readChar (c : UInt8) (rest : Bytes) : Reading :=
  Reading.normal
    (if c < 0x80 then ⟨c.toNat, [], rest⟩
    else if 0xC0 ≤ c ∧ c < 0xFF then
      let follow := rest.takeWhile isFollow
      if 7 ≤ follow.length then ⟨replacement, [.tooManyFollowBytes], rest.dropWhile isFollow⟩
      else ⟨(mbtowc (c :: follow)).1, (mbtowc (c :: follow)).2, rest.dropWhile isFollow⟩
    else ⟨replacement, [.unexpectedByte c], rest.dropWhile isFollow⟩)

theorem length_normal (r : Reading) : r.normal.rest.length ≤ r.rest.length := by
  unfold Reading.normal
  split_ifs
  all_goals simp

theorem length_readChar (c : UInt8) (rest : Bytes) :
    (readChar c rest).rest.length ≤ rest.length := by
  have hdrop := List.length_dropWhile_le isFollow rest
  refine (length_normal _).trans ?_
  simp only []
  split_ifs
  · exact le_refl _
  · exact hdrop
  · exact hdrop
  · exact hdrop

def characters : Bytes → List (ℤ × List Error)
  | [] => []
  | c :: rest =>
      ((readChar c rest).char, (readChar c rest).errors) :: characters (readChar c rest).rest
termination_by bytes => bytes.length
decreasing_by exact Nat.lt_succ_of_le (length_readChar c rest)

/-- The bytes of `wctomb()`, and what is reported where there are none. -/
def encoding (wc : ℤ) : Bytes × List Error :=
  let n := wc.toNat
  if wc < 0 then ([], [.tooLargeToEncode])
  else if wc < 0x80 then ([n.toUInt8], [])
  else if wc < 0x800 then ([(n / 64 + 0xC0).toUInt8, (n % 64 + 0x80).toUInt8], [])
  else if wc < 0x10000 then
    if 0xD800 ≤ wc ∧ wc ≤ 0xDFFF then ([], [.surrogate])
    else if wc = 0xFFFE ∨ wc = 0xFFFF then ([], [.notCharacter])
    else ([(n / 4096 + 0xE0).toUInt8, (n / 64 % 64 + 0x80).toUInt8, (n % 64 + 0x80).toUInt8], [])
  else if wc < 0x110000 then
    if n % 65536 = 0xFFFE ∨ n % 65536 = 0xFFFF then ([], [.planeNotCharacter])
    else ([(n / 262144 + 0xF0).toUInt8, (n / 4096 % 64 + 0x80).toUInt8,
      (n / 64 % 64 + 0x80).toUInt8, (n % 64 + 0x80).toUInt8], [])
  else ([], [.tooLargeToEncode])

structure Lexer where
  fIn : Bytes
  /-- The last character first. -/
  fUngetc : List ℤ
  errors : List Error
  warnings : List Warning
deriving DecidableEq

def Lexer.start (bytes : Bytes) : Lexer := ⟨bytes, [], [], []⟩

abbrev Lex (A : Type) := StateT Lexer (Except Throw) A

def ungetSize : ℕ := 16

def report (e : Error) : Lex Unit := modify fun s => { s with errors := s.errors ++ [e] }

def warn (w : Warning) : Lex Unit := modify fun s => { s with warnings := s.warnings ++ [w] }

def getc : Lex ℤ := fun s =>
  match s.fUngetc, s.fIn with
  | c :: fUngetc, _ => .ok (if c = 0 then replacement else c, { s with fUngetc := fUngetc })
  | [], [] => .ok (eof, s)
  | [], b :: rest =>
      let r := readChar b rest
      .ok (r.char, { s with fIn := r.rest, errors := s.errors ++ r.errors })

def ungetc (c : ℤ) : Lex Unit := fun s =>
  if c = eof ∨ c = replacement then .ok ((), s)
  else if c < 0 ∨ 0x10FFFF < c then .error .ungetcRange
  else if ungetSize ≤ s.fUngetc.length then .error .ungetcSpace
  else .ok ((), { s with fUngetc := c :: s.fUngetc })

def hexToDec (c : ℤ) : Lex ℤ :=
  if isDigit c then pure (c - '0')
  else if 'A' ≤ c ∧ c ≤ 'F' then pure (c - 'A' + 10)
  else if 'a' ≤ c ∧ c ≤ 'f' then pure (c - 'a' + 10)
  else throw .hexToDec

def wctomb (wc : ℤ) : Lex Bytes := fun s =>
  .ok ((encoding wc).1, { s with errors := s.errors ++ (encoding wc).2 })

end SnapCpp.Css
