import Mathlib

/-!
`tld_email_list` of libtld: a list of email addresses is cut at commas, colons and
semicolons by `parse_all_emails()`, each address is read by `tld_email_t::parse()`
and each group name by `parse_group()`. The loops of the three scanners are modes of
machines that take one byte at a time. A check that looks at the next byte is made
when that byte comes.
-/
namespace SnapCpp.TldEmails

/-- The data of a `std::string`. -/
abbrev Bytes := List UInt8

/-- `enum tld_result`. -/
inductive TldResult
  | success
  | invalid
  | null
  | noTld
  | badUri
  | notFound
  deriving DecidableEq, Repr

inductive Stop
  | returned (result : TldResult)
  | thrown (message : String)
  deriving DecidableEq, Repr

/-- The `std::logic_error` of a NUL in a place that was checked before. -/
def logicError (what checked : String) : Stop :=
  .thrown ("somehow we found a \\0 in " ++ what ++ " in tld_email_t which should not happen " ++
    "since it was already " ++ checked ++ " in tld_email_t::parse()")

/-- The bytes that the scanners tell apart. -/
inductive Kind
  | space
  | semicolon
  | colon
  | comma
  | quote
  | opening
  | closing
  | bracket
  | closeBracket
  | backslash
  | less
  | greater
  | atSign
  | dot
  | other
  deriving DecidableEq

def kind (b : UInt8) : Kind :=
  match Char.ofUInt8 b with
  | ' ' => .space
  | '\n' => .space
  | '\r' => .space
  | '\t' => .space
  | ';' => .semicolon
  | ':' => .colon
  | ',' => .comma
  | '"' => .quote
  | '(' => .opening
  | ')' => .closing
  | '[' => .bracket
  | ']' => .closeBracket
  | '\\' => .backslash
  | '<' => .less
  | '>' => .greater
  | '@' => .atSign
  | '.' => .dot
  | _ => .other

def isSpace (b : UInt8) : Bool := kind b = .space

/-- `trim()`, and the loops that look for the end of an element. -/
def trim (value : Bytes) : Bytes := value.rdropWhile isSpace

/-- `static_cast<unsigned char>(b) < ' '`. -/
def isControl (b : UInt8) : Bool := b < 0x20

/-- `is_quoted_char()`; a `char` is signed, so that the bytes of other than ASCII
characters compare below the space. -/
def isQuotedChar (b : UInt8) : Bool := b = 0x09 || 0x20 ≤ b && b < 0x80 && b ≠ 0x7F

def isAtomChar (b : UInt8) : Bool :=
  let c := Char.ofUInt8 b
  'A' ≤ c && c ≤ 'Z' || 'a' ≤ c && c ≤ 'z' || '0' ≤ c && c ≤ '9' ||
    c ∈ ['!', '#', '$', '%', '&', '\'', '*', '+', '-', '/', '=', '?', '^', '_', '\x60', '\x7b',
      '|', '\x7d', '~']

def ascii (s : String) : Bytes := s.toList.map Char.toUInt8

/-- `tld_email_t`. A group entry has a group only. -/
structure Email where
  fGroup : Bytes := []
  fOriginalEmail : Bytes := []
  fFullname : Bytes := []
  fUsername : Bytes := []
  fDomain : Bytes := []
  fEmailOnly : Bytes := []
  fCanonicalizedEmail : Bytes := []
  deriving DecidableEq, Repr

/-- The loop of `quote_string()` that adds the quotes. -/
def quoted (start close : UInt8) (escape : Bytes) (str : Bytes) : Bytes :=
  start :: str.flatMap (fun b => if b ∈ escape then [0x5C, b] else [b]) ++ [close]

/-- `quote_string()` for a name, a user or a domain: quotes only where a byte is
neither an atom character nor one of the extra ones. -/
def quoteUnlessAtoms (start close : UInt8) (extra escape : Bytes) (str : Bytes) : Bytes :=
  if str.all fun b => isAtomChar b || b ∈ extra then str else quoted start close escape str

/-- `quote_string(fullname, '"')`. -/
def quoteFullname (str : Bytes) : Bytes := quoteUnlessAtoms 0x22 0x22 [0x20, 0x09] [0x22] str

/-- `quote_string(username, '\'')`. -/
def quoteUsername (str : Bytes) : Bytes := quoteUnlessAtoms 0x22 0x22 [0x2E] [0x22] str

/-- `quote_string(domain, '[')`. -/
def quoteDomain (str : Bytes) : Bytes := quoteUnlessAtoms 0x5B 0x5D [0x2E] [] str

section Lowercase

variable (towlower : ℕ → ℕ)

def tldHex2dec (b : UInt8) : Option ℕ :=
  let c := Char.ofUInt8 b
  if '0' ≤ c ∧ c ≤ '9' then some (c.toNat - '0'.toNat)
  else if 'A' ≤ c ∧ c ≤ 'F' then some (c.toNat - 'A'.toNat + 10)
  else if 'a' ≤ c ∧ c ≤ 'f' then some (c.toNat - 'a'.toNat + 10)
  else none

def tldDec2hex (d : ℕ) : UInt8 :=
  if d < 10 then UInt8.ofNat (d + 0x30) else UInt8.ofNat (d - 10 + 0x41)

/-- `tld_byte_in()`: zero at the end of the string. -/
def tldByteIn : Bytes → Option (ℕ × Bytes)
  | [] => some (0, [])
  | 0x25 :: h :: l :: rest => do return ((← tldHex2dec h) * 16 + (← tldHex2dec l), rest)
  | 0x25 :: _ => none
  | b :: rest => some (b.toNat, rest)

/-- The bytes that `tld_byte_out()` does not convert. -/
def isPlainOut (b : UInt8) : Bool :=
  let c := Char.ofUInt8 b
  'A' ≤ c && c ≤ 'Z' || 'a' ≤ c && c ≤ 'z' || '0' ≤ c && c ≤ '9' ||
    c ∈ ['.', '-', '/', '_', '~', '!']

/-- `tld_byte_out()`, apart from the room in the buffer. -/
def tldByteOut (n : ℕ) : Bytes :=
  if isPlainOut (UInt8.ofNat n) then [UInt8.ofNat n]
  else [0x25, tldDec2hex (n / 16), tldDec2hex (n % 16)]

def tldFollowing : ℕ → ℕ → Bytes → Option (ℕ × Bytes)
  | 0, wc, s => some (wc, s)
  | count + 1, wc, s => do
      let (c, s) ← tldByteIn s
      if c < 0x80 ∨ 0xBF < c then none else tldFollowing count (wc * 64 + c % 64) s

/-- `tld_mbtowc()`: the next character in lowercase, zero at the end. -/
def tldMbtowc (s : Bytes) : Option (ℕ × Bytes) := do
  let (c, s) ← tldByteIn s
  if c < 0x80 then
    if 0x41 ≤ c ∧ c ≤ 0x5A then return (c + 0x20, s) else return (c, s)
  else if 0xF8 ≤ c then none
  else if 0xF0 ≤ c then do
    let (wc, s) ← tldFollowing 3 (c % 8) s
    return (towlower wc, s)
  else if 0xE0 ≤ c then do
    let (wc, s) ← tldFollowing 2 (c % 16) s
    return (towlower wc, s)
  else if 0xC0 ≤ c then do
    let (wc, s) ← tldFollowing 1 (c % 32) s
    return (towlower wc, s)
  else none

/-- `tld_wctomb()`, apart from the room in the buffer. -/
def tldWctomb (wc : ℕ) : Option Bytes :=
  if wc < 0x80 then some (tldByteOut wc)
  else if wc < 0x800 then some (tldByteOut (wc / 64 + 0xC0) ++ tldByteOut (wc % 64 + 0x80))
  else if wc < 0x10000 then
    if 0xD800 ≤ wc ∧ wc ≤ 0xDFFF ∨ wc = 0xFFFE ∨ wc = 0xFFFF then none
    else some (tldByteOut (wc / 4096 + 0xE0) ++ tldByteOut (wc / 64 % 64 + 0x80) ++
      tldByteOut (wc % 64 + 0x80))
  else if wc < 0x110000 then
    if wc % 0x10000 = 0xFFFE ∨ wc % 0x10000 = 0xFFFF then none
    else some (tldByteOut (wc / 262144 + 0xF0) ++ tldByteOut (wc / 4096 % 64 + 0x80) ++
      tldByteOut (wc / 64 % 64 + 0x80) ++ tldByteOut (wc % 64 + 0x80))
  else none

/-- The loop of `tld_domain_to_lowercase()`, with the room that is left in the
buffer. Every character takes a byte, so that as many turns as bytes are enough. -/
def lowercaseFrom : ℕ → ℕ → Bytes → Option Bytes
  | 0, _, _ => none
  | turns + 1, room, domain => do
      let (wc, domain) ← tldMbtowc towlower domain
      if wc = 0 then return []
      else
        let out ← tldWctomb wc
        if room < out.length then none
        else do
          let rest ← lowercaseFrom turns (room - out.length) domain
          return out ++ rest

def tldDomainToLowercase (domain : Bytes) : Option Bytes :=
  if domain = [] then none
  else lowercaseFrom towlower (domain.length + 1) (2 * domain.length) domain

end Lowercase

section Parse

/-- Where `tld_email_t::parse()` is. After a space, a dot or a closing quote the next
byte is still to be looked at. -/
inductive Mode
  | main
  | space
  | dot
  | quoted
  | quotedEscape
  | afterQuote
  | comment (count : ℕ)
  | commentEscape (count : ℕ)
  | literalStart
  | literalBody
  | literalEnd
  deriving DecidableEq, Repr

/-- The variables of `tld_email_t::parse()`. -/
structure Parser where
  mode : Mode := .main
  value : Bytes := []
  fullname : Bytes := []
  username : Bytes := []
  domain : Bytes := []
  hasAngle : Bool := false
  foundAt : Bool := false
  foundDot : Bool := false
  done : Bool := false
  deriving DecidableEq, Repr

namespace Parser

def invalid {α : Type} : Except Stop α := .error (.returned .invalid)

def null {α : Type} : Except Stop α := .error (.returned .null)

/-- `case '<'`. -/
def less (p : Parser) : Except Stop Parser :=
  if p.hasAngle || p.foundAt || p.foundDot || p.done then invalid
  else if trim p.value = [] then .ok { p with mode := .main, value := [], hasAngle := true }
  else .ok { p with mode := .main, fullname := trim p.value, value := [], hasAngle := true }

/-- `case '>'`. -/
def greater (p : Parser) : Except Stop Parser :=
  if !p.hasAngle || !p.foundAt || p.done then invalid
  else if p.domain = [] then
    if trim p.value = [] then null
    else .ok { p with
      mode := .main, domain := trim p.value, value := [], done := true, hasAngle := false }
  else if p.value ≠ [] then invalid
  else .ok { p with mode := .main, value := [], done := true, hasAngle := false }

/-- `case '@'`. -/
def atSign (p : Parser) : Except Stop Parser :=
  if p.foundAt || p.done then invalid
  else if trim p.value = [] then null
  else .ok { p with
    mode := .main, foundAt := true, foundDot := false, username := trim p.value, value := [] }

/-- `case '.'`, apart from the look at the next byte. -/
def dot (p : Parser) : Except Stop Parser :=
  if p.value = [] || p.value.getLast? = some 0x2E then invalid
  else .ok { p with mode := .dot, foundDot := true, value := p.value ++ [0x2E] }

/-- The switch of `tld_email_t::parse()`. -/
def mainStep (p : Parser) (b : UInt8) : Except Stop Parser :=
  match kind b with
  | .quote => if p.done then invalid else .ok { p with mode := .quoted }
  | .opening => .ok { p with mode := .comment 1 }
  | .bracket =>
      if !p.foundAt || p.done || p.value ≠ [] || p.domain ≠ [] then invalid
      else .ok { p with mode := .literalStart }
  | .less => p.less
  | .greater => p.greater
  | .atSign => p.atSign
  | .space =>
      .ok { p with mode := .space, value := if p.value = [] then [] else p.value ++ [0x20] }
  | .dot => p.dot
  | _ => if isAtomChar b then .ok { p with mode := .main, value := p.value ++ [b] } else invalid

def quotedByte (p : Parser) (b : UInt8) : Except Stop Parser :=
  if isControl b && b ≠ 0x09 || b = 0x7F then invalid
  else .ok { p with mode := .quoted, value := p.value ++ [b] }

def literalClose (p : Parser) : Except Stop Parser :=
  if p.value = [] then null else .ok { p with mode := .main, domain := p.value, value := [] }

def literalByte (p : Parser) (b : UInt8) : Except Stop Parser :=
  match kind b with
  | .bracket => null
  | .backslash => null
  | .closeBracket => p.literalClose
  | .space => .ok { p with mode := .literalEnd }
  | _ =>
      if isControl b || b = 0x7F then invalid
      else .ok { p with mode := .literalBody, value := p.value ++ [b] }

def step (p : Parser) (b : UInt8) : Except Stop Parser :=
  match p.mode with
  | .main => p.mainStep b
  | .space => if isSpace b then .ok p else p.mainStep b
  | .dot => if kind b = .atSign ∨ kind b = .greater then invalid else p.mainStep b
  | .afterQuote =>
      if b = 0x20 then .ok p
      else if kind b = .less ∨ kind b = .atSign then p.mainStep b
      else invalid
  | .quoted =>
      match kind b with
      | .quote => .ok { p with mode := .afterQuote }
      | .backslash => .ok { p with mode := .quotedEscape }
      | _ => p.quotedByte b
  | .quotedEscape => p.quotedByte b
  | .comment count =>
      match kind b with
      | .opening => .ok { p with mode := .comment (count + 1) }
      | .closing => .ok { p with mode := if count ≤ 1 then .main else .comment (count - 1) }
      | .space => .ok p
      | .backslash => .ok { p with mode := .commentEscape count }
      | _ => if isControl b then invalid else .ok p
  | .commentEscape count =>
      if isQuotedChar b then
        if isControl b then invalid else .ok { p with mode := .comment count }
      else .error (logicError "a comment quoted pair" "checked")
  | .literalStart => if isSpace b then .ok p else p.literalByte b
  | .literalBody => p.literalByte b
  | .literalEnd =>
      match kind b with
      | .closeBracket => p.literalClose
      | .space => .ok p
      | _ => null

/-- What the loops of `tld_email_t::parse()` do at the end of the string. -/
def atEnd (p : Parser) : Except Stop Parser :=
  match p.mode with
  | .quoted => .error (logicError "a quoted string" "checked validity")
  | .quotedEscape =>
      .error (logicError "a quoted string after a backslash" "checked validity")
  | .afterQuote => invalid
  | .comment _ => .error (logicError "a comment" "checked")
  | .commentEscape _ =>
      .error (logicError "a comment quoted pair" "checked")
  | .literalStart => .error (logicError "a literal domain" "checked")
  | .literalBody => .error (logicError "a literal domain" "checked")
  | .literalEnd => null
  | _ => .ok p

def lastDomain (p : Parser) : Except Stop Bytes :=
  if p.username = [] || p.hasAngle then null
  else if p.done then
    if p.value ≠ [] then invalid else .ok p.domain
  else if trim p.value = [] then
    if p.domain = [] then null else .ok p.domain
  else if p.domain ≠ [] then invalid
  else .ok (trim p.value)

end Parser

variable (towlower : ℕ → ℕ) (tld : Bytes → TldResult)

/-- `tld()`, which knows a null pointer and an empty string without its table. -/
def tldOf : Option Bytes → TldResult
  | none => .null
  | some [] => .null
  | some uri => tld uri

/-- The end of `tld_email_t::parse()`. -/
def makeEmail (group email fullname username domain : Bytes) : Except Stop Email :=
  let lowercase := tldDomainToLowercase towlower domain
  if tldOf tld lowercase ≠ .success then .error (.returned (tldOf tld lowercase))
  else if username.any isSpace || domain.any isSpace then .error (.returned .invalid)
  else
    let canonicalized := quoteUsername username ++ ascii "@" ++ quoteDomain (lowercase.getD [])
    .ok {
      fGroup := group
      fOriginalEmail := email
      fFullname := fullname
      fUsername := username
      fDomain := domain
      fEmailOnly := quoteUsername username ++ ascii "@" ++ quoteDomain domain
      fCanonicalizedEmail := if fullname = [] then canonicalized
        else quoteFullname fullname ++ ascii " <" ++ canonicalized ++ ascii ">" }

/-- `tld_email_t::parse()` of an entry that has its group. -/
def parseEmail (group email : Bytes) : Except Stop Email := do
  let p ← email.foldlM Parser.step {}
  let p ← p.atEnd
  let domain ← p.lastDomain
  makeEmail towlower tld group email p.fullname p.username domain

/-- Where `parse_group()` is. -/
inductive GroupMode
  | main
  | space
  | comment (count : ℕ)
  | commentEscape (count : ℕ)
  deriving DecidableEq, Repr

structure GroupParser where
  mode : GroupMode := .main
  g : Bytes := []
  deriving DecidableEq, Repr

namespace GroupParser

/-- The switch of `parse_group()`; quotes and brackets are bytes like others. -/
def mainStep (p : GroupParser) (b : UInt8) : Except Stop GroupParser :=
  match kind b with
  | .space => .ok { mode := .space, g := if p.g = [] then [] else p.g ++ [0x20] }
  | .opening => .ok { p with mode := .comment 1 }
  | _ =>
      if isControl b || b = 0x7F then .error (.returned .invalid)
      else .ok { mode := .main, g := p.g ++ [b] }

def step (p : GroupParser) (b : UInt8) : Except Stop GroupParser :=
  match p.mode with
  | .main => p.mainStep b
  | .space => if isSpace b then .ok p else p.mainStep b
  | .comment count =>
      match kind b with
      | .opening => .ok { p with mode := .comment (count + 1) }
      | .closing => .ok { p with mode := if count ≤ 1 then .main else .comment (count - 1) }
      | .backslash => .ok { p with mode := .commentEscape count }
      | _ => .ok p
  | .commentEscape count =>
      if isQuotedChar b then .ok { p with mode := .comment count }
      else .error (logicError "a comment" "checked")

def atEnd (p : GroupParser) : Except Stop Bytes :=
  match p.mode with
  | .comment _ => .error (logicError "a quoted string" "checked")
  | .commentEscape _ => .error (logicError "a comment" "checked")
  | _ => if p.g = [] then .error (.returned .invalid) else .ok p.g

end GroupParser

def parseGroup (group : Bytes) : Except Stop Bytes := do
  let p ← group.foldlM GroupParser.step {}
  p.atEnd

/-- Where `parse_all_emails()` is. -/
inductive SplitMode
  | main
  | quoted
  | quotedEscape
  | comment (count : ℕ)
  | commentEscape (count : ℕ)
  | literal
  deriving DecidableEq, Repr

/-- The variables of `parse_all_emails()`; `pending` is the text from `start` on. -/
structure Splitter where
  mode : SplitMode := .main
  pending : Bytes := []
  group : Bool := true
  fLastGroup : Bytes := []
  fEmailList : List Email := []
  deriving DecidableEq, Repr

namespace Splitter

def keep (st : Splitter) (mode : SplitMode) (b : UInt8) : Splitter :=
  { st with mode, pending := st.pending ++ [b] }

def flush (st : Splitter) : Except Stop Splitter :=
  if trim st.pending = [] then .ok { st with pending := [] }
  else do
    let email ← parseEmail towlower tld st.fLastGroup (trim st.pending)
    return { st with pending := [], fEmailList := st.fEmailList ++ [email] }

/-- `case ':'`. -/
def colon (st : Splitter) : Except Stop Splitter :=
  if !st.group then .error (.returned .invalid)
  else if trim st.pending = [] then .error (.returned .invalid)
  else do
    let g ← parseGroup (trim st.pending)
    return { st with
      pending := [], group := false, fLastGroup := g
      fEmailList := st.fEmailList ++ [({ fGroup := g } : Email)] }

/-- The switch of `parse_all_emails()`. -/
def mainStep (st : Splitter) (b : UInt8) : Except Stop Splitter :=
  match kind b with
  | .space => if st.pending = [] then .ok st else .ok (st.keep .main b)
  | .semicolon => do
      let st ← st.flush towlower tld
      return { st with fLastGroup := [], group := true }
  | .colon => st.colon
  | .comma => st.flush towlower tld
  | .quote => .ok (st.keep .quoted b)
  | .opening => .ok (st.keep (.comment 1) b)
  | .bracket => .ok (st.keep .literal b)
  | _ => .ok (st.keep .main b)

def step (st : Splitter) (b : UInt8) : Except Stop Splitter :=
  match st.mode with
  | .main => st.mainStep towlower tld b
  | .quoted =>
      match kind b with
      | .quote => .ok (st.keep .main b)
      | .backslash => .ok (st.keep .quotedEscape b)
      | _ => .ok (st.keep .quoted b)
  | .quotedEscape =>
      if isQuotedChar b then .ok (st.keep .quoted b) else .error (.returned .invalid)
  | .comment count =>
      match kind b with
      | .backslash => .ok (st.keep (.commentEscape count) b)
      | .opening => .ok (st.keep (.comment (count + 1)) b)
      | .closing => .ok (st.keep (if count ≤ 1 then .main else .comment (count - 1)) b)
      | _ => .ok (st.keep (.comment count) b)
  | .commentEscape count =>
      if isQuotedChar b then .ok (st.keep (.comment count) b) else .error (.returned .invalid)
  | .literal =>
      match kind b with
      | .closeBracket => .ok (st.keep .main b)
      | .bracket => .error (.returned .invalid)
      | .backslash => .error (.returned .invalid)
      | _ => .ok (st.keep .literal b)

/-- The end of `parse_all_emails()`, where only the main loop may be. -/
def atEnd (st : Splitter) : Except Stop (List Email) :=
  if st.mode ≠ .main then .error (.returned .invalid)
  else if !st.group then .error (.returned .invalid)
  else do
    let st ← st.flush towlower tld
    return st.fEmailList

end Splitter

/-- `parse_all_emails()` on the bytes of a C string. -/
def parseAllEmails (input : Bytes) : Except Stop (List Email) := do
  let st ← input.foldlM (Splitter.step towlower tld) {}
  st.atEnd towlower tld

/-- `tld_email_list::parse()`: the result and the list, or an exception. A C string
ends at its first NUL. -/
def parse (emails : Bytes) : Except String (TldResult × List Email) :=
  match parseAllEmails towlower tld (emails.takeWhile (· ≠ 0)) with
  | .ok list => .ok (.success, list)
  | .error (.returned result) => .ok (result, [])
  | .error (.thrown message) => .error message

end Parse

end SnapCpp.TldEmails
