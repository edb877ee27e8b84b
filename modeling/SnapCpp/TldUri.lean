import SnapCpp.TldEmails
import SnapCpp.TldLookup

/-!
`tld()`, which finds the TLD of a domain in the tables, and `tld_check_uri()`, which checks
a whole URI first. A string is what stands before its NUL, and a pointer into a string is
the rest of the string from there, so that two pointers are compared by the lengths of
their rests. The domain of a URI is decoded in a buffer of its own; the place of its TLD
is added to the pointer to the host, which is still encoded.
-/
namespace SnapCpp.TldUri

open TldParser TldEmails TldLookup

section Tld

/-- `struct tld_info`, where `fTld` is a place in the string that was given. -/
structure Info where
  fCategory : Option Category := none
  fStatus : Option Status := none
  fCountry : Option ℕ := none
  fTld : Option ℕ := none
  fOffset : ℤ := -1
  deriving DecidableEq

/-- Two periods one after another at the end of `level_ptr`. -/
def adjacent (levelPtr : List ℕ) : Bool :=
  2 ≤ levelPtr.length &&
    levelPtr.getD (levelPtr.length - 2) 0 + 1 == levelPtr.getD (levelPtr.length - 1) 0

/-- The places of the last periods, as many as there are levels in the tables, or none
when two periods stand together. -/
def levelPtrs (tldMaxLevel : ℕ) : Bytes → ℕ → List ℕ → Option (List ℕ)
  | [], _, levelPtr => some levelPtr
  | c :: s, place, levelPtr =>
      if c = 0x2E then
        let levelPtr :=
          (if tldMaxLevel ≤ levelPtr.length then levelPtr.tail else levelPtr) ++ [place]
        if adjacent levelPtr then none else levelPtrs tldMaxLevel s (place + 1) levelPtr
      else levelPtrs tldMaxLevel s (place + 1) levelPtr

def between (uri : Bytes) (start stop : ℕ) : Bytes := (uri.take stop).drop start

variable (t : Written)

def searchBelow (p : ℕ) (label : Bytes) : Option ℕ :=
  match t.tldDescriptions[p]? with
  | some row => search t.tldDescriptions row.fStartOffset row.fEndOffset label
  | none => none

def descend (uri : Bytes) (levelPtr : List ℕ) : ℕ → ℕ → ℕ × ℕ
  | 0, p => (p, 0)
  | level + 1, p =>
      if (t.tldDescriptions[p]?).map TldDescription.fStartOffset = some ushrtMax then (p, level + 1)
      else
        match searchBelow t p
          (between uri (levelPtr.getD level 0 + 1) (levelPtr.getD (level + 1) 0)) with
        | none => (p, level + 1)
        | some r => descend uri levelPtr level r

/-- The name that is found, and its level in `level_ptr`. At level 0, the label in front
may be that of an exception. -/
def find (uri : Bytes) (levelPtr : List ℕ) (r : ℕ) : ℕ × ℕ :=
  match descend t uri levelPtr (levelPtr.length - 1) r with
  | (p, 0) => ((searchBelow t p (uri.take (levelPtr.getD 0 0))).getD p, 0)
  | found => found

def resolve (levelPtr : List ℕ) (p level : ℕ) : Option (ℕ × ℤ × Option Status × TldResult) := do
  let row ← t.tldDescriptions[p]?
  if row.fStatus = some .exception then
    let p := row.fExceptionApplyTo
    let row ← t.tldDescriptions[p]?
    return (p, levelPtr.length - row.fExceptionLevel, some .valid, .success)
  else
    return (p, level, row.fStatus, if row.fStatus = some .valid then .success else .invalid)

/-- `tld()`; there is no result when it goes beyond the tables or beyond `level_ptr`. -/
def tld (uri : Bytes) : Option (TldResult × Info) :=
  if uri = [] then some (.null, {})
  else
    match levelPtrs t.tldMaxLevel uri 0 [] with
    | none => some (.badUri, {})
    | some [] => some (.noTld, {})
    | some levelPtr =>
        let last := levelPtr.getD (levelPtr.length - 1) 0
        match search t.tldDescriptions t.tldStartOffset t.tldEndOffset (uri.drop (last + 1)) with
        | none => some (.notFound, {})
        | some r => do
            let (p, level) := find t uri levelPtr r
            let (p, level, fStatus, result) ← resolve t levelPtr p level
            let row ← t.tldDescriptions[p]?
            let place ← if 0 ≤ level then levelPtr[level.toNat]? else none
            return (result, {
              fCategory := row.fCategory
              fStatus
              fCountry := row.fCountry
              fTld := some place
              fOffset := place })

end Tld

def isProtocol (c : UInt8) : Bool :=
  (0x61 ≤ c && c ≤ 0x7A) || (0x41 ≤ c && c ≤ 0x5A) || (0x30 ≤ c && c ≤ 0x39) || c == 0x5F

def skipProtocol : Bytes → Option Bytes
  | [] => some []
  | c :: s => if c = 0x3A then some (c :: s) else if isProtocol c then skipProtocol s else none

def tolower (c : UInt8) : UInt8 := if 0x41 ≤ c && c ≤ 0x5A then c + 0x20 else c

/-- `strncasecmp() == 0`. -/
def strncasecmp : ℕ → Bytes → Bytes → Bool
  | 0, _, _ => true
  | _ + 1, [], [] => true
  | n + 1, c :: s, d :: s' => tolower c == tolower d && strncasecmp n s s'
  | _ + 1, _, _ => false

def ends (q : Bytes) : Bool := q.head? == none || q.head? == some 0x2C

def protocolValid (p : Bytes) (protocolLength : ℕ) : ℕ → Bytes → Bool
  | 0, _ => false
  | _ + 1, [] => false
  | turns + 1, d :: q =>
      if d = 0x2A && ends q then true
      else if tolower d == tolower (p.headD 0) && strncasecmp protocolLength p (d :: q) &&
          ends ((d :: q).drop protocolLength) then true
      else protocolValid p protocolLength turns
        (((d :: q).dropWhile (· ≠ 0x2C)).dropWhile (· = 0x2C))

section Scan

variable (flags : Int32)

def asciiOnly : Bool := flags &&& 1 ≠ 0

def noSpaces : Bool := flags &&& 2 ≠ 0

def isHighDigit (c : UInt8) : Bool :=
  (0x32 ≤ c && c ≤ 0x39) || (0x61 ≤ c && c ≤ 0x66) || (0x41 ≤ c && c ≤ 0x46)

def isLowDigit (c : UInt8) : Bool :=
  (0x30 ≤ c && c ≤ 0x39) || (0x61 ≤ c && c ≤ 0x66) || (0x41 ≤ c && c ≤ 0x46)

def escapeValid (refuseSpace : Bool) (d e : UInt8) : Bool :=
  isHighDigit d && isLowDigit e && !(refuseSpace && d == 0x32 && e == 0x30) &&
    !(asciiOnly flags && 0x38 ≤ d)

/-- The loop over what stands before the first slash: the user name starts at `username`
if there is one, and `host` is where the host starts. -/
def scanDomain : Bytes → Option Bytes → Bytes → Option (Option Bytes × Bytes × Bytes)
  | [], username, host => some (username, host, [])
  | c :: uri, username, host =>
      if c = 0x2F then some (username, host, c :: uri)
      else if c < 0x20 then none
      else if c = 0x40 then
        if username.isSome then none else scanDomain uri (some host) uri
      else if 0x80 ≤ c then
        if asciiOnly flags then none else scanDomain uri username host
      else if c = 0x20 ∨ c = 0x2B then none
      else if c = 0x25 then
        match uri with
        | d :: e :: uri => if escapeValid flags true d e then scanDomain uri username host else none
        -- the NUL is no digit
        | _ => none
      else scanDomain uri username host

/-- The tests of the user name and the password, which end in front of `host`. -/
def userValid (username host : Bytes) : Bool :=
  let password := username.dropWhile fun c => c ≠ 0x40 && c ≠ 0x3A
  let passwordLength : ℤ := (password.length - 1) - (host.length + 1)
  let usernameLength : ℤ := username.length - password.length
  !(password.head? = some 0x3A && passwordLength ≤ 0) && !(usernameLength - 1 ≤ 0)

/-- Where the port starts, or the end of the domain at `uri`. -/
def portOf (uri : Bytes) : Bytes → Bytes
  | [] => []
  | c :: port => if c ≠ 0x3A && uri.length < (c :: port).length then portOf uri port else c :: port

/-- The digits of a port end at `uri`, and there is one. -/
def portValid (port uri : Bytes) : Bool :=
  match port with
  | 0x3A :: digits =>
      let n := digits.dropWhile fun c => 0x30 ≤ c && c ≤ 0x39
      n.length == uri.length && n.length != digits.length
  | _ => true

/-- The loop over the rest of the address, where `queryString` is where the name of a
variable starts. -/
def scanAddress : Bytes → Option Bytes → Bool → Bool
  | [], _, _ => true
  | c :: a, queryString, anchor =>
      if c < 0x20 then false
      else if c = 0x2B ∨ c = 0x20 then
        if noSpaces flags then false else scanAddress a queryString anchor
      else if c = 0x3F then scanAddress a (some a) anchor
      else if c = 0x26 ∧ anchor = false then
        if queryString = none then false else scanAddress a (some a) anchor
      else if c = 0x3D then
        if queryString.map List.length = some (c :: a).length then false
        else scanAddress a queryString anchor
      else if c = 0x23 then scanAddress a none true
      else if c = 0x25 then
        match a with
        | d :: e :: a =>
            if escapeValid flags (noSpaces flags) d e then
              scanAddress a queryString anchor else false
        -- the NUL is no digit
        | _ => false
      else if 0x80 ≤ c then
        if asciiOnly flags then false else scanAddress a queryString anchor
      else scanAddress a queryString anchor

end Scan

/-- How the checks before the call of `tld()` end: a character after the NUL is read, a
result is returned, or they pass, with the place of the host and the host. -/
inductive Checked
  | outside
  | returned (result : TldResult)
  | passed (start : ℕ) (host : Bytes)
  deriving DecidableEq

def checkDomain (flags : Int32) (p uri : Bytes) : Checked :=
  match scanDomain flags uri none uri with
  | none => .returned .badUri
  | some (username, host, uri) =>
      if username.any fun username => !userValid username host then .returned .badUri
      else
        let port := portOf uri host
        if !portValid port uri then .returned .badUri
        else if !scanAddress flags uri none false then .returned .badUri
        else
          let length := host.length - port.length
          if 256 ≤ length then .returned .badUri
          else if length = 0 then .returned .badUri
          else .passed (p.length - host.length) (host.take length)

/-- The checks of `tld_check_uri()` before the call of `tld()`. -/
def checkSyntax (protocols : Bytes) (flags : Int32) (p : Bytes) : Checked :=
  if p = [] then .returned .null
  else
    match skipProtocol p with
    | none => .returned .badUri
    | some uri =>
        if protocolValid p (p.length - uri.length) (protocols.length + 1) protocols then
          match uri with
          -- `uri[1]` is beyond the NUL
          | [] => .outside
          | _ :: 0x2F :: 0x2F :: uri => checkDomain flags p uri
          | _ => .returned .badUri
        else .returned .badUri

def h2d (c : UInt8) : ℕ :=
  if 0x61 ≤ c then c.toNat - 0x61 + 10 else if 0x41 ≤ c then c.toNat - 0x41 + 10 else c.toNat - 0x30

/-- The loop that decodes the domain. The checks leave no percent sign without digits. -/
def decodeDomain : Bytes → Bytes
  | 0x25 :: d :: e :: host => (h2d d * 16 + h2d e).toUInt8 :: decodeDomain host
  | c :: host => c :: decodeDomain host
  | [] => []

def tldCheckUri (t : Written) (protocols : Bytes) (flags : Int32) (uri : Bytes) :
    Option (TldResult × Info) :=
  match checkSyntax protocols flags uri with
  | .outside => none
  | .returned result => some (result, {})
  | .passed start host => do
      let (result, info) ← tld t (decodeDomain host)
      match info.fTld with
      | none => return (result, info)
      | some _ =>
          let place := start + info.fOffset.toNat
          return (result, { info with fTld := some place, fOffset := place })

end SnapCpp.TldUri
