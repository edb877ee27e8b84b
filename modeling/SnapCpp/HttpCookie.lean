import SnapCpp.CassValue
import SnapCpp.PlaceMarkers

/-!
Cookies as `http_cookie` holds them and writes them in a Set-Cookie field. The constructor checks
the name, so that a cookie cannot have another one. The setters check their argument, or do not,
before or after they store it, and the header is written without a check.
-/
namespace SnapCpp.HttpCookie

open QString

abbrev Bytes := List UInt8

section Cookies

/-- The characters of `http_token`. -/
def tokenCharacters : QString :=
  ascii "!#$%&'*+-.0123456789ABCDEFGHIJKLMNOPQRSTUVWXYZ^_`abcdefghijklmnopqrstuvwxyz|~"

def isToken (c : UInt16) : Bool := 32 < c && c < 127 && c ∈ tokenCharacters

/-- A text is tested character by character. -/
scoped instance decidableAll (p : UInt16 → Bool) (text : QString) :
    Decidable (∀ c ∈ text, p c = true) :=
  @List.decidableBAll _ (fun c => p c = true) (fun _ => inferInstance) text

/-- What a cookie asks the snap child: the `core::cookie_domain` parameter of the website, its key,
and when the request started, in seconds and in microseconds. -/
structure SnapChild where
  cookieDomain : Bytes
  websiteKey : QString
  startTime : ℤ
  startDate : ℤ

/-- `QDateTime`, with the date in a header. -/
structure Dates (D : Type) where
  invalid : D
  fromMSecsSinceEpoch : ℤ → D
  isValid : D → Bool
  before : D → D → Bool
  toTime : D → ℤ
  toText : D → QString

structure Now (D : Type) where
  time : ℤ
  currentDate : ℤ
  currentDateTimeUtc : D

/-- `http_cookie`. -/
structure Cookie (D : Type) where
  fSnap : Option SnapChild := none
  fName : QString := []
  named : ∀ c ∈ fName, isToken c = true := by simp
  fValue : Bytes := []
  fDomain : QString := []
  fPath : QString := []
  fExpire : D
  fSecure : Bool := false
  fHttpOnly : Bool := false
  fComment : QString := []
  fCommentUrl : QString := []

/-- `http_cookie_parse_exception`. -/
abbrev Failure := QString

variable {D : Type} (dates : Dates D)

def unnamed : Cookie D := { fExpire := dates.invalid }

def initialDomain : Option SnapChild → QString
  | none => []
  | some snap => if snap.cookieDomain = [] then snap.websiteKey else Utf.fromUtf8 snap.cookieDomain

def create (snap : Option SnapChild) (name value : QString) : Except Failure (Cookie D) :=
  if name = [] then .error (ascii "the name of a cookie cannot be empty")
  else if h : ∀ c ∈ name, isToken c = true then
    if name.head? = some 36 then
      .error (ascii "cookie name cannot start with '$'; those are reserved by the HTTP protocol")
    else .ok {
      fSnap := snap
      fName := name
      named := h
      fValue := Utf.toUtf8 value
      fDomain := initialDomain snap
      fPath := ascii "/"
      fExpire := dates.invalid }
  else .error (PlaceMarkers.arg
    (ascii ("the name of a cookie must only include token compatible " ++
      "characters (offensive character: %1)")) ((name.find? fun c => !isToken c).toList))

end Cookies

section Setters

variable {D : Type} (dates : Dates D)

inductive Call (D : Type) where
  | setText (value : QString)
  | setValue (value : Bytes)
  | setDomain (domain : QString)
  | setPath (path : QString)
  | setDelete
  | setSession
  | setExpire (date : D) (now : Now D)
  | setExpireIn (seconds : ℤ) (now : Now D)
  | setSecure (secure : Bool)
  | setHttpOnly (httpOnly : Bool)
  | setComment (comment : QString)
  | setCommentUrl (commentUrl : QString)

def isDomainCharacter (c : UInt16) : Bool :=
  (65 ≤ c && c ≤ 90) || (97 ≤ c && c ≤ 122) || (48 ≤ c && c ≤ 57) || c == 46 || c == 45 || c == 95

def withoutPeriod (domain : QString) : QString :=
  if domain.head? = some 46 then domain.tail else domain

/-- `set_domain()`: an exception comes after the domain was stored. -/
def setDomain (domain : QString) (c : Cookie D) : Except Failure Unit × Cookie D :=
  let stored := { c with fDomain := withoutPeriod domain }
  if withoutPeriod domain = [] then
    (.error (ascii "the domain of a cookie cannot be empty"), stored)
  else if ∀ x ∈ withoutPeriod domain, isDomainCharacter x = true then (.ok (), stored)
  else (.error (ascii ("the domain of a cookie must only include domain name compatible " ++
    "characters")), stored)

/-- `QString::operator []`; there is a null character behind the end. -/
def charAt (s : QString) (i : ℕ) : UInt16 := s[i]?.getD 0

/-- The characters that `set_path()` does not throw at. -/
def isAccepted (c : UInt16) : Bool := !((c < 32 || 126 < c) && c != 44 && c != 59)

/-- `set_path()`: the characters that are looked at are those of the domain. -/
def setPath (path : QString) (c : Cookie D) : Except Failure Unit × Cookie D :=
  if ∀ i < path.length, isAccepted (charAt c.fDomain i) = true then
    (.ok (), { c with fPath := path })
  else
    (.error (ascii ("the path of a cookie must only include ASCII characters except controls, " ++
      "',' and ';'.")), c)

/-- `set_expire()`: a date that is more than a year away becomes the next day. -/
def expire (date : D) (now : Now D) (c : Cookie D) : D :=
  let seconds := dates.toTime date - (c.fSnap.elim now.time SnapChild.startTime)
  if seconds > 86400 * 365 then
    dates.fromMSecsSinceEpoch ((c.fSnap.elim now.currentDate SnapChild.startDate).tdiv 1000 +
      86400 * 1000)
  else date

/-- `set_expire_in()`. -/
def expireIn (seconds : ℤ) (now : Now D) (c : Cookie D) : D :=
  let seconds := if seconds > 86400 * 365 then 86400 * 365 else seconds
  dates.fromMSecsSinceEpoch ((c.fSnap.elim now.currentDate SnapChild.startDate).tdiv 1000 +
    seconds * 1000)

def Cookie.call (c : Cookie D) : Call D → Except Failure Unit × Cookie D
  | .setText value => (.ok (), { c with fValue := Utf.toUtf8 value })
  | .setValue value => (.ok (), { c with fValue := value })
  | .setDomain domain => setDomain domain c
  | .setPath path => setPath path c
  | .setDelete => (.ok (), { c with fExpire := dates.fromMSecsSinceEpoch 0 })
  | .setSession => (.ok (), { c with fExpire := dates.invalid })
  | .setExpire date now => (.ok (), { c with fExpire := expire dates date now c })
  | .setExpireIn seconds now => (.ok (), { c with fExpire := expireIn dates seconds now c })
  | .setSecure secure => (.ok (), { c with fSecure := secure })
  | .setHttpOnly httpOnly => (.ok (), { c with fHttpOnly := httpOnly })
  | .setComment comment => (.ok (), { c with fComment := comment })
  | .setCommentUrl commentUrl => (.ok (), { c with fCommentUrl := commentUrl })

end Setters

section Header

variable {D : Type} (dates : Dates D)

/-- The bytes that are written as they are; a byte from 0x80 on is a negative `char`. -/
def isOctet (b : UInt8) : Bool :=
  let c := b.toInt8.toInt
  c == 0x21 || (0x23 ≤ c && c ≤ 0x2B) || (0x2D ≤ c && c ≤ 0x3A) || (0x3C ≤ c && c ≤ 0x5B) ||
    (0x5D ≤ c && c ≤ 0x7E)

/-- A number in base 16 with two digits at least; a negative one is taken for an unsigned one of
64 bits. -/
def hexadecimal (n : ℤ) : QString :=
  if 0 ≤ n then hexDigits 2 n.toNat else hexDigits 16 (n % 2 ^ 64).toNat

def encodeByte (b : UInt8) : QString :=
  if isOctet b then [b.toUInt16] else PlaceMarkers.arg (ascii "%%%1") (hexadecimal b.toInt8.toInt)

def encodeValue (value : Bytes) : QString := value.flatMap encodeByte

inductive CookieType where
  | permanent
  | session
  | delete

def Cookie.getType (c : Cookie D) (now : Now D) : CookieType :=
  if dates.isValid c.fExpire = false then .session
  else if dates.before c.fExpire now.currentDateTimeUtc = true then .delete
  else .permanent

def number (n : ℤ) : QString := if n < 0 then 45 :: decimal n.natAbs else decimal n.natAbs

def expires (now : Now D) (c : Cookie D) : QString :=
  match c.getType dates now with
  | .permanent =>
      ascii "; Expires=" ++ dates.toText c.fExpire ++
        if dates.toTime c.fExpire - now.time > 0 then
          ascii "; Max-Age=" ++ number (dates.toTime c.fExpire - now.time)
        else []
  | .session => []
  | .delete => ascii "; Expires=Thu, 01-Jan-1970 00:00:01 GMT"

def part (name value : QString) : QString := if value = [] then [] else name ++ value

def quoted (name comment : QString) : QString :=
  if comment = [] then [] else name ++ 34 :: comment.filter (fun c => c != 34) ++ [34]

def flag (name : QString) (b : Bool) : QString := if b then name else []

def attributes (now : Now D) (c : Cookie D) : QString :=
  expires dates now c ++ part (ascii "; Domain=") c.fDomain ++
    part (ascii "; Path=") c.fPath ++ flag (ascii "; Secure") c.fSecure ++
    flag (ascii "; HttpOnly") c.fHttpOnly ++ quoted (ascii "; Comment=") c.fComment ++
    quoted (ascii "; CommentURL=") c.fCommentUrl

def toHttpHeader (now : Now D) (c : Cookie D) : QString :=
  ascii "Set-Cookie: " ++ c.fName ++ ascii "=" ++ encodeValue c.fValue ++ attributes dates now c

end Header

end SnapCpp.HttpCookie
