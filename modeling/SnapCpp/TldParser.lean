import SnapCpp.OrderedMap
import SnapCpp.Utf

/-!
The tool of libtld that turns `tld_data.xml` into the table `tld_descriptions`. The
names are read into a map whose keys are the names from the right to the left, each
label with an exclamation mark behind it. The table is written from the deepest level
up, and each entry that is written moves the range of its parent. The tool ends at the
first error.
-/
namespace SnapCpp.TldParser

open QString Utf

inductive ParserError
  | emptyDocument
  | rootTag (tagName : QString)
  | noRoot
  | areaTag (tagName : QString)
  | countryTwice (country : QString)
  | controlCharacter (b : UInt8) (tld : QString)
  | notAllowed (b : UInt8)
  | levelTooLow (level : ℕ) (tld : QString)
  | levelTooHigh (level : ℕ) (tld : QString)
  | moreThanOnce (tld : QString)
  | moreThanOnceException (tld : QString)
  | moreThanOnceForbidden (tld : QString)
  | sectionTag (tagName : QString)
  | endingPeriod (tld : QString)
  | twoPeriods (tld : QString)
  | dashAfterPeriod (tld : QString)
  | noLeadingPeriod (tld : QString)
  | endingDash (tld : QString)
  | dashBeforePeriod (tld : QString)
  | notALetter (tld : QString) (c : UInt16)
  | unknownCategory (name : QString)
  | unknownReason (name : QString)
  | noParent (tld parent : QString)
  deriving DecidableEq, Repr

inductive Category
  | international
  | professionals
  | language
  | groups
  | region
  | technical
  | country
  | entrepreneurial
  | brand
  deriving DecidableEq, Repr

inductive Status
  | valid
  | proposed
  | deprecated
  | unused
  | reserved
  | infrastructure
  | exception
  deriving DecidableEq, Repr

def ushrtMax : ℕ := 65535

/-- `tld_info`. -/
structure TldInfo where
  fCategory : Option Category := none
  fReason : Option Status := none
  fCategoryName : QString := []
  fCountry : QString := []
  fLevel : ℕ := 0
  fTld : QString := []
  fInverted : QString := []
  fReasonName : QString := []
  fExceptionApplyTo : QString := []
  fOffset : ℕ := 0
  fStartOffset : ℕ := 0
  fEndOffset : ℕ := 0
  deriving DecidableEq, Repr

/-- `tld_info_map_t`. -/
abbrev TldInfoMap := OrderedMap QString TldInfo

/-- `country_map_t`. -/
abbrev CountryMap := OrderedMap QString ℕ

def bang : UInt16 := 0x21

def dot : UInt16 := 0x2E

/-- The bytes that `tld_encode()` takes as they are. -/
def isTaken (b : UInt8) : Bool :=
  0x41 ≤ b && b ≤ 0x5A || 0x61 ≤ b && b ≤ 0x7A || 0x30 ≤ b && b ≤ 0x39 || b = 0x2E || b = 0x2D

/-- A turn of the loop of `tld_encode()`. -/
def encodeByte (tld : QString) (b : UInt8) : Except ParserError QString :=
  if b < 0x20 then .error (.controlCharacter b tld)
  else if isTaken b then .ok [if b = 0x2E then bang else b.toUInt16]
  else if b = 0x2F ∨ b = 0x3A ∨ b = 0x26 then .error (.notAllowed b)
  else .ok (0x25 :: hexDigits 2 b.toNat)

/-- `split.join("!") + "!"`. -/
def joinBang (labels : List QString) : QString := [bang].intercalate labels ++ [bang]

/-- `tld_encode()`: the key of a name and its level. -/
def tldEncode (tld : QString) : Except ParserError (QString × ℕ) := do
  let bytes := toUtf8 tld
  let result ← bytes.mapM (encodeByte tld)
  let level := bytes.count 0x2E
  if level < 1 then .error (.levelTooLow level tld)
  else if 5 < level then .error (.levelTooHigh level tld)
  else
    let split := (result.flatten.splitOn bang).filter (· ≠ [])
    return (joinBang split.reverse, level)

/-- A `QDomNode`, as far as the tool looks at it. -/
inductive Node
  | characterData (data : QString)
  | comment
  | element (tagName : QString) (attributes : List (QString × QString)) (children : List Node)

/-- `QDomElement::attribute()`. -/
def attributeOf (attributes : List (QString × QString)) (name default : QString) : QString :=
  (attributes.lookup name).getD default

def nameList (text : QString) : List QString :=
  ((text.map fun c => if c = 0x0A ∨ c = 0x0D ∨ c = 0x09 then 0x20 else c).splitOn 0x20).filter
    (· ≠ [])

def childNames (children : List Node) : List QString :=
  children.flatMap fun
    | .characterData data => nameList data
    | _ => []

/-- A `tld_info` as it is read. -/
def newInfo (category country tld key : QString) (level : ℕ) : TldInfo where
  fCategoryName := category
  fCountry := country
  fLevel := level
  fTld := tld
  fInverted := key
  fStartOffset := ushrtMax
  fEndOffset := ushrtMax

def readName (category country : QString) (map : TldInfoMap) (nm : QString) :
    Except ParserError TldInfoMap := do
  let (key, level) ← tldEncode nm
  if map.Has key then .error (.moreThanOnce nm)
  else return map.insert key (newInfo category country nm key level)

/-- A name of an `exceptions` tag. -/
def readException (category country applyTo : QString) (map : TldInfoMap) (nm : QString) :
    Except ParserError TldInfoMap := do
  let (key, level) ← tldEncode nm
  if map.Has key then .error (.moreThanOnceException nm)
  else
    let info := newInfo category country nm key level
    return map.insert key { info with fExceptionApplyTo := applyTo }

def subName (key : QString) : QString := key ++ ascii "*!"

/-- A name of a `forbid` tag. One that is known stays as a wildcard below itself. -/
def readForbidden (category country reason : QString) (map : TldInfoMap) (nm : QString) :
    Except ParserError TldInfoMap := do
  let (key, level) ← tldEncode nm
  let info := newInfo category country nm key level
  let forbidden := { info with fReasonName := reason }
  match map.find? key with
  | none => return map.insert key forbidden
  | some old =>
      if old.fCategoryName ≠ category ∨ old.fCountry ≠ country ∨ old.fLevel ≠ level then
        .error (.moreThanOnceForbidden nm)
      else
        let sub := { old with
          fLevel := old.fLevel + 1, fInverted := subName key, fReasonName := ascii "unused" }
        return (map.insert (subName key) sub).insert key forbidden

def readSection (category country : QString) (map : TldInfoMap) :
    Node → Except ParserError TldInfoMap
  | .comment => .ok map
  | .characterData data => (nameList data).foldlM (readName category country) map
  | .element tagName attributes children =>
      if tagName = ascii "exceptions" then do
        let (applyTo, _) ← tldEncode (attributeOf attributes (ascii "apply-to") (ascii "unknown"))
        (childNames children).foldlM (readException category country applyTo) map
      else if tagName = ascii "forbid" then
        let reason := attributeOf attributes (ascii "reason") (ascii "unused")
        (childNames children).foldlM (readForbidden category country reason) map
      else .error (.sectionTag tagName)

def readArea (state : TldInfoMap × CountryMap) : Node → Except ParserError (TldInfoMap × CountryMap)
  | .element tagName attributes children => do
      if tagName ≠ ascii "area" then .error (.areaTag tagName)
      else
        let category := attributeOf attributes (ascii "category") (ascii "country")
        if category = ascii "country" then
          let country := attributeOf attributes (ascii "country") (ascii "undefined")
          if state.2.Has country then .error (.countryTwice country)
          else
            let countries := state.2.insert country (state.2.size + 1)
            return (← children.foldlM (readSection category country) state.1, countries)
        else return (← children.foldlM (readSection category []) state.1, state.2)
  | _ => .ok state

/-- `read_tlds()` on the nodes of the document. -/
def readTlds (doc : List Node) : Except ParserError (TldInfoMap × CountryMap) :=
  if doc.isEmpty then .error .emptyDocument
  else
    let root := doc.findSome? fun
      | .element tagName _ children => some (tagName, children)
      | _ => none
    match root with
    | none => .error .noRoot
    | some (tagName, children) =>
        if tagName ≠ ascii "tld" then .error (.rootTag tagName)
        else children.foldlM readArea (.empty, .empty)

section Verify

def signs : List UInt16 :=
  [0x0902, 0x093E, 0x0947, 0x0949, 0x0982, 0x09BE, 0x0A3E, 0x0ABE, 0x0BBE, 0x0BBF, 0x0BC2, 0x0BC8,
    0x0BCD, 0x0C3E, 0x0C4D, 0x0D82, 0x0DCF]

variable (isLetterOrNumber : UInt16 → Bool)

/-- The loop of `verify_data()` over a name, from its end. The first unit of the list
is at `i`; `j` is where the last period was, `k` the last period or dash. -/
def verifyFrom (t : QString) : QString → ℕ → ℕ → Except ParserError Unit
  | [], _, _ => .ok ()
  | c :: rest, j, k =>
      let i := rest.length
      if c = dot then
        if i + 1 = j then
          if j = t.length then .error (.endingPeriod t) else .error (.twoPeriods t)
        else if i + 1 = k then .error (.dashAfterPeriod t)
        else verifyFrom t rest i i
      else if i = 0 then .error (.noLeadingPeriod t)
      else if c = 0x2D then
        if i + 1 = k then
          if k = t.length then .error (.endingDash t) else .error (.dashBeforePeriod t)
        else verifyFrom t rest j i
      else if !isLetterOrNumber c ∧ c ∉ signs then .error (.notALetter t c)
      else verifyFrom t rest j k

def verifyName (t : QString) : Except ParserError Unit :=
  verifyFrom isLetterOrNumber t t.reverse t.length t.length

def categoryOf (name : QString) : Except ParserError Category :=
  if name = ascii "international" then .ok .international
  else if name = ascii "professionals" then .ok .professionals
  else if name = ascii "language" then .ok .language
  else if name = ascii "groups" then .ok .groups
  else if name = ascii "region" then .ok .region
  else if name = ascii "technical" then .ok .technical
  else if name = ascii "country" then .ok .country
  else if name = ascii "entrepreneurial" then .ok .entrepreneurial
  else if name = ascii "brand" then .ok .brand
  else .error (.unknownCategory name)

def reasonOf (name : QString) : Except ParserError Status :=
  if name = ascii "proposed" then .ok .proposed
  else if name = ascii "deprecated" then .ok .deprecated
  else if name = ascii "unused" then .ok .unused
  else if name = ascii "reserved" then .ok .reserved
  else if name = ascii "infrastructure" then .ok .infrastructure
  else if name ≠ [] then .error (.unknownReason name)
  else .ok .valid

def verifyInfo (info : TldInfo) : Except ParserError TldInfo := do
  verifyName isLetterOrNumber info.fTld
  let category ← categoryOf info.fCategoryName
  let reason ← reasonOf info.fReasonName
  return { info with fCategory := some category, fReason := some reason }

/-- An entry of the map that `verify_data()` walks. -/
def verifyEntry (map : TldInfoMap) (key : QString) : Except ParserError TldInfoMap :=
  match map.find? key with
  | none => .ok map
  | some info => do return map.insert key (← verifyInfo isLetterOrNumber info)

def verifyData (map : TldInfoMap) : Except ParserError TldInfoMap :=
  map.keys.foldlM (verifyEntry isLetterOrNumber) map

end Verify

/-- `tld_description`. -/
structure TldDescription where
  fCategory : Option Category
  fStatus : Option Status
  fStartOffset : ℕ
  fEndOffset : ℕ
  fExceptionApplyTo : ℕ
  fExceptionLevel : ℕ
  fTld : List UInt8
  fCountry : Option ℕ
  deriving DecidableEq, Repr

/-- What `output_tlds()` writes. -/
structure Written where
  tldDescriptions : List TldDescription
  tldStartOffset : ℕ
  tldEndOffset : ℕ
  tldMaxLevel : ℕ
  deriving DecidableEq, Repr

/-- `QMap::operator []`: a key that is missing is added with a value of zeroes. -/
def fetch (map : TldInfoMap) (key : QString) : TldInfoMap × TldInfo :=
  match map.find? key with
  | some info => (map, info)
  | none => (map.insert key {}, {})

/-- The key without its last label, `tld.left(tld.lastIndexOf('!', -2) + 1)`. -/
def parentOf (key : QString) : QString := key.dropLast.rdropWhile (· ≠ bang)

def baseOf (key : QString) : QString := key.dropLast.rtakeWhile (· ≠ bang)

def saveOffset (map : TldInfoMap) (tld : QString) (offset : ℕ) : Except ParserError TldInfoMap :=
  match map.find? (parentOf tld) with
  | none => .error (.noParent tld (parentOf tld))
  | some info =>
      .ok (map.insert (parentOf tld) { info with
        fStartOffset := if info.fStartOffset = ushrtMax then offset else info.fStartOffset
        fEndOffset := offset + 1 })

/-- `output_utf8()`, as the compiler reads it back. -/
def outputUtf8 (str : QString) : List UInt8 := (toUtf8 str).takeWhile (· ≠ 0)

def levels (maxLevel : ℕ) : List ℕ := (List.range maxLevel).reverse.map (· + 1)

def topLevel : TldInfo where
  fCategoryName := ascii "international"
  fReasonName := ascii "TLD_STATUS_VALID"
  fStartOffset := ushrtMax
  fEndOffset := ushrtMax

def maxLevelOf (map : TldInfoMap) : ℕ := map.entries.foldl (fun n e => max n e.2.fLevel) 0

def assignOffset (level : ℕ) (state : TldInfoMap × ℕ) (key : QString) : TldInfoMap × ℕ :=
  match state.1.find? key with
  | none => state
  | some info =>
      if info.fLevel = level then (state.1.insert key { info with fOffset := state.2 }, state.2 + 1)
      else state

def assignOffsets (maxLevel : ℕ) (map : TldInfoMap) : TldInfoMap × ℕ :=
  (levels maxLevel).foldl (fun state level => state.1.keys.foldl (assignOffset level) state)
    (map, 0)

structure Output where
  map : TldInfoMap
  rows : List TldDescription := []

/-- An entry of the loop that writes the table; the index is the number of lines. The
value that `operator []` may add has level 0 and is not written. -/
def outputEntry (countries : CountryMap) (level : ℕ) (out : Output) (key : QString) :
    Except ParserError Output :=
  match out.map.find? key with
  | none => .ok out
  | some info =>
      if info.fLevel ≠ level then .ok out
      else do
        let isException := info.fExceptionApplyTo ≠ []
        let (map, target) := if isException then fetch out.map info.fExceptionApplyTo
          else (out.map, info)
        let map ← saveOffset map info.fInverted out.rows.length
        return {
          map
          rows := out.rows ++ [{
            fCategory := info.fCategory
            fStatus := if isException then some .exception else info.fReason
            fStartOffset := info.fStartOffset
            fEndOffset := info.fEndOffset
            fExceptionApplyTo := if isException then target.fOffset % 65536 else ushrtMax
            fExceptionLevel := info.fLevel
            fTld := outputUtf8 (baseOf info.fInverted)
            fCountry := if info.fCategory = some .country then
                some ((countries.find? info.fCountry).getD 0)
              else none }] }

def outputTlds (map : TldInfoMap) (countries : CountryMap) : Except ParserError Written := do
  let map := map.insert [] topLevel
  let maxLevel := maxLevelOf map
  let (map, _) := assignOffsets maxLevel map
  let out ← (levels maxLevel).foldlM
    (fun out level => out.map.keys.foldlM (outputEntry countries level) out) ({ map } : Output)
  let (_, top) := fetch out.map []
  return ⟨out.rows, top.fStartOffset, top.fEndOffset, maxLevel⟩

/-- A `char` is signed. -/
def charValue (b : UInt8) : ℤ := if b < 0x80 then b.toNat else b.toNat - 256

/-- The loop of `cmp()`. -/
def cmpFrom : List UInt8 → List UInt8 → ℤ
  | [], [] => 0
  | [], _ :: _ => -1
  | _ :: _, [] => 1
  | a :: as, b :: bs =>
      if charValue a < charValue b then -1
      else if charValue b < charValue a then 1
      else cmpFrom as bs

/-- `cmp()` of a string of the table and the first bytes of a domain. -/
def cmp (a b : List UInt8) : ℤ := if a = [0x2A] then 0 else cmpFrom a b

end SnapCpp.TldParser
