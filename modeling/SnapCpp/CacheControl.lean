import SnapCpp.SnapVersion
import SnapCpp.Utf

/-!
The settings of a `Cache-Control` header. The header is cut in parts by the parser of weighted
strings, which accepts names of 17 characters at the most and stops at the first part it does not
accept. The parts are then applied to the settings in their order. The level of a part and the
messages about errors have no effect on the settings.
-/
namespace SnapCpp.CacheControl

open QString QNumber Utf
open SnapVersion (simplified)

def comma : UInt8 := 44

def semicolon : UInt8 := 59

def equal : UInt8 := 61

/-- `std::isspace()`. -/
def isCSpace (c : UInt8) : Bool := c == 32 || (9 ≤ c && c ≤ 13)

def cString (b : List UInt8) : List UInt8 := b.takeWhile (· ≠ 0)

def endsName (c : UInt8) : Bool := c == comma || c == semicolon

def endsParameter (c : UInt8) : Bool := endsName c || c == equal

/-- `WeightedHttpString::part_t`, without the level. -/
structure Part where
  fName : QString
  fParam : List (QString × QString)
deriving DecidableEq

def readParameters : ℕ → List UInt8 → List (QString × QString) × List UInt8
  | 0, s => ([], s)
  | fuel + 1, s =>
      if s.head? = some semicolon then
        let paramName := simplified (fromUtf8 (s.tail.takeWhile fun c => !endsParameter c))
        let s := s.tail.dropWhile fun c => !endsParameter c
        let value := if s.head? = some equal then s.tail.takeWhile (fun c => !endsName c) else []
        let s := if s.head? = some equal then s.tail.dropWhile (fun c => !endsName c) else s
        let (params, rest) := readParameters fuel s
        if paramName = [] then (params, rest)
        else ((paramName, trimmed (fromUtf8 value)) :: params, rest)
      else ([], s)

/-- The loop of `WeightedHttpString::parse()`; a part takes one character at least. -/
def parseParts : ℕ → List UInt8 → List Part
  | 0, _ => []
  | fuel + 1, s =>
      let s := s.dropWhile fun c => isCSpace c || c == comma
      if s = [] then []
      else
        let name := simplified (fromUtf8 (s.takeWhile fun c => !endsName c))
        if name = [] ∨ 17 < name.length then []
        else
          let (params, rest) := readParameters (s.length + 1) (s.dropWhile fun c => !endsName c)
          ⟨name, params⟩ :: parseParts fuel rest

/-- `WeightedHttpString::parse()` of a new object. -/
def parse (str : QString) : List Part :=
  let s := cString (toUtf8 str)
  parseParts (s.length + 1) s

def ageMaximum : ℤ := 365 * 24 * 60 * 60

def ignoreValue : ℤ := -1

/-- `cache_control_settings`. -/
structure Settings where
  fMaxAge : ℤ := 0
  fMaxStale : ℤ := -1
  fMinFresh : ℤ := -1
  fMustRevalidate : Bool := true
  fNoCache : Bool := false
  fNoStore : Bool := false
  fNoTransform : Bool := false
  fOnlyIfCached : Bool := false
  fPrivate : Bool := false
  fProxyRevalidate : Bool := false
  fPublic : Bool := false
  fSMaxage : ℤ := -1
deriving DecidableEq

def clampAge (n : ℤ) : ℤ :=
  if ageMaximum ≤ n then ageMaximum else if n < 0 then ignoreValue else n

namespace Settings

def setMaxAge (s : Settings) (maxAge : ℤ) : Settings := { s with fMaxAge := clampAge maxAge }

def setSMaxage (s : Settings) (sMaxage : ℤ) : Settings := { s with fSMaxage := clampAge sMaxage }

def setMaxStale (s : Settings) (maxStale : ℤ) : Settings :=
  { s with fMaxStale := clampAge maxStale }

def setMinFresh (s : Settings) (minFresh : ℤ) : Settings :=
  { s with fMinFresh := clampAge minFresh }

def setMustRevalidate (s : Settings) (b : Bool) : Settings := { s with fMustRevalidate := b }

def setNoCache (s : Settings) (b : Bool) : Settings := { s with fNoCache := b }

def setNoStore (s : Settings) (b : Bool) : Settings := { s with fNoStore := b }

def setNoTransform (s : Settings) (b : Bool) : Settings := { s with fNoTransform := b }

def setOnlyIfCached (s : Settings) (b : Bool) : Settings := { s with fOnlyIfCached := b }

def setPrivate (s : Settings) (b : Bool) : Settings := { s with fPrivate := b }

def setProxyRevalidate (s : Settings) (b : Bool) : Settings := { s with fProxyRevalidate := b }

def setPublic (s : Settings) (b : Bool) : Settings := { s with fPublic := b }

def exclamation : UInt16 := 33

end Settings

/-- A number of seconds that a directive may carry. -/
structure Age where
  seconds : ℕ
  bound : seconds ≤ ageMaximum

inductive Directive where
  | mustRevalidate
  | noCache
  | noStore
  | noTransform
  | onlyIfCached
  | privateCache
  | proxyRevalidate
  | publicCache
  | anyStale
  | maxAge (age : Age)
  | maxStale (age : Age)
  | minFresh (age : Age)
  | sMaxage (age : Age)

namespace Directive

def text : Directive → QString
  | mustRevalidate => ascii "must-revalidate"
  | noCache => ascii "no-cache"
  | noStore => ascii "no-store"
  | noTransform => ascii "no-transform"
  | onlyIfCached => ascii "only-if-cached"
  | privateCache => ascii "private"
  | proxyRevalidate => ascii "proxy-revalidate"
  | publicCache => ascii "public"
  | anyStale => ascii "max-stale"
  | maxAge age => ascii "max-age=" ++ decimal age.seconds
  | maxStale age => ascii "max-stale=" ++ decimal age.seconds
  | minFresh age => ascii "min-fresh=" ++ decimal age.seconds
  | sMaxage age => ascii "s-maxage=" ++ decimal age.seconds

def set (s : Settings) : Directive → Settings
  | mustRevalidate => s.setMustRevalidate true
  | noCache => s.setNoCache true
  | noStore => s.setNoStore true
  | noTransform => s.setNoTransform true
  | onlyIfCached => s.setOnlyIfCached true
  | privateCache => s.setPrivate true
  | proxyRevalidate => s.setProxyRevalidate true
  | publicCache => s.setPublic true
  | anyStale => s.setMaxStale 0
  | maxAge age => s.setMaxAge age.seconds
  | maxStale age => s.setMaxStale age.seconds
  | minFresh age => s.setMinFresh age.seconds
  | sMaxage age => s.setSMaxage age.seconds

end Directive

structure Item where
  before : QString
  directive : Directive
  after : QString
  beforeSpaces : before.all SnapVersion.isCSpace
  afterSpaces : after.all SnapVersion.isCSpace

def Item.text (i : Item) : QString := i.before ++ i.directive.text ++ i.after

def header (items : List Item) : QString := joinComma (items.map Item.text)

def isToken (c : UInt16) : Bool := 33 ≤ c && c < 128 && c != 44 && c != 59

def IsAscii (s : QString) : Prop := ∀ c ∈ s, c.toNat < 128

variable {s w : QString} {c : UInt16} {rest : List UInt8}

theorem IsAscii.append {t : QString} (hs : IsAscii s) (ht : IsAscii t) : IsAscii (s ++ t) :=
  List.forall_mem_append.mpr ⟨hs, ht⟩

theorem IsAscii.of_tokens (h : s.all isToken) : IsAscii s := by
  intro c hc
  have htoken := List.all_eq_true.mp h c hc
  simp only [isToken, Bool.and_eq_true, decide_eq_true_eq, UInt16.lt_iff_toNat_lt] at htoken
  exact htoken.1.1.2

theorem IsAscii.of_spaces (h : s.all SnapVersion.isCSpace) : IsAscii s := by
  intro c hc
  have hspace := List.all_eq_true.mp h c hc
  simp only [SnapVersion.isCSpace, Bool.or_eq_true, beq_iff_eq, Bool.and_eq_true,
    decide_eq_true_eq, UInt16.le_iff_toNat_le] at hspace
  rcases hspace with rfl | hspace
  · decide
  · exact lt_of_le_of_lt hspace.2 (by decide)

theorem Directive.isToken_text (d : Directive) : d.text.all isToken := by
  have hdecimal : ∀ n, (decimal n).all isToken := by
    intro n
    refine List.all_eq_true.mpr (fun c hc => ?_)
    have hdigit := isDigit_of_mem_decimal n c hc
    have hrange := isDigit_iff.mp hdigit
    exact of_ascii (p := fun c => isDigit c = true → isToken c = true) (by decide) (by omega)
      hdigit
  have happend : ∀ (s : String) (n : ℕ), (ascii s).all isToken →
      (ascii s ++ decimal n).all isToken := by
    intro s n hs
    rw [List.all_append, hs, hdecimal n]
    rfl
  cases d
  case maxAge age => exact happend _ _ (by decide)
  case maxStale age => exact happend _ _ (by decide)
  case minFresh age => exact happend _ _ (by decide)
  case sMaxage age => exact happend _ _ (by decide)
  all_goals decide

theorem toNat_toUInt8 (h : c.toNat < 128) : c.toUInt8.toNat = c.toNat := by
  rw [UInt16.toNat_toUInt8]
  omega

theorem isCSpace_toUInt8 (h : SnapVersion.isCSpace c) :
    isCSpace c.toUInt8 = true ∧ endsName c.toUInt8 = false ∧ isSpace c = true := by
  have hascii := IsAscii.of_spaces (s := [c]) (by simpa using h) c List.mem_cons_self
  exact of_ascii (p := fun c => SnapVersion.isCSpace c → isCSpace c.toUInt8 = true ∧
    endsName c.toUInt8 = false ∧ isSpace c = true) (by decide) hascii h

theorem isToken_toUInt8 (h : isToken c) :
    isCSpace c.toUInt8 = false ∧ endsName c.toUInt8 = false ∧ isSpace c = false := by
  have hascii := IsAscii.of_tokens (s := [c]) (by simpa using h) c List.mem_cons_self
  exact of_ascii (p := fun c => isToken c → isCSpace c.toUInt8 = false ∧
    endsName c.toUInt8 = false ∧ isSpace c = false) (by decide) hascii h

def IsRest (rest : List UInt8) : Prop := rest = [] ∨ ∃ more, rest = comma :: more

theorem Directive.text_ne_nil (d : Directive) : d.text ≠ [] := by
  cases d <;> exact List.cons_ne_nil _ _

def Item.bytes (i : Item) : List UInt8 := i.text.map UInt16.toUInt8

/-- Where a name is read, spaces and commas skipped, and what follows it. -/
theorem Item.scan (i : Item) (h : IsRest rest) :
    let s := (i.bytes ++ rest).dropWhile fun c => isCSpace c || c == comma
    s ≠ [] ∧ s.takeWhile (fun c => !endsName c) =
        (i.directive.text ++ i.after).map UInt16.toUInt8 ∧
      s.dropWhile (fun c => !endsName c) = rest := by
  have hbefore : ∀ c ∈ i.before.map UInt16.toUInt8, (isCSpace c || c == comma) = true := by
    intro c hc
    obtain ⟨u, hu, rfl⟩ := List.mem_map.mp hc
    rw [(isCSpace_toUInt8 (List.all_eq_true.mp i.beforeSpaces u hu)).1, Bool.true_or]
  have hname : ∀ c ∈ (i.directive.text ++ i.after).map UInt16.toUInt8,
      (!endsName c) = true := by
    intro c hc
    obtain ⟨u, hu, rfl⟩ := List.mem_map.mp hc
    rcases List.mem_append.mp hu with hu | hu
    · rw [(isToken_toUInt8 (List.all_eq_true.mp i.directive.isToken_text u hu)).2.1]
      rfl
    · rw [(isCSpace_toUInt8 (List.all_eq_true.mp i.afterSpaces u hu)).2.1]
      rfl
  have hskip : (i.bytes ++ rest).dropWhile (fun c => isCSpace c || c == comma) =
      (i.directive.text ++ i.after).map UInt16.toUInt8 ++ rest := by
    rw [Item.bytes, Item.text, List.append_assoc, List.map_append, List.append_assoc,
      List.dropWhile_append_of_pos hbefore]
    obtain ⟨u, us, hu⟩ := List.exists_cons_of_ne_nil i.directive.text_ne_nil
    have htoken := isToken_toUInt8 (List.all_eq_true.mp i.directive.isToken_text u
      (by rw [hu]; exact List.mem_cons_self))
    have hcomma : (u.toUInt8 == comma) = false := by
      have hends := htoken.2.1
      rw [endsName, Bool.or_eq_false_iff] at hends
      exact hends.1
    rw [hu, List.cons_append, List.map_cons, List.cons_append,
      List.dropWhile_cons_of_neg (by rw [htoken.1, hcomma]; decide)]
  have hrest : rest.takeWhile (fun c => !endsName c) = [] ∧
      rest.dropWhile (fun c => !endsName c) = rest := by
    rcases h with rfl | ⟨more, rfl⟩
    · exact ⟨rfl, rfl⟩
    · exact ⟨rfl, rfl⟩
  simp only [hskip]
  refine ⟨?_, ?_, ?_⟩
  · simp [i.directive.text_ne_nil]
  · rw [List.takeWhile_append_of_pos hname, hrest.1, List.append_nil]
  · rw [List.dropWhile_append_of_pos hname, hrest.2]

end SnapCpp.CacheControl
