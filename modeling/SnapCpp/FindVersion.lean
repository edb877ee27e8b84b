import SnapCpp.Utf
import SnapCpp.VersionedFilename

/-!
The fields in the comment at the start of a source. The lines of the comment are read one by one
until one has the end of the comment or a field is refused; empty lines are skipped. At the end
of the data, and at a byte 0xFF, which looks like it, an empty line is handed out too, and then
again whenever one is asked for.
-/
namespace SnapCpp.SnapVersion

open QString QNumber

inductive FieldError where
  | noComment
  | twice (field : QString)
  | mismatch
  | part (e : Error)
deriving DecidableEq, Repr

/-- A `quick_find_version_in_source`. A dependency is given by the text it is set from. -/
structure QuickFindVersion where
  fName : NameObject := {}
  fLayout : NameObject := {}
  fVersion : VersionObject := {}
  fBrowsers : List NameObject := []
  fDescription : QString := []
  fDepends : List QString := []
  fError : Option FieldError := none
deriving DecidableEq, Repr

namespace QuickFindVersion

def star : UInt16 := 42

/-- The bytes up to the end of a line, whether it ends as the data does, and those after it. A
byte is a signed character, so 0xFF is the number of the end. -/
def readRaw : List UInt8 → List UInt8 × Bool × List UInt8
  | [] => ([], true, [])
  | b :: data =>
      if b = 10 ∨ b = 13 then ([], false, data)
      else if b = 0xFF then ([], true, data)
      else (b :: (readRaw data).1, (readRaw data).2)

theorem readRaw_length (data : List UInt8) :
    (readRaw data).1.length + (readRaw data).2.2.length ≤ data.length ∧
      ((readRaw data).2.1 = false → (readRaw data).2.2.length < data.length) := by
  fun_induction readRaw data with
  | case1 => exact ⟨le_rfl, fun h => by cases h⟩
  | case2 b data => simp
  | case3 b data => simp
  | case4 b data _ _ ih =>
    simp only [List.length_cons]
    exact ⟨by omega, fun h => (ih.2 h).trans (Nat.lt_succ_self _)⟩

def lineText (raw : List UInt8) : QString := trimmed (Utf.fromUtf8 (raw.takeWhile (· ≠ 0)))

/-- `quick_find_version_in_source::get_line()`: the line and the data after it. -/
def getLine (data : List UInt8) : QString × List UInt8 :=
  if lineText (readRaw data).1 ≠ [] ∨ (readRaw data).2.1 then
    (lineText (readRaw data).1, (readRaw data).2.2)
  else getLine (readRaw data).2.2
termination_by data.length
decreasing_by
  rename_i h
  rw [not_or, Bool.not_eq_true] at h
  exact (readRaw_length data).2 h.2

theorem lineText_nil : lineText [] = [] := rfl

theorem getLine_length_lt {data : List UInt8} (h : (getLine data).1 ≠ []) :
    (getLine data).2.length < data.length := by
  fun_induction getLine data with
  | case1 data _ =>
    have hraw : (readRaw data).1 ≠ [] := by
      intro hnil
      simp only [hnil] at h
      exact h lineText_nil
    have hlength := (readRaw_length data).1
    have hpos := List.length_pos_iff.mpr hraw
    simp only
    omega
  | case2 data _ ih =>
    have hlength := (readRaw_length data).1
    have hrest := ih h
    omega

theorem exists_trimmed (data : List UInt8) : ∃ s, (getLine data).1 = trimmed s := by
  fun_induction getLine data with
  | case1 data _ => exact ⟨_, rfl⟩
  | case2 data _ ih => exact ih

def commentLines (data : List UInt8) : List QString :=
  if (getLine data).1 = [] then [] else (getLine data).1 :: commentLines (getLine data).2
termination_by data.length
decreasing_by exact getLine_length_lt ‹_›

def upper (c : UInt16) : UInt16 := if 97 ≤ c ∧ c ≤ 122 then c &&& 0x5F else c

def afterName : QString → QString → Option QString
  | [], rest => some rest
  | _ :: _, [] => none
  | n :: name, c :: rest => if upper c = n then afterName name rest else none

/-- `field_t::check()`: the value of the field on a line. -/
def check (name line : QString) : Option QString :=
  let rest := line.dropWhile isCSpace
  let rest := if rest.head? = some star then rest.tail.dropWhile isCSpace else rest
  match afterName name rest with
  | some (c :: value) => if c = colon then some (simplified value) else none
  | _ => none

/-- The check looks at the character after the spaces, whether there is one or not. -/
def readsPast (line : QString) : Bool := (line.dropWhile isCSpace).isEmpty

def addBrowsers (o : QuickFindVersion) : List QString → QuickFindVersion × Bool
  | [] => (o, true)
  | text :: rest =>
      match validateName (trimmed text) with
      | .error e => ({ o with fError := some (.part e) }, false)
      | .ok _ =>
          let browser := ({} : NameObject).setName (trimmed text)
          addBrowsers { o with fBrowsers := o.fBrowsers ++ [browser] } rest

def addDepends (o : QuickFindVersion) (text : QString) : QuickFindVersion :=
  if text = [] then o else { o with fDepends := o.fDepends ++ [text] }

def readDepends (o : QuickFindVersion) (paren brack : ℤ) (text : QString) :
    QString → QuickFindVersion × Bool
  | [] =>
      if paren = 0 ∧ brack = 0 then (o.addDepends text, true)
      else ({ o with fError := some .mismatch }, false)
  | c :: rest =>
      if c = comma ∧ paren = 0 ∧ brack = 0 then readDepends (o.addDepends text) 0 0 [] rest
      else
        readDepends o
          (if c = openParen then paren + 1 else if c = closeParen then paren - 1 else paren)
          (if c = openBracket then brack + 1 else if c = closeBracket then brack - 1 else brack)
          (text ++ [c]) rest

def readName (o : QuickFindVersion) (line : QString) : QuickFindVersion × Bool :=
  match check (ascii "NAME") line with
  | none => (o, true)
  | some value =>
      if o.fName.fName ≠ [] then ({ o with fError := some (.twice (ascii "name")) }, false)
      else
        match validateName value with
        | .error e => ({ o with fName := o.fName.setName value, fError := some (.part e) }, false)
        | .ok _ => ({ o with fName := o.fName.setName value }, true)

def readOther (o : QuickFindVersion) (line : QString) : QuickFindVersion × Bool :=
  match check (ascii "LAYOUT") line with
  | some value =>
      if o.fLayout.fName ≠ [] then ({ o with fError := some (.twice (ascii "layout")) }, false)
      else
        match validateName value with
        | .error e =>
            ({ o with fLayout := o.fLayout.setName value, fError := some (.part e) }, false)
        | .ok _ => ({ o with fLayout := o.fLayout.setName value }, true)
  | none =>
  match check (ascii "VERSION") line with
  | some value =>
      if o.fVersion.getVersionString ≠ [] then
        ({ o with fError := some (.twice (ascii "version")) }, false)
      else
        match validateVersion value with
        | .error e =>
            ({ o with fVersion := o.fVersion.setVersionString value, fError := some (.part e) },
              false)
        | .ok _ => ({ o with fVersion := o.fVersion.setVersionString value }, true)
  | none =>
  match check (ascii "BROWSERS") line with
  | some value =>
      if o.fBrowsers ≠ [] then ({ o with fError := some (.twice (ascii "browser")) }, false)
      else o.addBrowsers (value.splitOn comma)
  | none =>
  match check (ascii "DESCRIPTION") line with
  | some value =>
      if o.fDescription ≠ [] then
        ({ o with fError := some (.twice (ascii "description")) }, false)
      else ({ o with fDescription := value }, true)
  | none =>
  match check (ascii "DEPENDS") line with
  | some value =>
      if o.fDepends ≠ [] then ({ o with fError := some (.twice (ascii "depends")) }, false)
      else if value = [] then (o, true)
      else o.readDepends 0 0 [] (cString value)
  | none => (o, true)

def readFields (o : QuickFindVersion) (line : QString) : QuickFindVersion × Bool :=
  match o.readName line with
  | (o, false) => (o, false)
  | (o, true) => o.readOther line

def endsComment (line : QString) : Bool := decide (ascii "*/" <:+: line)

def finish (o : QuickFindVersion) : QuickFindVersion × Bool :=
  if o.fVersion.getVersionString = [] then (o, false)
  else if o.fBrowsers = [] then
    ({ o with fBrowsers := [({} : NameObject).setName (ascii "all")] }, true)
  else (o, true)

/-- What a search gives, and whether a character after the end of a line was read. -/
structure Found where
  object : QuickFindVersion
  result : Bool
  outside : Bool
deriving DecidableEq, Repr

/-- The loop of `find_version()` with a number of turns that it may take. -/
def findFrom : ℕ → QuickFindVersion → Bool → QString → List UInt8 → Option Found
  | 0, _, _, _, _ => none
  | n + 1, o, outside, line, data =>
      match o.readFields line with
      | (o, false) => some ⟨o, false, outside || readsPast line⟩
      | (o, true) =>
          if endsComment line then some ⟨o.finish.1, o.finish.2, outside || readsPast line⟩
          else findFrom n o (outside || readsPast line) (getLine data).1 (getLine data).2

def findVersion (o : QuickFindVersion) (data : List UInt8) (turns : ℕ) : Option Found :=
  if (ascii "/*").isPrefixOf (getLine data).1 = false then
    some ⟨{ o with fError := some .noComment }, false, false⟩
  else findFrom turns o false (getLine data).1 (getLine data).2

section Ends

variable {o : QuickFindVersion} {line : QString} {data : List UInt8}

theorem isSpace_of_isCSpace {c : UInt16} (h : isCSpace c = true) : isSpace c = true := by
  simp only [isCSpace, isSpace, Bool.or_eq_true, Bool.and_eq_true, beq_iff_eq] at h ⊢
  rcases h with h | h
  · simp [h, space]
  · simp [h]

theorem readsPast_trimmed {s : QString} (h : trimmed s ≠ []) : readsPast (trimmed s) = false := by
  have hhead : ∃ c rest, trimmed s = c :: rest ∧ isSpace c = false := by
    have hprefix : trimmed s <+: s.dropWhile isSpace := List.rdropWhile_prefix isSpace _
    obtain ⟨c, rest, htrimmed⟩ := List.exists_cons_of_ne_nil h
    obtain ⟨back, hback⟩ := hprefix
    have hfirst := List.head?_dropWhile_not isSpace s
    rw [← hback, htrimmed, List.cons_append, List.head?_cons] at hfirst
    exact ⟨c, rest, htrimmed, hfirst⟩
  obtain ⟨c, rest, htrimmed, hc⟩ := hhead
  have hspace : isCSpace c = false := by
    rw [Bool.eq_false_iff]
    intro hspace
    rw [isSpace_of_isCSpace hspace] at hc
    cases hc
  rw [htrimmed, readsPast, List.dropWhile_cons, hspace]
  rfl

theorem readsPast_getLine (h : (getLine data).1 ≠ []) : readsPast (getLine data).1 = false := by
  obtain ⟨s, hs⟩ := exists_trimmed data
  rw [hs] at h ⊢
  exact readsPast_trimmed h

theorem outside_of_findFrom (n : ℕ) {found : Found} (h : findFrom n o true line data = some found) :
    found.outside = true := by
  induction n generalizing o line data with
  | zero => cases h
  | succ n ih =>
    rw [findFrom] at h
    split at h
    · obtain rfl := Option.some.inj h
      rfl
    · split_ifs at h
      · obtain rfl := Option.some.inj h
        rfl
      · exact ih h

def readLines (o : QuickFindVersion) (lines : List QString) : QuickFindVersion :=
  lines.foldl (fun o line => (o.readFields line).1) o

def Stops (o : QuickFindVersion) (lines : List QString) : Prop :=
  ∃ front line back, lines = front ++ line :: back ∧
    (endsComment line = true ∨ ((o.readLines front).readFields line).2 = false)

theorem not_stops_nil : ¬ Stops o [] := by
  rintro ⟨front, line, back, heq, _⟩
  simp at heq

theorem stops_cons {lines : List QString} : Stops o (line :: lines) ↔
    (endsComment line = true ∨ (o.readFields line).2 = false) ∨
      Stops (o.readFields line).1 lines := by
  constructor
  · rintro ⟨front, last, back, heq, hlast⟩
    cases front with
    | nil =>
      obtain ⟨rfl, rfl⟩ := List.cons.inj heq
      exact Or.inl hlast
    | cons first front =>
      obtain ⟨rfl, rfl⟩ := List.cons.inj heq
      exact Or.inr ⟨front, last, back, rfl, hlast⟩
  · rintro (hline | ⟨front, last, back, rfl, hlast⟩)
    · exact ⟨[], line, lines, rfl, hline⟩
    · exact ⟨line :: front, last, back, rfl, hlast⟩

def EndsInside (o : QuickFindVersion) (line : QString) (data : List UInt8) : Prop :=
  ∃ n found, findFrom n o false line data = some found ∧ found.outside = false

/-- One turn of the loop. -/
theorem findFrom_succ (n : ℕ) (o : QuickFindVersion) (outside : Bool) (line : QString)
    (data : List UInt8) : findFrom (n + 1) o outside line data =
      if (o.readFields line).2 = false then
        some ⟨(o.readFields line).1, false, outside || readsPast line⟩
      else if endsComment line then
        some ⟨(o.readFields line).1.finish.1, (o.readFields line).1.finish.2,
          outside || readsPast line⟩
      else findFrom n (o.readFields line).1 (outside || readsPast line) (getLine data).1
        (getLine data).2 := by
  rw [findFrom]
  split
  · rename_i heq
    rw [heq]
    rfl
  · rename_i heq
    rw [heq]
    rfl

theorem endsInside_iff (hline : readsPast line = false) : EndsInside o line data ↔
    (endsComment line = true ∨ (o.readFields line).2 = false) ∨
      EndsInside (o.readFields line).1 (getLine data).1 (getLine data).2 := by
  constructor
  · rintro ⟨n, found, hfound, hinside⟩
    cases n with
    | zero => cases hfound
    | succ n =>
      rw [findFrom_succ, hline] at hfound
      split_ifs at hfound with hrefused hend
      · exact Or.inl (Or.inr hrefused)
      · exact Or.inl (Or.inl hend)
      · exact Or.inr ⟨n, found, hfound, hinside⟩
  · intro h
    by_cases hrefused : (o.readFields line).2 = false
    · exact ⟨1, _, by rw [findFrom_succ, if_pos hrefused], hline⟩
    · by_cases hend : endsComment line = true
      · exact ⟨1, _, by rw [findFrom_succ, if_neg hrefused, if_pos hend], hline⟩
      · obtain ⟨n, found, hfound, hinside⟩ :=
          h.resolve_left (not_or.mpr ⟨hend, hrefused⟩)
        refine ⟨n + 1, found, ?_, hinside⟩
        rw [findFrom_succ, if_neg hrefused, if_neg hend, hline]
        exact hfound

theorem not_endsInside (hline : readsPast line = true) : ¬ EndsInside o line data := by
  rintro ⟨n, found, hfound, hinside⟩
  cases n with
  | zero => cases hfound
  | succ n =>
    rw [findFrom_succ, hline] at hfound
    have houtside : found.outside = true := by
      split_ifs at hfound
      · obtain rfl := Option.some.inj hfound
        rfl
      · obtain rfl := Option.some.inj hfound
        rfl
      · exact outside_of_findFrom n hfound
    rw [hinside] at houtside
    cases houtside

theorem endsInside_iff_stops (o : QuickFindVersion) (data : List UInt8) :
    EndsInside o (getLine data).1 (getLine data).2 ↔ Stops o (commentLines data) := by
  fun_induction commentLines data generalizing o with
  | case1 data hempty =>
    rw [hempty]
    exact iff_of_false (not_endsInside rfl) not_stops_nil
  | case2 data hline ih => rw [endsInside_iff (readsPast_getLine hline), stops_cons, ih]

theorem getLine_nil : getLine [] = ([], []) := by
  rw [getLine, if_pos (by decide)]
  rfl

theorem findFrom_nil (n : ℕ) (outside : Bool) : findFrom n o outside [] [] = none := by
  induction n generalizing outside with
  | zero => rfl
  | succ n ih =>
    have hfields : o.readFields [] = (o, true) := rfl
    have hend : endsComment [] = false := by decide
    rw [findFrom_succ, hfields, if_neg (by simp), if_neg (by simp [hend]), getLine_nil]
    exact ih _

/-- The search ends, and reads no character of an empty line, just when the data does not start
with a comment, or when one of the lines before the first empty one ends the comment or has a
field that is refused. -/
theorem findVersion_ends_iff (o : QuickFindVersion) (data : List UInt8) :
    (∃ turns found, findVersion o data turns = some found ∧ found.outside = false) ↔
      ((ascii "/*").isPrefixOf (getLine data).1 = true → Stops o (commentLines data)) := by
  by_cases hcomment : (ascii "/*").isPrefixOf (getLine data).1 = true
  · have hfind (turns : ℕ) : findVersion o data turns =
        findFrom turns o false (getLine data).1 (getLine data).2 := by
      rw [findVersion, hcomment, if_neg (by decide)]
    simp only [hfind, hcomment, forall_const]
    exact endsInside_iff_stops o data
  · rw [Bool.not_eq_true] at hcomment
    refine iff_of_true ⟨0, _, by rw [findVersion, if_pos hcomment], rfl⟩ fun h => ?_
    rw [hcomment] at h
    cases h

/-- A comment that has no end. -/
theorem findVersion_unterminated :
    ¬ ∃ turns found, findVersion {} [47, 42] turns = some found ∧ found.outside = false := by
  have hline : getLine [47, 42] = (ascii "/*", []) := by
    rw [getLine, if_pos (by decide)]
    decide
  rintro ⟨turns, found, hfound, _⟩
  rw [findVersion, hline, if_neg (by decide)] at hfound
  cases turns with
  | zero => cases hfound
  | succ n =>
    have hfields : (readFields {} (ascii "/*")) = ({}, true) := by decide
    have hend : endsComment (ascii "/*") = false := by decide
    rw [findFrom_succ, hfields, if_neg (by simp), if_neg (by simp [hend]), getLine_nil,
      findFrom_nil] at hfound
    cases hfound

end Ends

end QuickFindVersion
end SnapCpp.SnapVersion
