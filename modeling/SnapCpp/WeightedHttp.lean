import SnapCpp.CacheControl
import SnapCpp.OrderedMap
import SnapCpp.PlaceMarkers

/-!
Weighted HTTP strings. A string is read in UTF-8, part by part; a part is a name with parameters,
of which "q" gives the level, a floating point number that is a parameter here. A string may be
appended to the one of an object, after a comma, and reading then goes on at the position of that
comma, which is counted in UTF-16.
-/
namespace SnapCpp.WeightedHttp

open QString Utf PlaceMarkers
open QNumber (trimmed)
open SnapVersion (simplified)
open CacheControl (isCSpace cString endsName endsParameter comma semicolon equal)

variable {α : Type*}

/-- The floating point numbers: `QString::toFloat()`, the comparison with zero and 1.0. -/
structure Floats (α : Type*) where
  toFloat : QString → Option α
  notNegative : α → Bool
  defaultLevel : α

/-- `WeightedHttpString::part_t` -/
structure Part (α : Type*) where
  fName : QString
  fLevel : α
  fParam : OrderedMap QString QString

namespace Part

def setLevel (p : Part α) (level : α) : Part α := { p with fLevel := level }

def addParameter (p : Part α) (name value : QString) : Part α :=
  { p with fParam := p.fParam.insert name value }

/-- A parameter as `part_t::to_string()` writes it. -/
def parameterText (e : QString × QString) : QString :=
  if e.2 ≠ [] then arg (arg (ascii "%1=%2") e.1) e.2 else e.1

def toString (p : Part α) : QString :=
  p.fParam.entries.foldl
    (fun result e => arg (arg (ascii "%1; %2") result) (parameterText e)) p.fName

end Part

structure WeightedHttpString (α : Type*) where
  fStr : QString := []
  fParts : List (Part α) := []
  fErrorMessages : QString := []

def nameError : QString := ascii "part name is empty or too long (limit is 17 characters.)\n"

def negativeError : QString := ascii "the quality value (q=...) cannot be a negative number.\n"

def invalidError : QString := ascii "the quality value (q=...) is not a valid floating point.\n"

def equalError : QString := ascii "found a spurious equal sign in a weighted st.\n"

def afterName (s : List UInt8) : List UInt8 := s.dropWhile fun c => !endsParameter c

def paramName (s : List UInt8) : QString :=
  simplified (fromUtf8 (s.takeWhile fun c => !endsParameter c))

def paramValue (s : List UInt8) : QString :=
  if (afterName s).head? = some equal then
    trimmed (fromUtf8 ((afterName s).tail.takeWhile fun c => !endsName c))
  else []

def afterParam (s : List UInt8) : List UInt8 :=
  if (afterName s).head? = some equal then (afterName s).tail.dropWhile fun c => !endsName c
  else afterName s

variable (f : Floats α)

/-- A turn of the loop over the parameters, after the semicolon. -/
def readParam (part : Part α) (errors : QString) (s : List UInt8) : Part α × QString :=
  if paramName s ≠ [] then
    let part := part.addParameter (paramName s) (paramValue s)
    if paramName s = ascii "q" then
      match f.toFloat (paramValue s) with
      | some level =>
          if f.notNegative level then (part.setLevel level, errors)
          else (part, errors ++ negativeError)
      | none => (part, errors ++ invalidError)
    else (part, errors)
  else if (afterName s).head? = some equal then (part, errors ++ equalError)
  else (part, errors)

theorem length_dropWhile_le (p : UInt8 → Bool) (s : List UInt8) :
    (s.dropWhile p).length ≤ s.length := (List.dropWhile_sublist p).length_le

theorem length_afterParam (s : List UInt8) : (afterParam s).length ≤ s.length := by
  have hname : (afterName s).length ≤ s.length := length_dropWhile_le _ s
  unfold afterParam
  split_ifs
  · have hvalue := length_dropWhile_le (fun c => !endsName c) (afterName s).tail
    rw [List.length_tail] at hvalue
    omega
  · exact hname

def readParams (part : Part α) (errors : QString) : List UInt8 → Part α × QString × List UInt8
  | [] => (part, errors, [])
  | c :: s =>
      if c = semicolon then
        let r := readParam f part errors s
        readParams r.1 r.2 (afterParam s)
      else (part, errors, c :: s)
termination_by s => s.length
decreasing_by exact Nat.lt_succ_of_le (length_afterParam s)

def skipSeparators (s : List UInt8) : List UInt8 := s.dropWhile fun c => isCSpace c || c == comma

def partName (s : List UInt8) : QString :=
  simplified (fromUtf8 (s.takeWhile fun c => !endsName c))

theorem length_readParams (part : Part α) (errors : QString) (s : List UInt8) :
    (readParams f part errors s).2.2.length ≤ s.length := by
  fun_induction readParams f part errors s with
  | case1 => exact Nat.le_refl _
  | case2 part errors s r ih => exact ih.trans ((length_afterParam s).trans (Nat.le_succ _))
  | case3 => exact Nat.le_refl _

theorem partName_nil : partName [] = [] := rfl

theorem length_afterPartName {s : List UInt8} (h : partName s ≠ []) :
    (s.dropWhile fun c => !endsName c).length < s.length := by
  cases s with
  | nil => exact absurd partName_nil h
  | cons c s =>
    by_cases hc : endsName c = true
    · refine absurd ?_ h
      rw [partName, List.takeWhile_cons_of_neg (by simp [hc])]
      rfl
    · rw [List.dropWhile_cons_of_pos (by simp [hc])]
      exact Nat.lt_succ_of_le (length_dropWhile_le _ s)

def readPart (errors : QString) (s : List UInt8) : Part α × QString × List UInt8 :=
  readParams f ⟨partName s, f.defaultLevel, OrderedMap.empty⟩ errors
    (s.dropWhile fun c => !endsName c)

theorem length_readPart (errors : QString) {s : List UInt8} (h : partName s ≠ []) :
    (readPart f errors s).2.2.length < s.length :=
  (length_readParams f _ errors _).trans_lt (length_afterPartName h)

/-- The loop of `WeightedHttpString::parse()`. -/
def readParts (parts : List (Part α)) (errors : QString) (s : List UInt8) :
    List (Part α) × QString :=
  let s' := skipSeparators s
  if s' = [] then (parts, errors)
  else if _ : partName s' = [] ∨ 17 < (partName s').length then (parts, errors ++ nameError)
  else
    let r := readPart f errors s'
    readParts (parts ++ [r.1]) r.2.1 r.2.2
termination_by s.length
decreasing_by
  have hshort := length_readPart f errors (not_or.mp ‹_›).1
  exact hshort.trans_le (length_dropWhile_le _ s)

def parse (w : WeightedHttpString α) (str : QString) (reset : Bool) :
    WeightedHttpString α × Bool :=
  let pos := if w.fStr = [] ∨ reset then 0 else w.fStr.length
  let fParts := if w.fStr = [] ∨ reset then [] else w.fParts
  let fStr := if w.fStr = [] ∨ reset then str else w.fStr ++ ascii "," ++ str
  let r := readParts f fParts [] (cString ((toUtf8 fStr).drop pos))
  (⟨fStr, r.1, r.2⟩, decide (r.2 = []))

def WeightedHttpString.toString (w : WeightedHttpString α) : QString :=
  w.fParts.foldl (fun result p =>
    (if result = [] then result else result ++ ascii ", ") ++ p.toString) []

section Turns

variable {parts : List (Part α)} {errors : QString} {s : List UInt8}

theorem readParts_blank (h : skipSeparators s = []) :
    readParts f parts errors s = (parts, errors) := by
  rw [readParts]
  exact if_pos h

theorem readParts_bad (h : skipSeparators s ≠ [])
    (hname : partName (skipSeparators s) = [] ∨ 17 < (partName (skipSeparators s)).length) :
    readParts f parts errors s = (parts, errors ++ nameError) := by
  rw [readParts]
  dsimp only
  rw [if_neg h, dif_pos hname]

theorem readParts_part (h : skipSeparators s ≠ [])
    (hname : ¬ (partName (skipSeparators s) = [] ∨ 17 < (partName (skipSeparators s)).length)) :
    readParts f parts errors s = readParts f (parts ++ [(readPart f errors (skipSeparators s)).1])
      (readPart f errors (skipSeparators s)).2.1 (readPart f errors (skipSeparators s)).2.2 := by
  conv_lhs => rw [readParts]
  dsimp only
  rw [if_neg h, dif_neg hname]

end Turns

end SnapCpp.WeightedHttp
