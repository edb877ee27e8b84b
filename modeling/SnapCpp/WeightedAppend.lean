import SnapCpp.SimplifiedText
import SnapCpp.WeightedHttp

/-!
Appending to a weighted string. Reading goes on where the first string ends in UTF-16 code units,
counted in the bytes of the whole text. The bytes of the first string that are still behind that
position are read once more, so that appending works exactly when there is nothing but spaces and
commas in them.
-/
namespace SnapCpp.WeightedHttp

open QString Utf SimplifiedText
open CacheControl (isCSpace cString endsName endsParameter comma semicolon equal)

section Commas

variable {p : UInt8 → Bool} (s b : List UInt8)

theorem takeWhile_append_comma (h : p comma = false) :
    (s ++ comma :: b).takeWhile p = s.takeWhile p := by
  induction s with
  | nil => rw [List.nil_append, List.takeWhile_cons_of_neg (by simp [h]), List.takeWhile_nil]
  | cons c s ih => rw [List.cons_append, List.takeWhile_cons, List.takeWhile_cons, ih]

theorem dropWhile_append_comma (h : p comma = false) :
    (s ++ comma :: b).dropWhile p = s.dropWhile p ++ comma :: b := by
  induction s with
  | nil => rw [List.nil_append, List.dropWhile_cons_of_neg (by simp [h]), List.dropWhile_nil,
    List.nil_append]
  | cons c s ih =>
    rw [List.cons_append, List.dropWhile_cons, List.dropWhile_cons, ih]
    split_ifs <;> rfl

theorem head_append_comma : (s ++ comma :: b).head? = some equal ↔ s.head? = some equal := by
  cases s with
  | nil =>
    refine iff_of_false (fun h => ?_) (fun h => by cases h)
    exact absurd (Option.some.inj h) (by decide)
  | cons c s => exact Iff.rfl

theorem tail_append_comma (h : s.head? = some equal) :
    (s ++ comma :: b).tail = s.tail ++ comma :: b := by
  cases s with
  | nil => cases h
  | cons c s => rfl

theorem afterName_comma : afterName (s ++ comma :: b) = afterName s ++ comma :: b :=
  dropWhile_append_comma s b rfl

theorem paramName_comma : paramName (s ++ comma :: b) = paramName s := by
  rw [paramName, takeWhile_append_comma s b rfl, paramName]

theorem paramValue_comma : paramValue (s ++ comma :: b) = paramValue s := by
  unfold paramValue
  rw [afterName_comma, if_congr (head_append_comma _ b) rfl rfl]
  split_ifs with hequal
  · rw [tail_append_comma _ b hequal, takeWhile_append_comma _ b rfl]
  · rfl

theorem afterParam_comma : afterParam (s ++ comma :: b) = afterParam s ++ comma :: b := by
  unfold afterParam
  rw [afterName_comma, if_congr (head_append_comma _ b) rfl rfl]
  split_ifs with hequal
  · rw [tail_append_comma _ b hequal, dropWhile_append_comma _ b rfl]
  · rfl

end Commas

variable {α : Type*} (f : Floats α) {s : List UInt8}

/-- A comma ends a parameter. -/
theorem readParam_comma (part : Part α) (errors : QString) (s b : List UInt8) :
    readParam f part errors (s ++ comma :: b) = readParam f part errors s := by
  unfold readParam
  rw [paramName_comma, paramValue_comma, afterName_comma,
    if_congr (head_append_comma (afterName s) b) rfl rfl]

theorem readParams_comma (part : Part α) (errors : QString) (s b : List UInt8) :
    readParams f part errors (s ++ comma :: b) =
      ((readParams f part errors s).1, (readParams f part errors s).2.1,
        (readParams f part errors s).2.2 ++ comma :: b) := by
  fun_induction readParams f part errors s with
  | case1 => rw [List.nil_append, readParams, if_neg (by decide)]
  | case2 part errors s r ih =>
    rw [List.cons_append, readParams, if_pos rfl, readParam_comma, afterParam_comma]
    exact ih
  | case3 part errors c s hc => rw [List.cons_append, readParams, if_neg hc]

theorem skipSeparators_nil (h : skipSeparators s = []) (b : List UInt8) :
    skipSeparators (s ++ b) = skipSeparators b := by
  have hall : ∀ c ∈ s, (isCSpace c || c == comma) = true := by
    simpa [skipSeparators, List.dropWhile_eq_nil_iff] using h
  exact List.dropWhile_append_of_pos hall

theorem skipSeparators_append (h : skipSeparators s ≠ []) (b : List UInt8) :
    skipSeparators (s ++ b) = skipSeparators s ++ b := by
  unfold skipSeparators at h ⊢
  rw [List.dropWhile_append, if_neg (by simpa using h)]

theorem skipSeparators_comma (b : List UInt8) : skipSeparators (comma :: b) = skipSeparators b :=
  rfl

theorem partName_comma (s b : List UInt8) : partName (s ++ comma :: b) = partName s := by
  rw [partName, takeWhile_append_comma s b rfl, partName]

theorem readPart_comma (errors : QString) (s b : List UInt8) :
    readPart f errors (s ++ comma :: b) = ((readPart f errors s).1, (readPart f errors s).2.1,
      (readPart f errors s).2.2 ++ comma :: b) := by
  rw [readPart, partName_comma, dropWhile_append_comma s b rfl, readParams_comma]
  rfl

section Parts

variable {parts : List (Part α)} {errors : QString} {s : List UInt8}

/-- Only what comes after the spaces and commas matters. -/
theorem readParts_congr {t : List UInt8} (h : skipSeparators s = skipSeparators t) :
    readParts f parts errors s = readParts f parts errors t := by
  by_cases hs : skipSeparators t = []
  · rw [readParts_blank f hs, readParts_blank f (h.trans hs)]
  · by_cases hname : partName (skipSeparators t) = [] ∨ 17 < (partName (skipSeparators t)).length
    · rw [readParts_bad f hs hname, readParts_bad f (h ▸ hs) (h ▸ hname)]
    · rw [readParts_part f hs hname, readParts_part f (h ▸ hs) (h ▸ hname), h]

theorem readParam_errors (h : errors ≠ []) (part : Part α) (s : List UInt8) :
    (readParam f part errors s).2 ≠ [] := by
  have happend (text : QString) : errors ++ text ≠ [] := List.append_ne_nil_of_left_ne_nil h text
  unfold readParam
  split_ifs
  · dsimp only
    split
    · split_ifs
      · exact h
      · exact happend _
    · exact happend _
  · exact h
  · exact happend _
  · exact h

theorem readParams_errors (h : errors ≠ []) (part : Part α) (s : List UInt8) :
    (readParams f part errors s).2.1 ≠ [] := by
  fun_induction readParams f part errors s with
  | case1 => exact h
  | case2 part errors s r ih => exact ih (readParam_errors f h part s)
  | case3 => exact h

theorem readParts_errors (h : errors ≠ []) (parts : List (Part α)) (s : List UInt8) :
    (readParts f parts errors s).2 ≠ [] := by
  fun_induction readParts f parts errors s with
  | case1 => exact h
  | case2 => exact List.append_ne_nil_of_left_ne_nil h nameError
  | case3 parts errors s s' hs hname r ih => exact ih (readParams_errors f h _ _)

/-- The parts before stay in front. -/
theorem readParts_append (ps qs : List (Part α)) (errors : QString) (s : List UInt8) :
    readParts f (ps ++ qs) errors s =
      (ps ++ (readParts f qs errors s).1, (readParts f qs errors s).2) := by
  fun_induction readParts f qs errors s with
  | case1 qs errors s s' hs => rw [readParts_blank f hs]
  | case2 qs errors s s' hs hname => rw [readParts_bad f hs hname]
  | case3 qs errors s s' hs hname r ih => rw [readParts_part f hs hname, List.append_assoc, ih]

theorem readParts_comma (h : (readParts f parts errors s).2 = []) (b : List UInt8) :
    readParts f parts errors (s ++ comma :: b) =
      readParts f (readParts f parts errors s).1 [] b := by
  fun_induction readParts f parts errors s with
  | case1 parts errors s s' hs =>
    obtain rfl : errors = [] := h
    exact readParts_congr f ((skipSeparators_nil hs _).trans (skipSeparators_comma b))
  | case2 parts errors s s' hs hname =>
    exact absurd h (List.append_ne_nil_of_right_ne_nil _ (List.cons_ne_nil _ _))
  | case3 parts errors s s' hs hname r ih =>
    have happend := skipSeparators_append hs (comma :: b)
    rw [← ih h, readParts_part f (by rw [happend]; simp) (by rwa [happend, partName_comma]),
      happend, readPart_comma]

theorem readParts_comma_error (h : (readParts f parts errors s).2 ≠ []) (b : List UInt8) :
    (readParts f parts errors (s ++ comma :: b)).2 ≠ [] := by
  fun_induction readParts f parts errors s with
  | case1 parts errors s s' hs => exact readParts_errors f h parts _
  | case2 parts errors s s' hs hname =>
    have happend := skipSeparators_append hs (comma :: b)
    rw [readParts_bad f (by rw [happend]; simp) (by rwa [happend, partName_comma])]
    exact h
  | case3 parts errors s s' hs hname r ih =>
    have happend := skipSeparators_append hs (comma :: b)
    rw [readParts_part f (by rw [happend]; simp) (by rwa [happend, partName_comma]), happend,
      readPart_comma]
    exact ih h

/-- Only spaces and commas are read without an error and without a part. -/
theorem readParts_nil_iff : readParts f [] [] s = ([], []) ↔ skipSeparators s = [] := by
  constructor
  · intro h
    by_contra hs
    by_cases hname : partName (skipSeparators s) = [] ∨ 17 < (partName (skipSeparators s)).length
    · rw [readParts_bad f hs hname] at h
      exact absurd (congrArg Prod.snd h) (List.cons_ne_nil _ _)
    · rw [readParts_part f hs hname, ← List.append_nil ([] ++ _), readParts_append] at h
      exact absurd (congrArg Prod.fst h) (by simp)
  · exact fun hs => readParts_blank f hs

end Parts

theorem parse_new (str : QString) :
    parse f {} str false =
      (⟨str, (readParts f [] [] (cString (toUtf8 str))).1,
        (readParts f [] [] (cString (toUtf8 str))).2⟩,
        decide ((readParts f [] [] (cString (toUtf8 str))).2 = [])) := rfl

theorem length_utf16_le (cs : List Char) : (utf16 cs).length ≤ (utf8 cs).length := by
  induction cs with
  | nil => exact Nat.le_refl _
  | cons c cs ih =>
    have hchar : (utf16Char c).length ≤ (utf8Char c).length := by
      unfold utf16Char utf8Char
      split_ifs
      all_goals simp
      omega
    rw [utf16, utf8, List.flatMap_cons, List.flatMap_cons, List.length_append, List.length_append]
    exact Nat.add_le_add hchar ih

def readTwice (a : List Char) : List UInt8 := (utf8 a).drop (utf16 a).length

/-- The bytes of two strings with a comma in between, from that position on. -/
theorem drop_joined (a b : List Char) :
    (toUtf8 (utf16 a ++ ascii "," ++ utf16 b)).drop (utf16 a).length =
      readTwice a ++ comma :: utf8 b := by
  have hcomma : ascii "," = utf16 [','] := by decide
  have hbyte : utf8 [','] = [comma] := by decide
  rw [hcomma, ← utf16_append, ← utf16_append, toUtf8_utf16, utf8_append, utf8_append, hbyte,
    List.append_assoc, List.drop_append_of_le_length (length_utf16_le a)]
  rfl

theorem parse_again (a b : List Char) (ha : a ≠ []) (w : WeightedHttpString α)
    (hw : w.fStr = utf16 a) :
    parse f w (utf16 b) false =
      (⟨utf16 a ++ ascii "," ++ utf16 b,
        (readParts f w.fParts [] (cString (readTwice a ++ comma :: utf8 b))).1,
        (readParts f w.fParts [] (cString (readTwice a ++ comma :: utf8 b))).2⟩,
        decide ((readParts f w.fParts [] (cString (readTwice a ++ comma :: utf8 b))).2 = [])) := by
  have hfull : ¬ (w.fStr = [] ∨ false = true) := by
    rw [hw, or_iff_left (by decide)]
    intro hnil
    exact ha (utf16_injective (hnil.trans rfl))
  unfold parse
  simp only [if_neg hfull]
  rw [hw, drop_joined]

theorem cString_of_mem (h : 0 ∈ s) (t : List UInt8) :
    cString (s ++ t) = cString s := by
  rw [cString, cString, List.takeWhile_append, if_neg]
  intro hlength
  have hall := List.takeWhile_eq_self_iff.mp
    ((List.takeWhile_prefix (fun c : UInt8 => decide (c ≠ 0))).eq_of_length hlength)
  simpa using hall 0 h

theorem cString_of_notMem (h : 0 ∉ s) (t : List UInt8) :
    cString (s ++ t) = s ++ cString t := by
  refine List.takeWhile_append_of_pos fun c hc => ?_
  simpa using fun h0 : c = 0 => h (h0 ▸ hc)

/-- Appending a string to one of which no bytes are read twice leaves the parts of both; so it
does when all that is read twice are spaces and commas, and otherwise only when a null among these
bytes hides the second string and what stands before it reads as the second string does. -/
theorem parse_append_iff {a b : List Char} (ha : (parse f {} (utf16 a) false).2 = true)
    (hb : (parse f {} (utf16 b) false).2 = true) :
    ((parse f (parse f {} (utf16 a) false).1 (utf16 b) false).2 = true ∧
      (parse f (parse f {} (utf16 a) false).1 (utf16 b) false).1.fParts =
        (parse f {} (utf16 a) false).1.fParts ++ (parse f {} (utf16 b) false).1.fParts) ↔
    (∀ c ∈ readTwice a, isCSpace c = true ∨ c = comma) ∨
      (0 ∈ readTwice a ∧ readParts f [] [] (cString (readTwice a)) =
        ((parse f {} (utf16 b) false).1.fParts, [])) := by
  have hblank : skipSeparators (readTwice a) = [] ↔
      ∀ c ∈ readTwice a, isCSpace c = true ∨ c = comma := by
    simp [skipSeparators, List.dropWhile_eq_nil_iff]
  rw [← hblank]
  by_cases hempty : a = []
  · subst hempty
    have hnothing : (parse f {} (utf16 []) false).1 = {} := by
      rw [parse_new,
        readParts_blank f (show skipSeparators (cString (toUtf8 (utf16 []))) = [] by rfl)]
      rfl
    rw [hnothing]
    exact iff_of_true ⟨hb, rfl⟩ (Or.inl rfl)
  · rw [parse_again f a b hempty _ rfl]
    generalize hparts : (parse f {} (utf16 a) false).1.fParts = parts
    have hagain := readParts_append f parts [] [] (cString (readTwice a ++ comma :: utf8 b))
    rw [List.append_nil] at hagain
    rw [parse_new, toUtf8_utf16, decide_eq_true_eq] at hb
    rw [hagain, parse_new, toUtf8_utf16, decide_eq_true_eq]
    dsimp only
    rw [List.append_cancel_left_eq]
    by_cases hnull : 0 ∈ readTwice a
    · have hnonblank : skipSeparators (readTwice a) ≠ [] := by
        intro hskip
        exact absurd (hblank.mp hskip 0 hnull) (by decide)
      rw [cString_of_mem hnull, or_iff_right hnonblank, and_iff_right hnull, Prod.ext_iff]
      exact and_comm
    · rw [cString_of_notMem hnull, or_iff_left (fun h => hnull h.1)]
      have hcomma : cString (comma :: utf8 b) = comma :: cString (utf8 b) := rfl
      rw [hcomma]
      by_cases hok : (readParts f [] [] (readTwice a)).2 = []
      · have happend := readParts_append f (readParts f [] [] (readTwice a)).1 [] []
          (cString (utf8 b))
        rw [List.append_nil] at happend
        rw [readParts_comma f hok, happend, and_iff_right hb, ← readParts_nil_iff f,
          List.append_left_eq_self, Prod.ext_iff, and_iff_left hok]
      · refine iff_of_false (fun h => readParts_comma_error f hok _ h.1) (fun hskip => hok ?_)
        rw [readParts_blank f hskip]

theorem readParts_name (hskip : skipSeparators s = s)
    (hends : ∀ c ∈ s, endsName c = false) (hname : partName s ≠ [])
    (hlength : (partName s).length ≤ 17) (parts : List (Part α)) (errors : QString) :
    readParts f parts errors s =
      (parts ++ [⟨partName s, f.defaultLevel, OrderedMap.empty⟩], errors) := by
  have hs : skipSeparators s ≠ [] := by
    rw [hskip]
    rintro rfl
    exact hname partName_nil
  have hrest : s.dropWhile (fun c => !endsName c) = [] := by
    rw [List.dropWhile_eq_nil_iff]
    exact fun c hc => by simp [hends c hc]
  rw [readParts_part f hs (by rw [hskip]; exact not_or.mpr ⟨hname, not_lt.mpr hlength⟩), hskip,
    readPart, hrest, readParams, readParts_blank f rfl]

def sampleFloats : Floats ℕ where
  toFloat s := if s = ascii "0.5" then some 5 else if s = ascii "1.0" then some 10 else none
  notNegative _ := true
  defaultLevel := 10

theorem parse_letter : (parse sampleFloats {} (utf16 ['x']) false).2 = true := by
  have hread := readParts_name sampleFloats (s := [0x78]) (by decide)
    (List.forall_iff_forall_mem.mp (by decide)) (by decide) (by decide) [] []
  rw [parse_new, decide_eq_true_eq]
  exact congrArg Prod.snd hread

theorem parse_append_iff_letters :
    ((parse sampleFloats (parse sampleFloats {} (utf16 ['x']) false).1
        (utf16 ['x']) false).2 = true ∧
      (parse sampleFloats (parse sampleFloats {} (utf16 ['x']) false).1
        (utf16 ['x']) false).1.fParts =
        (parse sampleFloats {} (utf16 ['x']) false).1.fParts ++
          (parse sampleFloats {} (utf16 ['x']) false).1.fParts) ↔
    (∀ c ∈ readTwice ['x'], isCSpace c = true ∨ c = comma) ∨
      (0 ∈ readTwice ['x'] ∧ readParts sampleFloats [] [] (cString (readTwice ['x'])) =
        ((parse sampleFloats {} (utf16 ['x']) false).1.fParts, [])) :=
  parse_append_iff sampleFloats parse_letter parse_letter

/-- The last byte of a letter with an accent is read once more, as a part of its own. -/
theorem parse_accent_again : ¬ ∀ (f : Floats ℕ) (a b : List Char),
    (parse f {} (utf16 a) false).2 = true → (parse f {} (utf16 b) false).2 = true →
      (parse f (parse f {} (utf16 a) false).1 (utf16 b) false).2 = true ∧
        (parse f (parse f {} (utf16 a) false).1 (utf16 b) false).1.fParts =
          (parse f {} (utf16 a) false).1.fParts ++ (parse f {} (utf16 b) false).1.fParts := by
  intro h
  have haccent := readParts_name sampleFloats (s := [0xC3, 0xA9]) (by decide)
    (List.forall_iff_forall_mem.mp (by decide)) (by decide) (by decide) [] []
  have hbyte := readParts_name sampleFloats (s := [0xA9]) (by decide)
    (List.forall_iff_forall_mem.mp (by decide)) (by decide) (by decide)
  have hletter := readParts_name sampleFloats (s := [0x78]) (by decide)
    (List.forall_iff_forall_mem.mp (by decide)) (by decide) (by decide)
  have hutf8 : cString (toUtf8 (utf16 ['é'])) = [0xC3, 0xA9] := by decide
  have hfirst : (parse sampleFloats {} (utf16 ['é']) false).2 = true := by
    rw [parse_new, decide_eq_true_eq, hutf8]
    exact congrArg Prod.snd haccent
  obtain ⟨-, hparts⟩ := h sampleFloats ['é'] ['x'] hfirst parse_letter
  have hjoined : cString (readTwice ['é'] ++ comma :: utf8 ['x']) = [0xA9] ++ comma :: [0x78] := by
    decide
  have hutf8' : cString (toUtf8 (utf16 ['x'])) = [0x78] := by decide
  rw [parse_again sampleFloats _ _ (by decide) _ rfl, hjoined, parse_new, parse_new, hutf8, hutf8',
    readParts_comma sampleFloats (by rw [hbyte]), hbyte, haccent, hletter, hletter] at hparts
  exact absurd (congrArg List.length hparts) (by simp)

end SnapCpp.WeightedHttp
