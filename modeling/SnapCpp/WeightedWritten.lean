import SnapCpp.WeightedAppend

/-!
A weighted string that is written and read again. What was read without an error has neat names
and trimmed values, and comes back from its text; but it is written with `QString::arg()`, which
takes a percent sign and a digit in a name or a value for a place marker, and read from UTF-8,
which drops a byte order mark in front of a name or a value.
-/
namespace SnapCpp.WeightedHttp

open QString Utf SimplifiedText PlaceMarkers
open QNumber (isSpace trimmed)
open SnapVersion (simplified space IsNeat)
open CacheControl (isCSpace cString endsName endsParameter comma semicolon equal)

/-- The null, the comma and the semicolon, which end a name or a value. -/
def nameStops : List UInt16 := [0, 44, 59]

/-- And the equal sign, which ends the name of a parameter. -/
def keyStops : List UInt16 := [0, 44, 59, 61]

def Free (stops : List UInt16) (q : QString) : Prop := ∀ u ∈ stops, u ∉ q

structure GoodName (q : QString) : Prop where
  text : IsText q
  neat : IsNeat q
  free : Free nameStops q

structure GoodParam (e : QString × QString) : Prop where
  key : IsText e.1
  neat : IsNeat e.1
  keyFree : Free keyStops e.1
  value : IsText e.2
  ends : trimmed e.2 = e.2
  valueFree : Free nameStops e.2

variable {α : Type*} (f : Floats α)

def HasLevel (p : Part α) : Prop :=
  match p.fParam.find? (ascii "q") with
  | none => p.fLevel = f.defaultLevel
  | some v => f.toFloat v = some p.fLevel ∧ f.notNegative p.fLevel = true

/-- A part as it is read without an error. -/
structure GoodPart (p : Part α) : Prop where
  name : GoodName p.fName
  short : p.fName.length ≤ 17
  params : ∀ e ∈ p.fParam.entries, GoodParam e
  level : HasLevel f p

section Invariant

variable {f} {s : List UInt8} {stops : List UInt16} {q : QString} {part : Part α}

theorem Free.simplified (h : Free stops q) (hspace : space ∉ stops) :
    Free stops (simplified q) := by
  intro u hu hmem
  rcases mem_of_mem_simplified hmem with hq | rfl
  · exact h u hu hq
  · exact hspace hu

theorem Free.trimmed (h : Free stops q) : Free stops (trimmed q) :=
  fun u hu hmem => h u hu (mem_of_mem_trimmed hmem)

theorem free_fromUtf8 (hascii : ∀ u ∈ stops, u.toNat < 128)
    (h : ∀ u ∈ stops, u.toNat.toUInt8 ∉ s) : Free stops (fromUtf8 s) :=
  fun u hu hmem => h u hu (mem_of_mem_fromUtf8 hmem (hascii u hu))

theorem free_takeWhile_name (h0 : 0 ∉ s) :
    Free nameStops (fromUtf8 (s.takeWhile fun c => !endsName c)) := by
  refine free_fromUtf8 (List.forall_iff_forall_mem.mp (by decide)) fun u hu hmem => ?_
  have hends := List.mem_takeWhile_imp hmem
  have hs := (List.takeWhile_sublist _).subset hmem
  simp only [nameStops, List.mem_cons, List.not_mem_nil, or_false] at hu
  rcases hu with rfl | rfl | rfl
  · exact h0 hs
  · revert hends
    decide
  · revert hends
    decide

theorem free_takeWhile_key (h0 : 0 ∉ s) :
    Free keyStops (fromUtf8 (s.takeWhile fun c => !endsParameter c)) := by
  refine free_fromUtf8 (List.forall_iff_forall_mem.mp (by decide)) fun u hu hmem => ?_
  have hends := List.mem_takeWhile_imp hmem
  have hs := (List.takeWhile_sublist _).subset hmem
  simp only [keyStops, List.mem_cons, List.not_mem_nil, or_false] at hu
  rcases hu with rfl | rfl | rfl | rfl
  · exact h0 hs
  all_goals
    revert hends
    decide

theorem goodName_partName (h0 : 0 ∉ s) (hne : partName s ≠ []) : GoodName (partName s) :=
  ⟨(isText_fromUtf8 _).simplified, isNeat_simplified hne,
    (free_takeWhile_name h0).simplified (by decide)⟩

theorem trimmed_trimmed (q : QString) : trimmed (trimmed q) = trimmed q :=
  QNumber.trimmed_of_ends (trimmed_ends q).1 (trimmed_ends q).2

theorem notMem_afterName (h0 : 0 ∉ s) : 0 ∉ afterName s :=
  fun hmem => h0 ((List.dropWhile_sublist _).subset hmem)

theorem notMem_afterParam (h0 : 0 ∉ s) : 0 ∉ afterParam s := by
  unfold afterParam
  split_ifs
  · exact fun hmem => notMem_afterName h0
      (List.mem_of_mem_tail ((List.dropWhile_sublist _).subset hmem))
  · exact notMem_afterName h0

theorem goodParam_read (h0 : 0 ∉ s) (hne : paramName s ≠ []) :
    GoodParam (paramName s, paramValue s) := by
  have htail : (0 : UInt8) ∉ (afterName s).tail :=
    fun hmem => notMem_afterName h0 (List.mem_of_mem_tail hmem)
  have hvalue : IsText (paramValue s) ∧ trimmed (paramValue s) = paramValue s ∧
      Free nameStops (paramValue s) := by
    unfold paramValue
    split_ifs
    · exact ⟨(isText_fromUtf8 _).trimmed, trimmed_trimmed _, (free_takeWhile_name htail).trimmed⟩
    · exact ⟨IsText.nil, rfl, fun u _ hu => List.not_mem_nil hu⟩
  exact ⟨(isText_fromUtf8 _).simplified, isNeat_simplified hne,
    (free_takeWhile_key h0).simplified (by decide), hvalue.1, hvalue.2.1, hvalue.2.2⟩

/-- A parameter is added without an error: nothing changes, or it becomes one of the part. -/
theorem readParam_cases (h : (readParam f part [] s).2 = []) :
    (paramName s = [] ∧ (readParam f part [] s).1 = part) ∨
      (paramName s ≠ [] ∧ ∃ level,
        (readParam f part [] s).1 =
          (part.addParameter (paramName s) (paramValue s)).setLevel level ∧
        if paramName s = ascii "q" then
          f.toFloat (paramValue s) = some level ∧ f.notNegative level = true
        else level = part.fLevel) := by
  have herror (text : QString) (hne : text ≠ []) : [] ++ text ≠ [] := hne
  by_cases hname : paramName s = []
  · refine Or.inl ⟨hname, ?_⟩
    rw [readParam, if_neg (not_not.mpr hname)]
    split_ifs
    · rfl
    · rfl
  · refine Or.inr ⟨hname, ?_⟩
    rw [readParam, if_pos hname] at h ⊢
    by_cases hq : paramName s = ascii "q"
    · simp only [if_pos hq] at h ⊢
      cases hfloat : f.toFloat (paramValue s) with
      | none =>
        rw [hfloat] at h
        exact absurd h (herror _ (List.cons_ne_nil _ _))
      | some level =>
        rw [hfloat] at h
        dsimp only at h ⊢
        by_cases hpositive : f.notNegative level = true
        · exact ⟨level, by rw [if_pos hpositive], rfl, hpositive⟩
        · rw [if_neg hpositive] at h
          exact absurd h (herror _ (List.cons_ne_nil _ _))
    · simp only [if_neg hq]
      exact ⟨part.fLevel, rfl, rfl⟩

theorem GoodPart.readParam (h : GoodPart f part) (h0 : 0 ∉ s)
    (hok : (readParam f part [] s).2 = []) : GoodPart f (readParam f part [] s).1 := by
  rcases readParam_cases hok with ⟨-, hsame⟩ | ⟨hname, level, hpart, hlevel⟩
  · rw [hsame]
    exact h
  · rw [hpart]
    refine ⟨h.name, h.short, fun e he => ?_, ?_⟩
    · rcases OrderedMap.mem_insertEntry _ _ _ _ he with rfl | he
      · exact goodParam_read h0 hname
      · exact h.params e he
    · have hfind := OrderedMap.find?_insert part.fParam (paramName s) (ascii "q") (paramValue s)
      show match (part.fParam.insert (paramName s) (paramValue s)).find? (ascii "q") with
        | none => level = f.defaultLevel
        | some v => f.toFloat v = some level ∧ f.notNegative level = true
      by_cases hq : paramName s = ascii "q"
      · rw [if_pos hq] at hlevel
        rw [hfind, if_pos hq.symm]
        exact hlevel
      · rw [if_neg hq] at hlevel
        rw [hfind, if_neg (Ne.symm hq), hlevel]
        exact h.level

theorem GoodPart.readParams (h : GoodPart f part) (h0 : 0 ∉ s)
    (hok : (readParams f part [] s).2.1 = []) : GoodPart f (readParams f part [] s).1 := by
  generalize herrors : ([] : QString) = errors at hok ⊢
  fun_induction WeightedHttp.readParams f part errors s with
  | case1 => exact h
  | case2 part errors s r ih =>
    subst herrors
    have h0' : (0 : UInt8) ∉ s := List.not_mem_of_not_mem_cons h0
    have hturn : (WeightedHttp.readParam f part [] s).2 = [] := by
      by_contra hne
      exact readParams_errors f hne _ _ hok
    exact ih (h.readParam h0' hturn) (notMem_afterParam h0') hturn.symm
      (hok.trans hturn.symm)
  | case3 => exact h

theorem notMem_readParams (h0 : 0 ∉ s) (errors : QString) :
    0 ∉ (readParams f part errors s).2.2 := by
  fun_induction readParams f part errors s with
  | case1 => exact h0
  | case2 part errors s r ih => exact ih (notMem_afterParam (List.not_mem_of_not_mem_cons h0))
  | case3 => exact h0

theorem goodPart_readParts {parts : List (Part α)} (h0 : 0 ∉ s)
    (hok : (readParts f parts [] s).2 = []) (h : ∀ p ∈ parts, GoodPart f p) :
    ∀ p ∈ (readParts f parts [] s).1, GoodPart f p := by
  generalize herrors : ([] : QString) = errors at hok ⊢
  fun_induction readParts f parts errors s with
  | case1 => exact h
  | case2 => exact h
  | case3 parts errors s s' hs hname r ih =>
    subst herrors
    have h0' : (0 : UInt8) ∉ s' := fun hmem => h0 ((List.dropWhile_sublist _).subset hmem)
    have hrest : (0 : UInt8) ∉ s'.dropWhile fun c => !endsName c :=
      fun hmem => h0' ((List.dropWhile_sublist _).subset hmem)
    obtain ⟨hne, hshort⟩ := not_or.mp hname
    have hstart : GoodPart f (⟨partName s', f.defaultLevel, OrderedMap.empty⟩ : Part α) :=
      ⟨goodName_partName h0' hne, not_lt.mp hshort, fun e he => (List.not_mem_nil he).elim, rfl⟩
    have hturn : (readPart f [] s').2.1 = [] := by
      by_contra herror
      exact readParts_errors f herror _ _ hok
    have hgood : GoodPart f r.1 := hstart.readParams hrest hturn
    refine ih (notMem_readParams hrest []) ?_ hturn.symm (hok.trans hturn.symm)
    rw [List.forall_mem_append, List.forall_mem_singleton]
    exact ⟨h, hgood⟩

end Invariant

end SnapCpp.WeightedHttp
