import SnapCpp.QString

/-!
`QString::arg()`. A place marker is a percent sign, an L when a number is to be written as the
locale has it, and one or two digits; the argument takes the place of every marker with the lowest
number in the text, whoever wrote these markers. The locale here is the C locale, in which a
number is written in one way.
-/
namespace SnapCpp.PlaceMarkers

open QString

def percent : UInt16 := 37

def letterL : UInt16 := 76

/-- The digits: the first and the last of a range and the value of the first. -/
def digitRanges : List (UInt16 × UInt16 × ℕ) :=
  [(0x30, 0x39, 0), (0xB2, 0xB3, 2), (0xB9, 0xB9, 1), (0x660, 0x669, 0), (0x6F0, 0x6F9, 0),
    (0x7C0, 0x7C9, 0), (0x966, 0x96F, 0), (0x9E6, 0x9EF, 0), (0xA66, 0xA6F, 0), (0xAE6, 0xAEF, 0),
    (0xB66, 0xB6F, 0), (0xBE6, 0xBEF, 0), (0xC66, 0xC6F, 0), (0xCE6, 0xCEF, 0), (0xD66, 0xD6F, 0),
    (0xDE6, 0xDEF, 0), (0xE50, 0xE59, 0), (0xED0, 0xED9, 0), (0xF20, 0xF29, 0),
    (0x1040, 0x1049, 0), (0x1090, 0x1099, 0), (0x1369, 0x1371, 1), (0x17E0, 0x17E9, 0),
    (0x1810, 0x1819, 0), (0x1946, 0x194F, 0), (0x19D0, 0x19D9, 0), (0x19DA, 0x19DA, 1),
    (0x1A80, 0x1A89, 0), (0x1A90, 0x1A99, 0), (0x1B50, 0x1B59, 0), (0x1BB0, 0x1BB9, 0),
    (0x1C40, 0x1C49, 0), (0x1C50, 0x1C59, 0), (0x2070, 0x2070, 0), (0x2074, 0x2079, 4),
    (0x2080, 0x2089, 0), (0x2460, 0x2468, 1), (0x2474, 0x247C, 1), (0x2488, 0x2490, 1),
    (0x24EA, 0x24EA, 0), (0x24F5, 0x24FD, 1), (0x24FF, 0x24FF, 0), (0x2776, 0x277E, 1),
    (0x2780, 0x2788, 1), (0x278A, 0x2792, 1), (0xA620, 0xA629, 0), (0xA8D0, 0xA8D9, 0),
    (0xA900, 0xA909, 0), (0xA9D0, 0xA9D9, 0), (0xA9F0, 0xA9F9, 0), (0xAA50, 0xAA59, 0),
    (0xABF0, 0xABF9, 0), (0xFF10, 0xFF19, 0)]

def digitValue (c : UInt16) : Option ℕ :=
  (digitRanges.find? fun r => r.1 ≤ c && c ≤ r.2.1).map fun r => r.2.2 + (c.toNat - r.1.toNat)

def markerNumber : QString → Option (ℕ × ℕ)
  | [] => none
  | c :: rest =>
      match digitValue c, rest.head?.bind digitValue with
      | none, _ => none
      | some d, none => some (d, 1)
      | some d, some e => some (10 * d + e, 2)

def markerAt : QString → Option (ℕ × ℕ)
  | [] => none
  | c :: rest =>
      if c ≠ percent then none
      else if rest.head? = some letterL then
        (markerNumber rest.tail).map fun m => (m.1, m.2 + 2)
      else (markerNumber rest).map fun m => (m.1, m.2 + 1)

/-- The numbers of the markers, which `findArgEscapes()` looks for. -/
def numbers : QString → List ℕ
  | [] => []
  | c :: rest => ((markerAt (c :: rest)).map Prod.fst).toList ++ numbers rest

/-- `replaceArgEscapes()` with the characters of a replaced marker that are still to be skipped. -/
def replace (n : ℕ) (a : QString) : ℕ → QString → QString
  | _, [] => []
  | skip + 1, _ :: rest => replace n a skip rest
  | 0, c :: rest =>
      match markerAt (c :: rest) with
      | none => c :: replace n a 0 rest
      | some (m, length) =>
          if m = n then a ++ replace n a (length - 1) rest else c :: replace n a 0 rest

/-- `QString::arg()`. A text without markers stays as it is. -/
def arg (s a : QString) : QString :=
  match (numbers s).min? with
  | none => s
  | some n => replace n a 0 s

def Apart (s : QString) : Prop := ∀ c, s.head? = some c → digitValue c = none ∧ c ≠ letterL

/-- No marker has a number up to `n`. -/
def Unmarked (n : ℕ) (s : QString) : Prop := ∀ m ∈ numbers s, n < m

instance (n : ℕ) (s : QString) : Decidable (Unmarked n s) := by
  unfold Unmarked
  infer_instance

section Markers

variable {s t a front back : QString} {c : UInt16} {n m d skip : ℕ}

theorem Apart.nil : Apart [] := fun _ h => by cases h

theorem Apart.cons (hdigit : digitValue c = none) (hL : c ≠ letterL) : Apart (c :: s) := by
  intro d hd
  obtain rfl := Option.some.inj hd
  exact ⟨hdigit, hL⟩

theorem Apart.head (h : Apart s) : s.head?.bind digitValue = none := by
  cases s with
  | nil => rfl
  | cons c s => exact (h c rfl).1

theorem markerNumber_of_apart (h : Apart s) : markerNumber s = none := by
  cases s with
  | nil => rfl
  | cons c s => rw [markerNumber, (h c rfl).1]

theorem markerNumber_append (h : Apart t) : markerNumber (s ++ t) = markerNumber s := by
  cases s with
  | nil => exact markerNumber_of_apart h
  | cons c s =>
    cases s with
    | nil =>
      rw [List.cons_append, List.nil_append, markerNumber, h.head, markerNumber]
      rfl
    | cons d s => rfl

/-- What comes after a marker does not change it. -/
theorem markerAt_append (h : Apart t) : markerAt (c :: s ++ t) = markerAt (c :: s) := by
  cases s with
  | nil =>
    rw [List.cons_append, List.nil_append, markerAt, markerAt, markerNumber_of_apart h,
      if_neg (fun hL => (h letterL hL).2 rfl)]
    rfl
  | cons d s =>
    rw [List.cons_append, markerAt, markerAt, markerNumber_append h]
    by_cases hL : d = letterL
    · rw [List.cons_append, List.tail_cons, List.tail_cons, markerNumber_append h]
      rfl
    · have hd : (d :: s ++ t).head? ≠ some letterL := fun heq => hL (Option.some.inj heq)
      have hd' : (d :: s).head? ≠ some letterL := fun heq => hL (Option.some.inj heq)
      rw [if_neg hd, if_neg hd']

theorem markerNumber_length (h : markerNumber s = some (n, d)) : 0 < d ∧ d ≤ s.length := by
  cases s with
  | nil => cases h
  | cons c s =>
    rw [markerNumber] at h
    split at h
    · cases h
    · obtain ⟨_, rfl⟩ := Prod.mk.inj (Option.some.inj h)
      simp
    · rename_i hsecond
      obtain ⟨_, rfl⟩ := Prod.mk.inj (Option.some.inj h)
      cases s with
      | nil => cases hsecond
      | cons d s => simp

theorem markerAt_length (h : markerAt s = some (n, d)) : 0 < d ∧ d ≤ s.length := by
  cases s with
  | nil => cases h
  | cons c s =>
    rw [markerAt] at h
    split_ifs at h with hpercent hL
    · obtain ⟨⟨k, j⟩, hnumber, heq⟩ := Option.map_eq_some_iff.mp h
      obtain ⟨_, rfl⟩ := Prod.mk.inj heq
      have hlength := markerNumber_length hnumber
      rw [List.length_tail] at hlength
      rw [List.length_cons]
      omega
    · obtain ⟨⟨k, j⟩, hnumber, heq⟩ := Option.map_eq_some_iff.mp h
      obtain ⟨_, rfl⟩ := Prod.mk.inj heq
      have hlength := markerNumber_length hnumber
      rw [List.length_cons]
      omega

theorem numbers_append (h : Apart t) : numbers (s ++ t) = numbers s ++ numbers t := by
  induction s with
  | nil => rfl
  | cons c s ih =>
    rw [List.cons_append, numbers, ← List.cons_append, markerAt_append h, ih, numbers,
      List.append_assoc]

theorem markerAt_plain (h : c ≠ percent) : markerAt (c :: s) = none := by
  rw [markerAt, if_pos h]

theorem numbers_plain_append (h : percent ∉ s) : numbers (s ++ t) = numbers t := by
  induction s with
  | nil => rfl
  | cons c s ih =>
    rw [List.cons_append, numbers, markerAt_plain (Ne.symm (List.ne_of_not_mem_cons h)),
      ih (List.not_mem_of_not_mem_cons h)]
    rfl

theorem numbers_plain (h : percent ∉ s) : numbers s = [] := by
  simpa [numbers] using numbers_plain_append (t := []) h

theorem replace_append (h : Apart t) (hskip : skip ≤ s.length) :
    replace n a skip (s ++ t) = replace n a skip s ++ replace n a 0 t := by
  induction s generalizing skip with
  | nil =>
    obtain rfl : skip = 0 := by simpa using hskip
    rw [List.nil_append, replace, List.nil_append]
  | cons c s ih =>
    cases skip with
    | succ skip =>
      rw [List.cons_append, replace, replace, ih (by simpa using hskip)]
    | zero =>
      rw [List.cons_append, replace, ← List.cons_append, markerAt_append h, replace]
      cases hmarker : markerAt (c :: s) with
      | none => rw [ih (Nat.zero_le _), List.cons_append]
      | some marker =>
        obtain ⟨m, d⟩ := marker
        have hlength := markerAt_length hmarker
        rw [List.length_cons] at hlength
        by_cases hm : m = n
        · simp only [if_pos hm]
          rw [ih (by omega), List.append_assoc]
        · simp only [if_neg hm]
          rw [ih (Nat.zero_le _), List.cons_append]

theorem replace_of_notMem (h : n ∉ numbers s) : replace n a 0 s = s := by
  induction s with
  | nil => rfl
  | cons c s ih =>
    rw [numbers, List.mem_append, not_or] at h
    rw [replace, ih h.2]
    cases hmarker : markerAt (c :: s) with
    | none => rfl
    | some marker =>
      obtain ⟨m, d⟩ := marker
      have hm : m ≠ n := by
        rintro rfl
        rw [hmarker] at h
        exact h.1 (by simp)
      exact if_neg hm

theorem markerAt_digit (hdigit : digitValue c = some n) (hL : c ≠ letterL) (h : Apart s) :
    markerAt (percent :: c :: s) = some (n, 2) := by
  have hhead : (c :: s).head? ≠ some letterL := fun heq => hL (Option.some.inj heq)
  rw [markerAt, if_neg (not_not.mpr rfl), if_neg hhead, markerNumber, hdigit, h.head]
  rfl

theorem percent_apart : Apart (percent :: s) := Apart.cons (by decide) (by decide)

theorem numbers_digit (hdigit : digitValue c = some n) (hL : c ≠ letterL) (hc : c ≠ percent)
    (h : Apart s) : numbers (percent :: c :: s) = n :: numbers s := by
  rw [numbers, markerAt_digit hdigit hL h, numbers, markerAt_plain hc]
  rfl

theorem Unmarked.of_plain (h : percent ∉ s) : Unmarked n s := by
  rw [Unmarked, numbers_plain h]
  exact fun m hm => by cases hm

theorem Unmarked.mono (h : Unmarked n s) (hle : m ≤ n) : Unmarked m s :=
  fun k hk => hle.trans_lt (h k hk)

theorem Unmarked.append (hs : Unmarked n s) (ht : Unmarked n t) (h : Apart t) :
    Unmarked n (s ++ t) := by
  rw [Unmarked, numbers_append h]
  exact List.forall_mem_append.mpr ⟨hs, ht⟩

theorem Unmarked.plain_append (hs : percent ∉ s) (ht : Unmarked n t) : Unmarked n (s ++ t) := by
  rwa [Unmarked, numbers_plain_append hs]

theorem Unmarked.notMem (h : Unmarked n s) : n ∉ numbers s := fun hmem =>
  absurd (h n hmem) (lt_irrefl n)

/-- The lowest marker takes the argument, and nothing else changes. -/
theorem arg_digit (front a back : QString) (hdigit : digitValue c = some n) (hL : c ≠ letterL)
    (hc : c ≠ percent) (happart : Apart back) (hfront : Unmarked n front)
    (hback : Unmarked n back) : arg (front ++ percent :: c :: back) a = front ++ a ++ back := by
  have hnumbers : numbers (front ++ percent :: c :: back) =
      numbers front ++ n :: numbers back := by
    rw [numbers_append percent_apart, numbers_digit hdigit hL hc happart]
  have hmin : (numbers (front ++ percent :: c :: back)).min? = some n := by
    rw [hnumbers, List.min?_eq_some_iff]
    refine ⟨by simp, fun m hm => ?_⟩
    rcases List.mem_append.mp hm with hm | hm
    · exact (hfront m hm).le
    · rcases List.mem_cons.mp hm with rfl | hm
      · exact le_rfl
      · exact (hback m hm).le
  rw [arg, hmin]
  show replace n a 0 (front ++ percent :: c :: back) = front ++ a ++ back
  rw [replace_append percent_apart (Nat.zero_le _), replace_of_notMem hfront.notMem, replace,
    markerAt_digit hdigit hL happart]
  simp only [if_true, Nat.add_one_sub_one]
  rw [replace, replace_of_notMem hback.notMem, List.append_assoc]

/-- A replaced marker takes its percent sign with it. -/
theorem count_replace_le (ha : percent ∉ a) (skip : ℕ) (s : QString) :
    (replace n a skip s).count percent ≤ s.count percent := by
  induction s generalizing skip with
  | nil => cases skip <;> exact le_rfl
  | cons c s ih =>
    have hskipped (k : ℕ) : (replace n a k s).count percent ≤ (c :: s).count percent :=
      (ih k).trans (List.Sublist.count_le _ (List.sublist_cons_self c s))
    have hkept : (c :: replace n a 0 s).count percent ≤ (c :: s).count percent := by
      rw [List.count_cons, List.count_cons]
      exact Nat.add_le_add_right (ih 0) _
    cases skip with
    | succ skip => exact hskipped skip
    | zero =>
      rw [replace]
      cases markerAt (c :: s) with
      | none => exact hkept
      | some marker =>
        obtain ⟨m, d⟩ := marker
        by_cases hm : m = n
        · simp only [if_pos hm]
          rw [List.count_append, List.count_eq_zero_of_not_mem ha, Nat.zero_add]
          exact hskipped _
        · simp only [if_neg hm]
          exact hkept

theorem eq_percent_of_markerAt (h : markerAt (c :: s) = some (m, d)) : c = percent := by
  by_contra hc
  rw [markerAt_plain hc] at h
  cases h

theorem count_replace_lt (ha : percent ∉ a) (h : n ∈ numbers s) :
    (replace n a 0 s).count percent < s.count percent := by
  induction s with
  | nil => cases h
  | cons c s ih =>
    rw [numbers, List.mem_append] at h
    have hkept (hmem : n ∈ numbers s) :
        (c :: replace n a 0 s).count percent < (c :: s).count percent := by
      rw [List.count_cons, List.count_cons]
      exact Nat.add_lt_add_right (ih hmem) _
    rw [replace]
    cases hmarker : markerAt (c :: s) with
    | none =>
      rw [hmarker] at h
      exact hkept (h.resolve_left (by simp))
    | some marker =>
      obtain ⟨m, d⟩ := marker
      by_cases hm : m = n
      · simp only [if_pos hm]
        rw [List.count_append, List.count_eq_zero_of_not_mem ha, Nat.zero_add,
          eq_percent_of_markerAt hmarker, List.count_cons_self]
        exact Nat.lt_succ_of_le (count_replace_le ha _ s)
      · simp only [if_neg hm]
        rw [hmarker] at h
        exact hkept (h.resolve_left (by simpa using Ne.symm hm))

end Markers

end SnapCpp.PlaceMarkers
