import SnapCpp.Utf

/-!
The checks of `snap_utf8.cpp` on strings that end with a null byte. Memory is a list of bytes from
the address of the string on, and a byte beyond it cannot be read; a check reads the bytes of one
pattern after another, up to the first byte that does not fit.
-/
namespace SnapCpp.SnapUtf8

open Utf

def inRanges : List UInt8 → List (ℕ × ℕ) → Option Bool
  | _, [] => some true
  | [], _ :: _ => none
  | b :: s, (low, high) :: ranges =>
      if low ≤ b.toNat && b.toNat ≤ high then inRanges s ranges else some false

def follow : ℕ × ℕ := (0x80, 0xBF)

/-- How far `s` is moved, or zero for what is not a supported character. -/
def advance (s : List UInt8) : Option ℕ := do
  if ← inRanges s [(0, 0x7F)] then return 1
  -- non-overlong 2-byte
  if ← inRanges s [(0xC2, 0xDF), follow] then return 2
  -- excluding overlongs
  if ← inRanges s [(0xE0, 0xE0), (0xA0, 0xBF), follow] then return 3
  -- straight 3-byte
  if ← (inRanges s [(0xE1, 0xEC)] <||> inRanges s [(0xEE, 0xEE)] <||> inRanges s [(0xEF, 0xEF)])
      <&&> inRanges s.tail [follow, follow] then return 3
  -- excluding surrogates
  if ← inRanges s [(0xED, 0xED), (0x80, 0x9F), follow] then return 3
  -- planes 1-3
  if ← inRanges s [(0xF0, 0xF0), (0x90, 0xBF), follow, follow] then return 4
  -- planes 4-15
  if ← inRanges s [(0xF1, 0xF3), follow, follow, follow] then return 4
  -- plane 16
  if ← inRanges s [(0xF4, 0xF4), (0x80, 0x8F), follow, follow] then return 4
  return 0

/-- The loop of `is_valid_utf8()`, with the bytes that are left of a character. -/
def validFrom : ℕ → List UInt8 → Option Bool
  | _, [] => none
  | skip + 1, _ :: s => validFrom skip s
  | 0, b :: s =>
      if b = 0 then some true
      else do
        let n ← advance (b :: s)
        if n = 0 then return false else validFrom (n - 1) s

def isValidUtf8 (string : Option (List UInt8)) : Option Bool :=
  match string with
  | none => some true
  | some s => validFrom 0 s

section Ranges

def fits : List UInt8 → List (ℕ × ℕ) → Bool
  | _, [] => true
  | [], _ :: _ => false
  | b :: s, (low, high) :: ranges => low ≤ b.toNat && b.toNat ≤ high && fits s ranges

variable {b t : List UInt8} {ranges : List (ℕ × ℕ)}

theorem inRanges_null (h : ∀ r ∈ ranges, 0 < r.1) :
    inRanges (b ++ 0 :: t) ranges = some (fits b ranges) := by
  induction ranges generalizing b with
  | nil =>
    rw [fits]
    cases b <;> rfl
  | cons r ranges ih =>
    obtain ⟨low, high⟩ := r
    obtain ⟨hlow, hranges⟩ := List.forall_mem_cons.mp h
    cases b with
    | nil =>
      have hnot : ¬ low ≤ (0 : UInt8).toNat := not_le.mpr hlow
      rw [List.nil_append, inRanges, decide_eq_false hnot, Bool.false_and, if_neg (by decide)]
      rfl
    | cons a b =>
      rw [List.cons_append, inRanges, fits]
      split_ifs with ha
      · rw [ha, Bool.true_and, ih hranges]
      · rw [Bool.not_eq_true] at ha
        rw [ha, Bool.false_and]

theorem fits_cons {a : UInt8} {low high : ℕ} : fits (a :: b) ((low, high) :: ranges) = true ↔
    (low ≤ a.toNat ∧ a.toNat ≤ high) ∧ fits b ranges = true := by
  rw [fits, Bool.and_eq_true, Bool.and_eq_true, decide_eq_true_eq, decide_eq_true_eq]

end Ranges

section Characters

variable {a : UInt8} {b s t : List UInt8} {c : Char} {ranges : List (ℕ × ℕ)}

/-- How far `s` is moved in a string whose end is not read past. -/
def width (b : List UInt8) : ℕ :=
  if fits b [(0, 0x7F)] then 1
  else if fits b [(0xC2, 0xDF), follow] then 2
  else if fits b [(0xE0, 0xE0), (0xA0, 0xBF), follow] then 3
  else if (fits b [(0xE1, 0xEC)] || (fits b [(0xEE, 0xEE)] || fits b [(0xEF, 0xEF)])) &&
      fits b.tail [follow, follow] then 3
  else if fits b [(0xED, 0xED), (0x80, 0x9F), follow] then 3
  else if fits b [(0xF0, 0xF0), (0x90, 0xBF), follow, follow] then 4
  else if fits b [(0xF1, 0xF3), follow, follow, follow] then 4
  else if fits b [(0xF4, 0xF4), (0x80, 0x8F), follow, follow] then 4
  else 0

theorem advance_null : advance (a :: b ++ 0 :: t) = some (width (a :: b)) := by
  have hfirst : inRanges (a :: b ++ 0 :: t) [(0, 0x7F)] = some (fits (a :: b) [(0, 0x7F)]) := by
    rw [List.cons_append, inRanges, fits]
    split_ifs with ha
    · rw [ha]
      cases b <;> rfl
    · rw [Bool.not_eq_true] at ha
      rw [ha]
      rfl
  have htail : (a :: b ++ 0 :: t).tail = b ++ 0 :: t := rfl
  have hor : ∀ p q : Bool, (some p <||> some q) = some (p || q) := by
    intro p q
    cases p <;> rfl
  have hand : ∀ p q : Bool, (some p <&&> some q) = some (p && q) := by
    intro p q
    cases p <;> rfl
  rw [advance, hfirst, htail]
  simp (disch := decide) only [inRanges_null, hor, hand, Option.bind_eq_bind, Option.bind_some]
  rw [width, List.tail_cons]
  split_ifs
  all_goals rfl

theorem exists_of_fits {low high : ℕ} (h : fits b ((low, high) :: ranges) = true) :
    ∃ a s, b = a :: s ∧ (low ≤ a.toNat ∧ a.toNat ≤ high) ∧ fits s ranges = true := by
  cases b with
  | nil => cases h
  | cons a s => exact ⟨a, s, rfl, fits_cons.mp h⟩

theorem exists_of_fits_follow (h : fits b (follow :: ranges) = true) :
    ∃ a s, b = a :: s ∧ isNext a = true ∧ fits s ranges = true := by
  obtain ⟨a, s, rfl, ha, hs⟩ := exists_of_fits h
  exact ⟨a, s, rfl, isNext_iff.mpr ⟨ha.1, Nat.lt_succ_of_le ha.2⟩, hs⟩

/-- A string that starts with a character of `n` bytes. -/
def StartsWith (b : List UInt8) (n : ℕ) : Prop :=
  ∃ (c : Char) (s : List UInt8), b = utf8Char c ++ s ∧ (utf8Char c).length = n

theorem startsWith_three {a x y : UInt8} (ha : 0xE0 ≤ a.toNat ∧ a.toNat ≤ 0xEF)
    (hx : isNext x = true) (hy : isNext y = true) (hlong : a.toNat = 0xE0 → 0xA0 ≤ x.toNat)
    (hsurrogate : a.toNat = 0xED → x.toNat ≤ 0x9F) (s : List UInt8) :
    StartsWith (a :: x :: y :: s) 3 := by
  have hx' := isNext_iff.mp hx
  have hy' := isNext_iff.mp hy
  have hvalid : ((a.toNat % 0x10 * 0x40 + x.toNat % 0x40) * 0x40 + y.toNat % 0x40).isValidChar := by
    rw [Nat.isValidChar]
    omega
  have hcode := toNat_ofNat hvalid
  have hchar := utf8Char_three ha.1 (Nat.lt_succ_of_le ha.2) hx hy hcode (by omega)
  exact ⟨_, s, by rw [hchar]; rfl, by rw [hchar]; rfl⟩

theorem startsWith_four {a x y z : UInt8} (ha : 0xF0 ≤ a.toNat ∧ a.toNat ≤ 0xF4)
    (hx : isNext x = true) (hy : isNext y = true) (hz : isNext z = true)
    (hlong : a.toNat = 0xF0 → 0x90 ≤ x.toNat) (hlarge : a.toNat = 0xF4 → x.toNat ≤ 0x8F)
    (s : List UInt8) : StartsWith (a :: x :: y :: z :: s) 4 := by
  have hx' := isNext_iff.mp hx
  have hy' := isNext_iff.mp hy
  have hz' := isNext_iff.mp hz
  have hvalid : (((a.toNat % 0x08 * 0x40 + x.toNat % 0x40) * 0x40 + y.toNat % 0x40) * 0x40 +
      z.toNat % 0x40).isValidChar := by
    rw [Nat.isValidChar]
    omega
  have hcode := toNat_ofNat hvalid
  have hchar := utf8Char_four ha.1 (by omega) hx hy hz hcode (by omega)
  exact ⟨_, s, by rw [hchar]; rfl, by rw [hchar]; rfl⟩

theorem startsWith_of_fits {first last low high : ℕ}
    (h : fits b [(first, last), (low, high), follow, follow] = true)
    (hfirst : 0xF0 ≤ first ∧ last ≤ 0xF4) (hsecond : 0x80 ≤ low ∧ high ≤ 0xBF)
    (hlong : first = 0xF0 → 0x90 ≤ low) (hlarge : last = 0xF4 → high ≤ 0x8F) :
    StartsWith b 4 := by
  obtain ⟨a, s, rfl, ha, h⟩ := exists_of_fits h
  obtain ⟨x, s, rfl, hx, h⟩ := exists_of_fits h
  obtain ⟨y, s, rfl, hy, h⟩ := exists_of_fits_follow h
  obtain ⟨z, s, rfl, hz, -⟩ := exists_of_fits_follow h
  exact startsWith_four (by omega) (isNext_iff.mpr (by omega)) hy hz (by omega) (by omega) s

theorem startsWith_width (h : width b ≠ 0) : StartsWith b (width b) := by
  revert h
  rw [width]
  split_ifs with hone htwo hoverlong hstraight hsurrogate hplane hplanes hlast
  · intro _
    obtain ⟨a, s, rfl, ha, -⟩ := exists_of_fits hone
    have hcode := toNat_ofNat (n := a.toNat) (Or.inl (by omega))
    have hchar : utf8Char (Char.ofNat a.toNat) = [a] := by
      rw [utf8Char, hcode, if_pos (by omega), toUInt8_eq rfl]
    exact ⟨_, s, by rw [hchar]; rfl, by rw [hchar]; rfl⟩
  · intro _
    obtain ⟨a, s, rfl, ha, htwo⟩ := exists_of_fits htwo
    obtain ⟨x, s, rfl, hx, -⟩ := exists_of_fits_follow htwo
    have hx' := isNext_iff.mp hx
    have hcode := toNat_ofNat (n := a.toNat % 0x20 * 0x40 + x.toNat % 0x40) (Or.inl (by omega))
    have hchar := utf8Char_two (by omega) (by omega) hx hcode (by omega)
    exact ⟨_, s, by rw [hchar]; rfl, by rw [hchar]; rfl⟩
  · intro _
    obtain ⟨a, s, rfl, ha, hoverlong⟩ := exists_of_fits hoverlong
    obtain ⟨x, s, rfl, hx, hoverlong⟩ := exists_of_fits hoverlong
    obtain ⟨y, s, rfl, hy, -⟩ := exists_of_fits_follow hoverlong
    exact startsWith_three (by omega) (isNext_iff.mpr (by omega)) hy (by omega) (by omega) s
  · intro _
    rw [Bool.and_eq_true, Bool.or_eq_true, Bool.or_eq_true] at hstraight
    obtain ⟨hfirst, hrest⟩ := hstraight
    obtain ⟨x, s, htail, hx, hrest⟩ := exists_of_fits_follow hrest
    obtain ⟨y, s, rfl, hy, -⟩ := exists_of_fits_follow hrest
    obtain ⟨a, rfl⟩ : ∃ a, b = a :: x :: y :: s := by
      cases b with
      | nil => cases htail
      | cons a b => exact ⟨a, congrArg (a :: ·) htail⟩
    have ha : 0xE1 ≤ a.toNat ∧ a.toNat ≤ 0xEF ∧ a.toNat ≠ 0xED := by
      rcases hfirst with ha | ha | ha
      all_goals
        have ha := (fits_cons.mp ha).1
        omega
    exact startsWith_three (by omega) hx hy (by omega) (by omega) s
  · intro _
    obtain ⟨a, s, rfl, ha, hsurrogate⟩ := exists_of_fits hsurrogate
    obtain ⟨x, s, rfl, hx, hsurrogate⟩ := exists_of_fits hsurrogate
    obtain ⟨y, s, rfl, hy, -⟩ := exists_of_fits_follow hsurrogate
    exact startsWith_three (by omega) (isNext_iff.mpr (by omega)) hy (by omega) (by omega) s
  · exact fun _ => startsWith_of_fits hplane (by decide) (by decide) (by decide) (by decide)
  · exact fun _ => startsWith_of_fits hplanes (by decide) (by decide) (by decide) (by decide)
  · exact fun _ => startsWith_of_fits hlast (by decide) (by decide) (by decide) (by decide)
  · exact fun h => absurd rfl h

theorem fits_follow {a : UInt8} :
    fits (a :: b) (follow :: ranges) = true ↔ isNext a = true ∧ fits b ranges = true := by
  rw [follow, fits_cons, isNext_iff, Nat.lt_succ_iff]

/-- The patterns that a string does not fit where it is not accepted. -/
structure Refused (b : List UInt8) : Prop where
  one : ¬ fits b [(0, 0x7F)] = true
  two : ¬ fits b [(0xC2, 0xDF), follow] = true
  overlong : ¬ fits b [(0xE0, 0xE0), (0xA0, 0xBF), follow] = true
  straight : ¬ ((fits b [(0xE1, 0xEC)] || (fits b [(0xEE, 0xEE)] || fits b [(0xEF, 0xEF)])) &&
    fits b.tail [follow, follow]) = true
  surrogate : ¬ fits b [(0xED, 0xED), (0x80, 0x9F), follow] = true
  plane : ¬ fits b [(0xF0, 0xF0), (0x90, 0xBF), follow, follow] = true
  planes : ¬ fits b [(0xF1, 0xF3), follow, follow, follow] = true
  last : ¬ fits b [(0xF4, 0xF4), (0x80, 0x8F), follow, follow] = true

theorem refused_of_width (h : width b = 0) : Refused b := by
  rw [width] at h
  split_ifs at h with hone htwo hoverlong hstraight hsurrogate hplane hplanes hlast
  exact ⟨hone, htwo, hoverlong, hstraight, hsurrogate, hplane, hplanes, hlast⟩

theorem fits_nil : fits b [] = true := by
  cases b <;> rfl

theorem width_ne_zero (c : Char) (s : List UInt8) : width (utf8Char c ++ s) ≠ 0 := by
  intro hzero
  have hrefused := refused_of_width hzero
  have hc := char_lt c
  rw [utf8Char] at hrefused
  split_ifs at hrefused with hone htwo hthree
  · have h₁ := toNat_toUInt8 (n := c.toNat) (by omega)
    exact hrefused.one (fits_cons.mpr ⟨by omega, fits_nil⟩)
  · have h₁ := toNat_toUInt8 (n := 0xC0 + c.toNat / 0x40) (by omega)
    exact hrefused.two (fits_cons.mpr ⟨by omega, fits_follow.mpr ⟨isNext_continued _,
      fits_nil⟩⟩)
  · have h₁ := toNat_toUInt8 (n := 0xE0 + c.toNat / 0x1000) (by omega)
    have hoverlong := hrefused.overlong
    have hstraight := hrefused.straight
    have hsurrogate := hrefused.surrogate
    simp only [List.cons_append, List.tail_cons, Bool.and_eq_true, Bool.or_eq_true, fits_cons,
      fits_follow, fits_nil, isNext_continued, and_true, h₁, toNat_continued]
      at hoverlong hstraight hsurrogate
    omega
  · have h₁ := toNat_toUInt8 (n := 0xF0 + c.toNat / 0x40000) (by omega)
    have hplane := hrefused.plane
    have hplanes := hrefused.planes
    have hlast := hrefused.last
    simp only [List.cons_append, fits_cons, fits_follow, fits_nil, isNext_continued,
      and_true, h₁, toNat_continued] at hplane hplanes hlast
    omega

theorem utf8Char_append_inj {c' : Char} (h : utf8Char c ++ s = utf8Char c' ++ t) :
    c = c' ∧ s = t := by
  obtain ⟨a, rest, heq, hfirst⟩ := firstChar_utf8 c s
  obtain ⟨a', rest', heq', hfirst'⟩ := firstChar_utf8 c' t
  have hsame : a :: (rest ++ s) = a' :: (rest' ++ t) := heq.symm.trans (h.trans heq')
  obtain ⟨rfl, hrest⟩ := List.cons.inj hsame
  rw [hrest, hfirst'] at hfirst
  obtain rfl := congrArg Prod.fst hfirst
  exact ⟨rfl, List.append_cancel_left h⟩

end Characters

section Strings

variable {b t : List UInt8}

theorem validFrom_append (p s : List UInt8) : validFrom p.length (p ++ s) = validFrom 0 s := by
  induction p with
  | nil => rfl
  | cons a p ih => exact ih

/-- The loop returns whether the bytes before the null byte are characters. -/
theorem validFrom_null (h : 0 ∉ b) : ∃ r, validFrom 0 (b ++ 0 :: t) = some r ∧
    (r = true ↔ ∃ cs : List Char, b = utf8 cs) := by
  induction hlength : b.length using Nat.strong_induction_on generalizing b with
  | _ n ih =>
    cases b with
    | nil => exact ⟨true, rfl, iff_of_true rfl ⟨[], rfl⟩⟩
    | cons a b =>
      have ha : ¬ a = 0 := fun ha => h (ha ▸ List.mem_cons_self)
      have hstep : validFrom 0 (a :: b ++ 0 :: t) = if width (a :: b) = 0 then some false
          else validFrom (width (a :: b) - 1) (b ++ 0 :: t) := by
        have hadvance := advance_null (a := a) (b := b) (t := t)
        rw [List.cons_append] at hadvance ⊢
        rw [validFrom, if_neg ha, hadvance]
        rfl
      rw [hstep]
      split_ifs with hzero
      · refine ⟨false, rfl, iff_of_false Bool.false_ne_true ?_⟩
        rintro ⟨cs, hcs⟩
        cases cs with
        | nil => cases hcs
        | cons c cs =>
          rw [hcs] at hzero
          exact width_ne_zero c _ hzero
      · obtain ⟨c, s, hb, hwidth⟩ := startsWith_width hzero
        obtain ⟨first, rest, hchar⟩ : ∃ first rest, utf8Char c = first :: rest := by
          refine List.exists_cons_of_ne_nil fun hnil => hzero ?_
          rw [← hwidth, hnil, List.length_nil]
        have hsame : a :: b = first :: (rest ++ s) := by rw [hb, hchar, List.cons_append]
        obtain ⟨rfl, rfl⟩ := List.cons.inj hsame
        rw [← hwidth, hchar, List.length_cons, Nat.add_sub_cancel, List.append_assoc,
          validFrom_append]
        have hs : 0 ∉ s := fun hmem => h (List.mem_cons_of_mem _ (List.mem_append_right _ hmem))
        obtain ⟨r, hrun, hr⟩ := ih s.length
          (by rw [← hlength, List.length_cons, List.length_append]; omega) hs rfl
        refine ⟨r, hrun, hr.trans ?_⟩
        rw [hb]
        constructor
        · rintro ⟨cs, rfl⟩
          exact ⟨c :: cs, rfl⟩
        · rintro ⟨cs, hcs⟩
          cases cs with
          | nil =>
            rw [hchar] at hcs
            cases hcs
          | cons c' cs => exact ⟨cs, (utf8Char_append_inj hcs).2⟩

/-- The function accepts UTF-8 before the null byte and reads nothing after it: `t` may be empty. -/
theorem isValidUtf8_iff (h : 0 ∉ b) : ∃ r, isValidUtf8 (some (b ++ 0 :: t)) = some r ∧
    (r = true ↔ ∃ cs : List Char, b = utf8 cs) :=
  validFrom_null h

theorem isValidUtf8_accent : ∃ r, isValidUtf8 (some ([0xC3, 0xA9] ++ 0 :: [])) = some r ∧
    (r = true ↔ ∃ cs : List Char, [0xC3, 0xA9] = utf8 cs) :=
  isValidUtf8_iff (by decide)

end Strings

end SnapCpp.SnapUtf8
