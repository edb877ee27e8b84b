import SnapCpp.QString

/-!
The two encodings of a text that strings go through: 16 bit code units in a
`QString` and bytes in a `std::string`. A text is a list of characters. Both
encodings write an ASCII character as one unit and any other character without
ASCII units, which is all that replacing ASCII patterns depends on.
-/
namespace SnapCpp.Utf

/-- The code units of a character, two for those beyond the first plane. -/
def utf16Char (c : Char) : List UInt16 :=
  if c.toNat < 0x10000 then [c.toNat.toUInt16]
  else [(0xD800 + (c.toNat - 0x10000) / 0x400).toUInt16,
    (0xDC00 + (c.toNat - 0x10000) % 0x400).toUInt16]

def utf8Char (c : Char) : List UInt8 :=
  if c.toNat < 0x80 then [c.toNat.toUInt8]
  else if c.toNat < 0x800 then [(0xC0 + c.toNat / 0x40).toUInt8, (0x80 + c.toNat % 0x40).toUInt8]
  else if c.toNat < 0x10000 then [(0xE0 + c.toNat / 0x1000).toUInt8,
    (0x80 + c.toNat / 0x40 % 0x40).toUInt8, (0x80 + c.toNat % 0x40).toUInt8]
  else [(0xF0 + c.toNat / 0x40000).toUInt8, (0x80 + c.toNat / 0x1000 % 0x40).toUInt8,
    (0x80 + c.toNat / 0x40 % 0x40).toUInt8, (0x80 + c.toNat % 0x40).toUInt8]

def utf16 (cs : List Char) : QString := cs.flatMap utf16Char

def utf8 (cs : List Char) : List UInt8 := cs.flatMap utf8Char

def isHigh (u : UInt16) : Bool := 0xD800 ≤ u.toNat && u.toNat < 0xDC00

def isLow (u : UInt16) : Bool := 0xDC00 ≤ u.toNat && u.toNat < 0xE000

/-- A code unit on its own; half a pair is written as a question mark. -/
def unitChar (u : UInt16) : Char := if isHigh u || isLow u then '?' else Char.ofNat u.toNat

def pairChar (u v : UInt16) : Char :=
  Char.ofNat (0x10000 + (u.toNat - 0xD800) * 0x400 + (v.toNat - 0xDC00))

def chars : QString → List Char
  | [] => []
  | [u] => [unitChar u]
  | u :: v :: rest =>
      if isHigh u && isLow v then pairChar u v :: chars rest
      else unitChar u :: chars (v :: rest)

def toUtf8 (s : QString) : List UInt8 := utf8 (chars s)

def replacement : Char × ℕ := (Char.ofNat 0xFFFD, 0)

def isNext (b : UInt8) : Bool := 0x80 ≤ b.toNat && b.toNat < 0xC0

/-- A code point, unless its sequence is too long for it or it is no character,
and the number of bytes after the first one. -/
def checkedChar (least code length : ℕ) : Char × ℕ :=
  if least ≤ code ∧ code.isValidChar then (Char.ofNat code, length) else replacement

/-- The character at the front of some bytes and how many bytes follow the first one. -/
def firstChar (a : UInt8) (rest : List UInt8) : Char × ℕ :=
  if a.toNat < 0x80 then (Char.ofNat a.toNat, 0)
  else if a.toNat < 0xC2 then replacement
  else if a.toNat < 0xE0 then
    match rest with
    | b :: _ => if isNext b then
        checkedChar 0x80 (a.toNat % 0x20 * 0x40 + b.toNat % 0x40) 1 else replacement
    | _ => replacement
  else if a.toNat < 0xF0 then
    match rest with
    | b :: c :: _ => if isNext b && isNext c then
        checkedChar 0x800 ((a.toNat % 0x10 * 0x40 + b.toNat % 0x40) * 0x40 + c.toNat % 0x40) 2
        else replacement
    | _ => replacement
  else if a.toNat < 0xF5 then
    match rest with
    | b :: c :: d :: _ => if isNext b && isNext c && isNext d then
        checkedChar 0x10000 (((a.toNat % 0x08 * 0x40 + b.toNat % 0x40) * 0x40 +
          c.toNat % 0x40) * 0x40 + d.toNat % 0x40) 3
        else replacement
    | _ => replacement
  else replacement

/-- The characters of some bytes, the first ones of which belong to a character already read. -/
def decodeFrom : ℕ → List UInt8 → List Char
  | _, [] => []
  | n + 1, _ :: rest => decodeFrom n rest
  | 0, a :: rest => (firstChar a rest).1 :: decodeFrom (firstChar a rest).2 rest

def byteOrderMark : Char := Char.ofNat 0xFEFF

def skipMark : List Char → List Char
  | [] => []
  | c :: rest => if c = byteOrderMark then rest else c :: rest

def fromUtf8 (b : List UInt8) : QString := utf16 (skipMark (decodeFrom 0 b))

variable {n : ℕ} {c : Char} {cs : List Char} {u : UInt16} {s : QString}

theorem toNat_toUInt16 (h : n < 0x10000) : n.toUInt16.toNat = n := by
  simpa [Nat.toUInt16] using h

theorem toNat_toUInt8 (h : n < 0x100) : n.toUInt8.toNat = n := by
  simpa [Nat.toUInt8] using h

theorem char_lt (c : Char) : c.toNat < 0xD800 ∨ 0xDFFF < c.toNat ∧ c.toNat < 0x110000 := c.valid

theorem ofNat_of_eq (h : n = c.toNat) : Char.ofNat n = c := by
  rw [h, Char.ofNat_toNat]

theorem toNat_ofNat (h : n.isValidChar) : (Char.ofNat n).toNat = n := by
  unfold Char.ofNat
  rw [dif_pos h]
  rfl

/-- The characters of the code units of a text. -/
theorem chars_utf16Char_append (c : Char) (s : QString) :
    chars (utf16Char c ++ s) = c :: chars s := by
  have hc := char_lt c
  unfold utf16Char
  split_ifs with hplane
  · have hnat : c.toNat.toUInt16.toNat = c.toNat := toNat_toUInt16 hplane
    have hhigh : isHigh c.toNat.toUInt16 = false := by
      simp only [isHigh, hnat, Bool.and_eq_false_iff, decide_eq_false_iff_not]
      omega
    have hlow : isLow c.toNat.toUInt16 = false := by
      simp only [isLow, hnat, Bool.and_eq_false_iff, decide_eq_false_iff_not]
      omega
    have hunit : unitChar c.toNat.toUInt16 = c := by
      simp [unitChar, hhigh, hlow, hnat]
    cases s with
    | nil => simp [chars, hunit]
    | cons v rest => simp [chars, hhigh, hunit]
  · have hfirst : (0xD800 + (c.toNat - 0x10000) / 0x400).toUInt16.toNat =
        0xD800 + (c.toNat - 0x10000) / 0x400 := toNat_toUInt16 (by omega)
    have hsecond : (0xDC00 + (c.toNat - 0x10000) % 0x400).toUInt16.toNat =
        0xDC00 + (c.toNat - 0x10000) % 0x400 := toNat_toUInt16 (by omega)
    have hhigh : isHigh (0xD800 + (c.toNat - 0x10000) / 0x400).toUInt16 = true := by
      simp only [isHigh, hfirst, Bool.and_eq_true, decide_eq_true_eq]
      omega
    have hlow : isLow (0xDC00 + (c.toNat - 0x10000) % 0x400).toUInt16 = true := by
      simp only [isLow, hsecond, Bool.and_eq_true, decide_eq_true_eq]
      omega
    have hpair : pairChar (0xD800 + (c.toNat - 0x10000) / 0x400).toUInt16
        (0xDC00 + (c.toNat - 0x10000) % 0x400).toUInt16 = c := by
      refine ofNat_of_eq ?_
      rw [hfirst, hsecond]
      omega
    simp only [List.cons_append, List.nil_append, chars, hhigh, hlow, hpair, Bool.and_self, if_true]

@[simp] theorem chars_utf16 (cs : List Char) : chars (utf16 cs) = cs := by
  induction cs with
  | nil => rfl
  | cons c rest ih =>
    rw [utf16, List.flatMap_cons, chars_utf16Char_append]
    exact congrArg (List.cons c) ih

theorem utf16_injective {cs' : List Char} (h : utf16 cs = utf16 cs') : cs = cs' := by
  rw [← chars_utf16 cs, h, chars_utf16]

/-- A character of the first plane other than the question mark comes from the
code unit of its own. -/
structure IsUnit (c : Char) : Prop where
  plane : c.toNat < 0x10000
  not_mark : c ≠ '?'

theorem unitChar_eq (hc : IsUnit c) (h : unitChar u = c) :
    u = c.toNat.toUInt16 := by
  unfold unitChar at h
  split_ifs at h with hsurrogate
  · exact absurd h.symm hc.not_mark
  · have hlt := u.toNat_lt
    have hvalid : u.toNat.isValidChar := by
      simp only [isHigh, isLow, Bool.or_eq_true, Bool.and_eq_true, decide_eq_true_eq] at hsurrogate
      simp only [Nat.isValidChar]
      omega
    rw [← h, toNat_ofNat hvalid]
    simp

/-- A pair stands for a character beyond the first plane. -/
theorem pairChar_plane {v : UInt16} (hu : isHigh u = true) (hv : isLow v = true) :
    0x10000 ≤ (pairChar u v).toNat := by
  simp only [isHigh, isLow, Bool.and_eq_true, decide_eq_true_eq] at hu hv
  have hvalid : (0x10000 + (u.toNat - 0xD800) * 0x400 + (v.toNat - 0xDC00)).isValidChar := by
    simp only [Nat.isValidChar]
    omega
  rw [pairChar, toNat_ofNat hvalid]
  omega

theorem pairChar_ne {v : UInt16} (hc : IsUnit c) (hu : isHigh u = true)
    (hv : isLow v = true) : pairChar u v ≠ c := by
  intro heq
  have hplane := hc.plane
  have := pairChar_plane hu hv
  rw [heq] at this
  omega

theorem head_utf16 (hc : IsUnit c) :
    (utf16 cs).head? = some c.toNat.toUInt16 ↔ cs.head? = some c := by
  have hplane := hc.plane
  cases cs with
  | nil => simp [utf16]
  | cons a rest =>
    have ha := char_lt a
    have hvalid := char_lt c
    rw [utf16, List.flatMap_cons, utf16Char, List.head?_cons]
    split_ifs with hlow
    · rw [List.singleton_append, List.head?_cons, Option.some_inj, Option.some_inj]
      refine ⟨fun heq => ?_, fun heq => by rw [heq]⟩
      have hnat := congrArg UInt16.toNat heq
      rw [toNat_toUInt16 hlow, toNat_toUInt16 hplane] at hnat
      exact Char.ext (UInt32.toNat_inj.mp hnat)
    · rw [List.cons_append, List.head?_cons, Option.some_inj, Option.some_inj]
      constructor
      · intro heq
        have hnat := congrArg UInt16.toNat heq
        rw [toNat_toUInt16 (by omega), toNat_toUInt16 hplane] at hnat
        omega
      · rintro rfl
        exact absurd hplane hlow

theorem chars_eq_cons (hc : IsUnit c)
    (h : chars s = c :: cs) : ∃ rest, s = c.toNat.toUInt16 :: rest ∧ chars rest = cs := by
  match s with
  | [] => cases h
  | [u] =>
    obtain ⟨hu, hcs⟩ := List.cons.inj h
    exact ⟨[], by rw [unitChar_eq hc hu], hcs⟩
  | u :: v :: rest =>
    rw [chars] at h
    split_ifs at h with hpair
    · obtain ⟨hu, hv⟩ := Bool.and_eq_true_iff.mp hpair
      exact absurd (List.cons.inj h).1 (pairChar_ne hc hu hv)
    · obtain ⟨hu, hcs⟩ := List.cons.inj h
      exact ⟨v :: rest, by rw [unitChar_eq hc hu], hcs⟩

theorem mem_of_mem_chars (hc : IsUnit c) (h : c ∈ chars s) :
    c.toNat.toUInt16 ∈ s := by
  induction s using chars.induct with
  | case1 => cases h
  | case2 u =>
    rw [unitChar_eq hc (List.mem_singleton.mp h).symm]
    exact List.mem_singleton_self _
  | case3 u v rest hpair ih =>
    rw [chars, if_pos hpair] at h
    rcases List.mem_cons.mp h with h | h
    · obtain ⟨hu, hv⟩ := Bool.and_eq_true_iff.mp hpair
      exact absurd h.symm (pairChar_ne hc hu hv)
    · exact List.mem_cons_of_mem _ (List.mem_cons_of_mem _ (ih h))
  | case4 u v rest hpair ih =>
    rw [chars, if_neg hpair] at h
    rcases List.mem_cons.mp h with h | h
    · rw [← unitChar_eq hc h.symm]
      exact List.mem_cons_self
    · exact List.mem_cons_of_mem _ (ih h)

theorem chars_ne_nil (h : s ≠ []) : chars s ≠ [] := by
  match s with
  | [] => exact absurd rfl h
  | [u] => simp [chars]
  | u :: v :: rest =>
    rw [chars]
    split_ifs <;> simp

theorem last_of_chars (hc : IsUnit c) (h : (chars s).getLast? = some c) :
    s.getLast? = some c.toNat.toUInt16 := by
  induction s using chars.induct with
  | case1 => cases h
  | case2 u => rw [List.getLast?_singleton, unitChar_eq hc (Option.some.inj h)]
  | case3 u v rest hpair ih =>
    rw [chars, if_pos hpair] at h
    by_cases hrest : rest = []
    · subst hrest
      obtain ⟨hu, hv⟩ := Bool.and_eq_true_iff.mp hpair
      exact absurd (Option.some.inj h) (pairChar_ne hc hu hv)
    · rw [List.getLast?_cons_of_ne_nil (chars_ne_nil hrest)] at h
      rw [List.getLast?_cons_of_ne_nil (List.cons_ne_nil v rest),
        List.getLast?_cons_of_ne_nil hrest]
      exact ih h
  | case4 u v rest hpair ih =>
    rw [chars, if_neg hpair, List.getLast?_cons_of_ne_nil (chars_ne_nil (List.cons_ne_nil v rest))]
      at h
    rw [List.getLast?_cons_of_ne_nil (List.cons_ne_nil v rest)]
    exact ih h

/-- What is left of a text behind some of its characters is a text. -/
theorem utf16_of_append {ds : List Char} {t : QString} (h : utf16 cs ++ t = utf16 ds) :
    t = utf16 (chars t) := by
  have hchars : chars (utf16 cs ++ t) = cs ++ chars t := by
    clear h
    induction cs with
    | nil => rfl
    | cons c cs ih =>
      rw [utf16, List.flatMap_cons, List.append_assoc, chars_utf16Char_append]
      exact congrArg (List.cons c) ih
  have hds := congrArg chars h
  rw [hchars, chars_utf16] at hds
  rw [← hds, utf16, utf16, List.flatMap_append] at h
  exact List.append_cancel_left h

theorem utf16_cons (c : Char) (cs : List Char) : utf16 (c :: cs) = utf16Char c ++ utf16 cs := rfl

theorem isLow_utf16Char (c : Char) (t : QString) :
    ∀ x ∈ (utf16Char c ++ t).head?, isLow x = false := by
  have hc := char_lt c
  intro x hx
  rw [isLow]
  unfold utf16Char at hx
  split_ifs at hx
  all_goals
    obtain rfl := Option.some.inj hx
    rw [toNat_toUInt16 (by omega), Bool.and_eq_false_iff, decide_eq_false_iff_not,
      decide_eq_false_iff_not]
    omega

/-- A unit that is no half of a pair is a character. -/
theorem exists_utf16Char (hhigh : isHigh u = false) (hlow : isLow u = false) :
    ∃ c, utf16Char c = [u] := by
  have hlt := u.toNat_lt
  have hvalid : u.toNat.isValidChar := by
    simp only [isHigh, isLow, Bool.and_eq_false_iff, decide_eq_false_iff_not] at hhigh hlow
    simp only [Nat.isValidChar]
    omega
  refine ⟨Char.ofNat u.toNat, ?_⟩
  rw [utf16Char, toNat_ofNat hvalid, if_pos (by omega)]
  simp

/-- The first unit of a text and what is left of it, but for the second half of a pair. -/
theorem utf16_eq_cons {t : QString} {ds : List Char} (h : u :: t = utf16 ds) :
    (isHigh u = false ∧ isLow u = false ∧ ∃ ds', t = utf16 ds') ∨
      ∃ v ds' c, isHigh u = true ∧ isLow v = true ∧ utf16Char c = [u, v] ∧ t = v :: utf16 ds' := by
  cases ds with
  | nil => cases h
  | cons c ds =>
    have hc := char_lt c
    rw [utf16_cons] at h
    by_cases hplane : c.toNat < 0x10000
    · rw [utf16Char, if_pos hplane, List.singleton_append] at h
      obtain ⟨rfl, rfl⟩ := List.cons.inj h
      refine Or.inl ⟨?_, ?_, ds, rfl⟩
      · rw [isHigh, toNat_toUInt16 hplane, Bool.and_eq_false_iff, decide_eq_false_iff_not,
          decide_eq_false_iff_not]
        omega
      · rw [isLow, toNat_toUInt16 hplane, Bool.and_eq_false_iff, decide_eq_false_iff_not,
          decide_eq_false_iff_not]
        omega
    · rw [utf16Char, if_neg hplane] at h
      obtain ⟨rfl, rfl⟩ := List.cons.inj h
      refine Or.inr ⟨_, ds, c, ?_, ?_, by rw [utf16Char, if_neg hplane], rfl⟩
      · rw [isHigh, toNat_toUInt16 (by omega), Bool.and_eq_true, decide_eq_true_iff,
          decide_eq_true_iff]
        omega
      · rw [isLow, toNat_toUInt16 (by omega), Bool.and_eq_true, decide_eq_true_iff,
          decide_eq_true_iff]
        omega

theorem toNat_continued (n : ℕ) : (0x80 + n % 0x40).toUInt8.toNat = 0x80 + n % 0x40 :=
  toNat_toUInt8 (by omega)

theorem isNext_continued (n : ℕ) : isNext (0x80 + n % 0x40).toUInt8 = true := by
  simp only [isNext, toNat_continued, Bool.and_eq_true, decide_eq_true_eq]
  omega

theorem firstChar_utf8 (c : Char) (b : List UInt8) : ∃ a rest, utf8Char c ++ b = a :: rest ++ b ∧
    firstChar a (rest ++ b) = (c, rest.length) := by
  have hc := char_lt c
  have hvalid : c.toNat.isValidChar := hc
  unfold utf8Char
  split_ifs with hone htwo hthree
  · refine ⟨_, [], rfl, ?_⟩
    unfold firstChar
    rw [toNat_toUInt8 (by omega), if_pos hone, Char.ofNat_toNat]
    rfl
  · refine ⟨_, [_], rfl, ?_⟩
    have h₁ := toNat_toUInt8 (n := 0xC0 + c.toNat / 0x40) (by omega)
    have hcode : (0xC0 + c.toNat / 0x40) % 0x20 * 0x40 + (0x80 + c.toNat % 0x40) % 0x40 =
        c.toNat := by omega
    unfold firstChar
    rw [h₁, if_neg (by omega), if_neg (by omega), if_pos (by omega)]
    simp only [List.cons_append, isNext_continued, if_true, toNat_continued, hcode, checkedChar]
    rw [if_pos ⟨by omega, hvalid⟩, Char.ofNat_toNat]
    rfl
  · refine ⟨_, [_, _], rfl, ?_⟩
    have h₁ := toNat_toUInt8 (n := 0xE0 + c.toNat / 0x1000) (by omega)
    have hcode : ((0xE0 + c.toNat / 0x1000) % 0x10 * 0x40 + (0x80 + c.toNat / 0x40 % 0x40) % 0x40) *
        0x40 + (0x80 + c.toNat % 0x40) % 0x40 = c.toNat := by omega
    unfold firstChar
    rw [h₁, if_neg (by omega), if_neg (by omega), if_neg (by omega),
      if_pos (by omega)]
    simp only [List.cons_append, isNext_continued, Bool.and_self, if_true, toNat_continued, hcode,
      checkedChar]
    rw [if_pos ⟨by omega, hvalid⟩, Char.ofNat_toNat]
    rfl
  · refine ⟨_, [_, _, _], rfl, ?_⟩
    have h₁ := toNat_toUInt8 (n := 0xF0 + c.toNat / 0x40000) (by omega)
    have hcode : (((0xF0 + c.toNat / 0x40000) % 0x08 * 0x40 +
        (0x80 + c.toNat / 0x1000 % 0x40) % 0x40) * 0x40 + (0x80 + c.toNat / 0x40 % 0x40) % 0x40) *
        0x40 + (0x80 + c.toNat % 0x40) % 0x40 = c.toNat := by omega
    unfold firstChar
    rw [h₁, if_neg (by omega), if_neg (by omega), if_neg (by omega),
      if_neg (by omega), if_pos (by omega)]
    simp only [List.cons_append, isNext_continued, Bool.and_self, if_true, toNat_continued, hcode,
      checkedChar]
    rw [if_pos ⟨by omega, hvalid⟩, Char.ofNat_toNat]
    rfl

theorem checkedChar_spec {least code length : ℕ} (h : 0x80 ≤ least) :
    0x80 ≤ (checkedChar least code length).1.toNat ∧
      ((checkedChar least code length).2 = length ∨ (checkedChar least code length).2 = 0) := by
  rw [checkedChar]
  split_ifs with hcode
  · refine ⟨?_, Or.inl rfl⟩
    rw [toNat_ofNat hcode.2]
    exact h.trans hcode.1
  · exact ⟨by decide, Or.inr rfl⟩

/-- A byte that is not of ASCII is read as no ASCII character, with bytes that continue it. -/
theorem firstChar_spec {a : UInt8} (ha : 0x80 ≤ a.toNat) (rest : List UInt8) :
    0x80 ≤ (firstChar a rest).1.toNat ∧ (firstChar a rest).2 ≤ rest.length ∧
      ∀ x ∈ rest.take (firstChar a rest).2, isNext x = true := by
  have hmark : ∀ rest : List UInt8, 0x80 ≤ replacement.1.toNat ∧ replacement.2 ≤ rest.length ∧
      ∀ x ∈ rest.take replacement.2, isNext x = true :=
    fun rest => ⟨by decide, Nat.zero_le _, by simp [replacement]⟩
  have hchecked : ∀ (least code length : ℕ) (rest : List UInt8), 0x80 ≤ least →
      length ≤ rest.length → (∀ x ∈ rest.take length, isNext x = true) →
      0x80 ≤ (checkedChar least code length).1.toNat ∧
        (checkedChar least code length).2 ≤ rest.length ∧
        ∀ x ∈ rest.take (checkedChar least code length).2, isNext x = true := by
    intro least code length rest hleast hlength hnext
    obtain ⟨hchar, hcount | hcount⟩ := @checkedChar_spec least code length hleast
    · rw [hcount]
      exact ⟨hchar, hlength, hnext⟩
    · rw [hcount]
      exact ⟨hchar, Nat.zero_le _, by simp⟩
  unfold firstChar
  rw [if_neg (by omega)]
  split_ifs
  · exact hmark rest
  · cases rest with
    | nil => exact hmark []
    | cons b rest =>
      simp only
      split_ifs with hnext
      · exact hchecked _ _ _ _ (by decide) (by simp) (by simpa using hnext)
      · exact hmark _
  · rcases rest with _ | ⟨b, _ | ⟨c, rest⟩⟩
    · exact hmark []
    · exact hmark [b]
    · simp only
      split_ifs with hnext
      · exact hchecked _ _ _ _ (by decide) (by simp) (by simpa using hnext)
      · exact hmark _
  · rcases rest with _ | ⟨b, _ | ⟨c, _ | ⟨d, rest⟩⟩⟩
    · exact hmark []
    · exact hmark [b]
    · exact hmark [b, c]
    · simp only
      split_ifs with hnext
      · exact hchecked _ _ _ _ (by decide) (by simp) (by simpa [and_assoc] using hnext)
      · exact hmark _
  · exact hmark rest

/-- What follows does not matter unless it continues a sequence. -/
theorem firstChar_append (a : UInt8) (rest : List UInt8) {b : List UInt8}
    (h : ∀ x ∈ b.head?, isNext x = false) : firstChar a (rest ++ b) = firstChar a rest := by
  cases b with
  | nil => rw [List.append_nil]
  | cons x b =>
    have hx : isNext x = false := h x rfl
    match rest with
    | [] =>
      rw [List.nil_append]
      unfold firstChar
      cases b with
      | nil => simp [hx]
      | cons y b => cases b <;> simp [hx]
    | [c] =>
      rw [List.singleton_append]
      unfold firstChar
      cases b <;> simp [hx]
    | [c, d] =>
      unfold firstChar
      simp [hx]
    | c :: d :: e :: rest => rfl

theorem decodeFrom_skip (skipped b : List UInt8) :
    decodeFrom skipped.length (skipped ++ b) = decodeFrom 0 b := by
  induction skipped with
  | nil => rfl
  | cons a rest ih => exact ih

theorem decodeFrom_drop (n : ℕ) (b : List UInt8) : decodeFrom n b = decodeFrom 0 (b.drop n) := by
  induction b generalizing n with
  | nil => cases n <;> rfl
  | cons a b ih =>
    cases n with
    | zero => rfl
    | succ n => exact ih n

theorem decodeFrom_append (p : List UInt8) {b : List UInt8} (h : ∀ x ∈ b.head?, isNext x = false) :
    decodeFrom 0 (p ++ b) = decodeFrom 0 p ++ decodeFrom 0 b := by
  induction hn : p.length using Nat.strong_induction_on generalizing p with
  | _ n ih =>
    cases p with
    | nil => rfl
    | cons a rest =>
      have hlength : (firstChar a rest).2 ≤ rest.length := by
        by_cases ha : 0x80 ≤ a.toNat
        · exact (firstChar_spec ha rest).2.1
        · unfold firstChar
          rw [if_pos (by omega)]
          exact Nat.zero_le _
      have hshort : (rest.drop (firstChar a rest).2).length < n := by
        rw [← hn, List.length_drop, List.length_cons]
        omega
      rw [List.cons_append, decodeFrom, decodeFrom, firstChar_append a rest h, decodeFrom_drop,
        List.drop_append_of_le_length hlength, ih _ hshort _ rfl, ← decodeFrom_drop]
      rfl

/-- No sequence of bytes goes on at the first byte of a character. -/
theorem head_utf8Char (c : Char) (b : List UInt8) :
    ∀ x ∈ (utf8Char c ++ b).head?, isNext x = false := by
  have hc := char_lt c
  intro x hx
  rw [isNext]
  unfold utf8Char at hx
  split_ifs at hx
  all_goals
    obtain rfl := Option.some.inj hx
    rw [toNat_toUInt8 (by omega), Bool.and_eq_false_iff, decide_eq_false_iff_not,
      decide_eq_false_iff_not]
    omega

theorem decodeFrom_cons (c : Char) (b : List UInt8) :
    decodeFrom 0 (utf8Char c ++ b) = c :: decodeFrom 0 b := by
  obtain ⟨a, more, hbytes, hfirst⟩ := firstChar_utf8 c b
  rw [hbytes, List.cons_append, decodeFrom, hfirst, decodeFrom_skip]

theorem length_decodeFrom_le (n : ℕ) (b : List UInt8) : (decodeFrom n b).length ≤ b.length := by
  induction b generalizing n with
  | nil => cases n <;> simp [decodeFrom]
  | cons a b ih =>
    cases n with
    | zero => simpa [decodeFrom] using ih (firstChar a b).2
    | succ n => exact (ih n).trans (Nat.le_succ _)

/-- The characters of the bytes of a text. -/
@[simp] theorem decodeFrom_utf8 (cs : List Char) : decodeFrom 0 (utf8 cs) = cs := by
  induction cs with
  | nil => rfl
  | cons c rest ih =>
    rw [utf8, List.flatMap_cons, decodeFrom_cons]
    exact congrArg (List.cons c) ih

theorem skipMark_sublist (cs : List Char) : (skipMark cs).Sublist cs := by
  cases cs with
  | nil => exact List.Sublist.refl _
  | cons c cs =>
    rw [skipMark]
    split_ifs
    · exact List.sublist_cons_self c cs
    · exact List.Sublist.refl _

theorem fromUtf8_utf8 (cs : List Char) : fromUtf8 (utf8 cs) = utf16 (skipMark cs) := by
  rw [fromUtf8, decodeFrom_utf8]

theorem chars_ascii (h : ∀ u ∈ s, u.toNat < 128) :
    chars s = s.map fun u => Char.ofNat u.toNat := by
  have hunit : ∀ u : UInt16, u.toNat < 128 → isHigh u = false ∧ isLow u = false := by
    intro u hu
    simp only [isHigh, isLow, Bool.and_eq_false_iff, decide_eq_false_iff_not]
    omega
  induction s with
  | nil => rfl
  | cons u rest ih =>
    obtain ⟨hu, hrest⟩ := List.forall_mem_cons.mp h
    obtain ⟨hhigh, hlow⟩ := hunit u hu
    cases rest with
    | nil => simp [chars, unitChar, hhigh, hlow]
    | cons v rest =>
      rw [chars, hhigh, Bool.false_and, if_neg (by simp), ih hrest]
      simp [unitChar, hhigh, hlow]

theorem toNat_ofNat_ascii (h : n < 128) : (Char.ofNat n).toNat = n :=
  toNat_ofNat (Or.inl (by omega))

theorem utf8Char_ascii (h : n < 128) : utf8Char (Char.ofNat n) = [n.toUInt8] := by
  rw [utf8Char, toNat_ofNat_ascii h, if_pos h]

theorem toUtf8_ascii (h : ∀ u ∈ s, u.toNat < 128) :
    toUtf8 s = s.map UInt16.toUInt8 := by
  rw [toUtf8, chars_ascii h]
  induction s with
  | nil => rfl
  | cons u rest ih =>
    obtain ⟨hu, hrest⟩ := List.forall_mem_cons.mp h
    have hrest := ih hrest
    rw [utf8] at hrest ⊢
    rw [List.map_cons, List.flatMap_cons, hrest, utf8Char_ascii hu]
    rfl

section Sequences

variable {a b c d : UInt8} {ch : Char} {n : ℕ}

theorem isNext_iff : isNext b = true ↔ 0x80 ≤ b.toNat ∧ b.toNat < 0xC0 := by
  rw [isNext, Bool.and_eq_true, decide_eq_true_eq, decide_eq_true_eq]

theorem toUInt8_eq (h : n = a.toNat) : n.toUInt8 = a := by
  rw [h]
  exact UInt8.ofNat_toNat

/-- A first byte with one byte after it, where two bytes are needed. -/
theorem utf8Char_two (ha : 0xC0 ≤ a.toNat) (ha' : a.toNat < 0xE0) (hb : isNext b = true)
    (hcode : ch.toNat = a.toNat % 0x20 * 0x40 + b.toNat % 0x40) (hleast : 0x80 ≤ ch.toNat) :
    utf8Char ch = [a, b] := by
  rw [isNext_iff] at hb
  rw [utf8Char, if_neg (by omega), if_pos (by omega), toUInt8_eq (a := a) (by omega),
    toUInt8_eq (a := b) (by omega)]

theorem utf8Char_three (ha : 0xE0 ≤ a.toNat) (ha' : a.toNat < 0xF0) (hb : isNext b = true)
    (hc : isNext c = true)
    (hcode : ch.toNat = (a.toNat % 0x10 * 0x40 + b.toNat % 0x40) * 0x40 + c.toNat % 0x40)
    (hleast : 0x800 ≤ ch.toNat) : utf8Char ch = [a, b, c] := by
  rw [isNext_iff] at hb hc
  rw [utf8Char, if_neg (by omega), if_neg (by omega), if_pos (by omega),
    toUInt8_eq (a := a) (by omega), toUInt8_eq (a := b) (by omega),
    toUInt8_eq (a := c) (by omega)]

theorem utf8Char_four (ha : 0xF0 ≤ a.toNat) (ha' : a.toNat < 0xF8) (hb : isNext b = true)
    (hc : isNext c = true) (hd : isNext d = true)
    (hcode : ch.toNat = ((a.toNat % 0x08 * 0x40 + b.toNat % 0x40) * 0x40 + c.toNat % 0x40) * 0x40 +
      d.toNat % 0x40)
    (hleast : 0x10000 ≤ ch.toNat) : utf8Char ch = [a, b, c, d] := by
  have hvalid := char_lt ch
  rw [isNext_iff] at hb hc hd
  rw [utf8Char, if_neg (by omega), if_neg (by omega), if_neg (by omega),
    toUInt8_eq (a := a) (by omega), toUInt8_eq (a := b) (by omega),
    toUInt8_eq (a := c) (by omega), toUInt8_eq (a := d) (by omega)]

end Sequences
end SnapCpp.Utf
