import SnapCpp.DependencyWritten
import SnapCpp.Utf

/-!
Texts that are made of whole characters. A text without its spaces at the ends, or with single
spaces only, is one again, as no half of a pair is a space. It comes back from its bytes unless
it starts with a byte order mark.
-/
namespace SnapCpp.SimplifiedText

open QString Utf
open QNumber (isSpace trimmed)
open SnapVersion (simplified space IsNeat)

def IsText (q : QString) : Prop := ∃ cs, q = utf16 cs

def isSpaceChar (c : Char) : Bool := decide (c.toNat < 0x10000) && isSpace c.toNat.toUInt16

section Closed

variable {q r : QString}

theorem utf16_append (cs ds : List Char) : utf16 (cs ++ ds) = utf16 cs ++ utf16 ds :=
  List.flatMap_append

theorem utf8_append (cs ds : List Char) : utf8 (cs ++ ds) = utf8 cs ++ utf8 ds :=
  List.flatMap_append

theorem IsText.nil : IsText [] := ⟨[], rfl⟩

theorem IsText.append (hq : IsText q) (hr : IsText r) : IsText (q ++ r) := by
  obtain ⟨cs, rfl⟩ := hq
  obtain ⟨ds, rfl⟩ := hr
  exact ⟨cs ++ ds, (utf16_append cs ds).symm⟩

theorem isText_fromUtf8 (b : List UInt8) : IsText (fromUtf8 b) := ⟨_, rfl⟩

/-- The units of a character are one unit, or two that are not of ASCII and no spaces. -/
theorem utf16Char_cases (c : Char) :
    (c.toNat < 0x10000 ∧ utf16Char c = [c.toNat.toUInt16]) ∨
      ∃ u v, utf16Char c = [u, v] ∧ isSpace u = false ∧ isSpace v = false ∧
        0x80 ≤ u.toNat ∧ 0x80 ≤ v.toNat ∧ 0x10000 ≤ c.toNat := by
  have hc := char_lt c
  by_cases hplane : c.toNat < 0x10000
  · exact Or.inl ⟨hplane, if_pos hplane⟩
  · have hnospace : ∀ n, 0xD800 ≤ n → n < 0xE000 → isSpace n.toUInt16 = false := by
      intro n hlow hhigh
      have hnat : n.toUInt16.toNat = n := toNat_toUInt16 (by omega)
      simp only [isSpace, UInt16.le_iff_toNat_le, ← UInt16.toNat_inj, hnat,
        Bool.or_eq_false_iff, Bool.and_eq_false_iff, decide_eq_false_iff_not,
        beq_eq_false_iff_ne, ne_eq, UInt16.reduceToNat]
      omega
    refine Or.inr ⟨_, _, if_neg hplane, hnospace _ (by omega) (by omega),
      hnospace _ (by omega) (by omega), ?_, ?_, by omega⟩
    · rw [toNat_toUInt16 (by omega)]
      omega
    · rw [toNat_toUInt16 (by omega)]
      omega

theorem splitOnP_utf16 (cs : List Char) :
    (utf16 cs).splitOnP isSpace = (cs.splitOnP isSpaceChar).map utf16 := by
  induction cs with
  | nil => rfl
  | cons c cs ih =>
    have hmodify (c : Char) : ∀ parts : List (List Char), (parts.map utf16).modifyHead
        (utf16Char c ++ ·) = (parts.modifyHead (c :: ·)).map utf16 := by
      intro parts
      cases parts <;> rfl
    rw [utf16_cons, List.splitOnP_cons_eq_if_modifyHead]
    rcases utf16Char_cases c with ⟨hplane, hunit⟩ | ⟨u, v, hunits, hu, hv, -, -, hplane⟩
    · have hsame : isSpaceChar c = isSpace c.toNat.toUInt16 := by simp [isSpaceChar, hplane]
      rw [hsame, hunit, List.singleton_append, List.splitOnP_cons_eq_if_modifyHead, ih]
      split_ifs
      · rfl
      · rw [← hmodify c, hunit]
        rfl
    · have hnot : isSpaceChar c = false := by simp [isSpaceChar, Nat.not_lt.mpr hplane]
      rw [hnot, if_neg (by decide), ← hmodify c, ← ih, hunits, List.cons_append,
        List.singleton_append, List.splitOnP_cons_eq_if_modifyHead,
        List.splitOnP_cons_eq_if_modifyHead, hu, hv, if_neg (by decide), if_neg (by decide),
        List.modifyHead_modifyHead]
      rfl

theorem isText_intercalate {texts : List QString} (h : ∀ t ∈ texts, IsText t) :
    IsText ([space].intercalate texts) := by
  have hspace : IsText [space] := ⟨[' '], by decide⟩
  induction texts with
  | nil => exact IsText.nil
  | cons t texts ih =>
    obtain ⟨ht, htexts⟩ := List.forall_mem_cons.mp h
    cases texts with
    | nil => rwa [List.intercalate_singleton]
    | cons u us =>
      rw [List.intercalate_cons_cons]
      exact (ht.append hspace).append (ih htexts)

theorem IsText.simplified (h : IsText q) : IsText (simplified q) := by
  obtain ⟨cs, rfl⟩ := h
  refine isText_intercalate fun t ht => ?_
  obtain ⟨htext, -⟩ := List.mem_filter.mp ht
  rw [splitOnP_utf16, List.mem_map] at htext
  obtain ⟨ds, -, rfl⟩ := htext
  exact ⟨ds, rfl⟩

theorem IsText.dropWhile (h : IsText q) : IsText (q.dropWhile isSpace) := by
  obtain ⟨cs, rfl⟩ := h
  induction cs with
  | nil => exact IsText.nil
  | cons c cs ih =>
    rw [utf16_cons]
    rcases utf16Char_cases c with ⟨-, hunit⟩ | ⟨u, v, hunits, hu, -⟩
    · rw [hunit, List.singleton_append, List.dropWhile_cons]
      split_ifs
      · exact ih
      · exact ⟨c :: cs, by rw [utf16_cons, hunit]; rfl⟩
    · rw [hunits, List.cons_append, List.dropWhile_cons_of_neg (by simp [hu])]
      exact ⟨c :: cs, by rw [utf16_cons, hunits]; rfl⟩

theorem IsText.rdropWhile (h : IsText q) : IsText (q.rdropWhile isSpace) := by
  obtain ⟨cs, rfl⟩ := h
  induction cs using List.reverseRecOn with
  | nil => exact IsText.nil
  | append_singleton cs c ih =>
    have hlast : utf16 [c] = utf16Char c := List.append_nil _
    rw [utf16_append, hlast]
    rcases utf16Char_cases c with ⟨-, hunit⟩ | ⟨u, v, hunits, -, hv, -⟩
    · rw [hunit, List.rdropWhile_concat]
      split_ifs
      · exact ih
      · exact ⟨cs ++ [c], by rw [utf16_append, hlast, hunit]⟩
    · have hsplit : utf16 cs ++ [u, v] = (utf16 cs ++ [u]) ++ [v] := by simp
      rw [hunits, hsplit, List.rdropWhile_concat_neg _ _ _ (by simp [hv]), ← hsplit]
      exact ⟨cs ++ [c], by rw [utf16_append, hlast, hunits]⟩

theorem IsText.trimmed (h : IsText q) : IsText (trimmed q) := h.dropWhile.rdropWhile

end Closed

section Spaces

variable {q : QString} {c : UInt16}

/-- What the pieces of a list are made of. -/
theorem of_mem_splitOnP {l w : QString} (h : w ∈ l.splitOnP isSpace) :
    ∀ c ∈ w, c ∈ l ∧ isSpace c = false := by
  induction l generalizing w with
  | nil =>
    obtain rfl : w = [] := by simpa using h
    exact fun c hc => by cases hc
  | cons d l ih =>
    rw [List.splitOnP_cons_eq_if_modifyHead] at h
    split_ifs at h with hd
    · rcases List.mem_cons.mp h with rfl | hw
      · exact fun c hc => by cases hc
      · exact fun c hc => (ih hw c hc).imp_left (List.mem_cons_of_mem d)
    · cases hparts : l.splitOnP isSpace with
      | nil => simp [hparts] at h
      | cons v vs =>
        rw [hparts] at ih
        rw [hparts, List.modifyHead_cons] at h
        rcases List.mem_cons.mp h with rfl | hw
        · rw [List.forall_mem_cons]
          refine ⟨⟨List.mem_cons_self, eq_false_of_ne_true hd⟩, fun c hc => ?_⟩
          exact (ih List.mem_cons_self c hc).imp_left (List.mem_cons_of_mem d)
        · intro c hc
          exact (ih (List.mem_cons_of_mem v hw) c hc).imp_left (List.mem_cons_of_mem d)

theorem isNeat_intercalate {ws : List QString} (hne : ws ≠ [])
    (h : ∀ w ∈ ws, w ≠ [] ∧ ∀ c ∈ w, isSpace c = false) : IsNeat ([space].intercalate ws) := by
  induction ws with
  | nil => exact absurd rfl hne
  | cons w ws ih =>
    obtain ⟨hw, hws⟩ := List.forall_mem_cons.mp h
    cases ws with
    | nil =>
      rw [List.intercalate_singleton]
      exact .word hw.1 hw.2
    | cons v vs =>
      rw [List.intercalate_cons_cons, List.append_assoc]
      exact .join (.word hw.1 hw.2) (ih (List.cons_ne_nil _ _) hws)

theorem isNeat_simplified (h : simplified q ≠ []) : IsNeat (simplified q) := by
  refine isNeat_intercalate ?_ fun w hw => ?_
  · intro hnone
    rw [simplified, hnone] at h
    exact h rfl
  · obtain ⟨hmem, hne⟩ := List.mem_filter.mp hw
    refine ⟨by simpa using hne, fun c hc => ?_⟩
    exact (of_mem_splitOnP hmem c hc).2

theorem simplified_space (q : QString) : simplified (space :: q) = simplified q := by
  unfold simplified
  rw [List.splitOnP_cons_eq_if_modifyHead, if_pos (by decide)]
  rfl

theorem mem_of_mem_simplified (h : c ∈ simplified q) : c ∈ q ∨ c = space := by
  rcases Pieces.mem_intercalate h with ⟨w, hw, hc⟩ | hspace
  · exact Or.inl (of_mem_splitOnP (List.mem_filter.mp hw).1 c hc).1
  · exact Or.inr (List.mem_singleton.mp hspace)

theorem trimmed_eq (q : QString) : trimmed q = (q.dropWhile isSpace).rdropWhile isSpace := rfl

theorem mem_of_mem_trimmed (h : c ∈ trimmed q) : c ∈ q :=
  (List.dropWhile_sublist isSpace).subset ((List.rdropWhile_prefix isSpace _).subset h)

theorem trimmed_ends (q : QString) :
    (∀ c, (trimmed q).head? = some c → isSpace c = false) ∧
      ∀ c, (trimmed q).getLast? = some c → isSpace c = false := by
  constructor
  · intro c hc
    obtain ⟨back, hback⟩ := List.rdropWhile_prefix isSpace (q.dropWhile isSpace)
    rw [← trimmed_eq] at hback
    have hne : trimmed q ≠ [] := by
      rintro hnil
      rw [hnil] at hc
      cases hc
    have hhead : (q.dropWhile isSpace).head? = some c := by
      rw [← hback, List.head?_append_of_ne_nil _ hne, hc]
    have hfirst := List.head?_dropWhile_not isSpace q
    rw [hhead] at hfirst
    simpa using hfirst
  · intro c hc
    have hne : trimmed q ≠ [] := by
      rintro hnil
      rw [hnil] at hc
      cases hc
    have hlast := List.rdropWhile_last_not isSpace (q.dropWhile isSpace) hne
    rw [List.getLast?_eq_getLast_of_ne_nil hne] at hc
    obtain rfl := Option.some.inj hc
    exact eq_false_of_ne_true hlast

end Spaces

section Bytes

variable {q : QString} {u : UInt16}

theorem toUtf8_utf16 (cs : List Char) : toUtf8 (utf16 cs) = utf8 cs := by
  rw [toUtf8, chars_utf16]

theorem toUtf8_append {q r : QString} (hq : IsText q) (hr : IsText r) :
    toUtf8 (q ++ r) = toUtf8 q ++ toUtf8 r := by
  obtain ⟨cs, rfl⟩ := hq
  obtain ⟨ds, rfl⟩ := hr
  rw [← utf16_append, toUtf8_utf16, toUtf8_utf16, toUtf8_utf16, utf8_append]

/-- A byte of ASCII among the bytes of a text is one of its characters. -/
theorem mem_of_mem_toUtf8 (h : IsText q) {b : UInt8} (hb : b ∈ toUtf8 q) (hascii : b.toNat < 128) :
    b.toNat.toUInt16 ∈ q := by
  obtain ⟨cs, rfl⟩ := h
  rw [toUtf8_utf16, utf8, List.mem_flatMap] at hb
  obtain ⟨c, hc, hb⟩ := hb
  rw [utf16, List.mem_flatMap]
  refine ⟨c, hc, ?_⟩
  have hlt := char_lt c
  unfold utf8Char at hb
  split_ifs at hb with hone htwo hthree
  · obtain rfl := List.mem_singleton.mp hb
    rw [toNat_toUInt8 (by omega), utf16Char, if_pos (by omega)]
    exact List.mem_singleton_self _
  all_goals
    simp only [List.mem_cons, List.not_mem_nil, or_false] at hb
    rcases hb with rfl | rfl | rfl | rfl <;>
      (rw [toNat_toUInt8 (by omega)] at hascii; omega)

/-- A character of ASCII comes from a byte of its own. -/
theorem mem_of_mem_decodeFrom {b : List UInt8} {n : ℕ} {c : Char} (h : c ∈ decodeFrom n b)
    (hascii : c.toNat < 128) : c.toNat.toUInt8 ∈ b := by
  induction b generalizing n with
  | nil => cases n <;> cases h
  | cons a b ih =>
    cases n with
    | succ n => exact List.mem_cons_of_mem a (ih h)
    | zero =>
      rw [decodeFrom, List.mem_cons] at h
      rcases h with rfl | h
      · by_cases ha : 0x80 ≤ a.toNat
        · have hlarge := (firstChar_spec ha b).1
          omega
        · have hfirst : (firstChar a b).1 = Char.ofNat a.toNat := by
            unfold firstChar
            rw [if_pos (by omega)]
          rw [hfirst, toNat_ofNat_ascii (by omega)]
          simp
      · exact List.mem_cons_of_mem a (ih h)

theorem mem_of_mem_fromUtf8 {b : List UInt8} (h : u ∈ fromUtf8 b)
    (hascii : u.toNat < 128) : u.toNat.toUInt8 ∈ b := by
  rw [fromUtf8, utf16, List.mem_flatMap] at h
  obtain ⟨c, hc, hu⟩ := h
  have hmem := (skipMark_sublist _).subset hc
  rcases utf16Char_cases c with ⟨hplane, hunit⟩ | ⟨v, w, hunits, -, -, hv, hw, -⟩
  · rw [hunit, List.mem_singleton] at hu
    subst hu
    rw [toNat_toUInt16 hplane] at hascii ⊢
    exact mem_of_mem_decodeFrom hmem hascii
  · rw [hunits] at hu
    rcases List.mem_cons.mp hu with rfl | hu
    · omega
    · rw [List.mem_singleton.mp hu] at hascii
      omega

/-- A text that does not start with a byte order mark comes back from its bytes. -/
theorem fromUtf8_toUtf8 (h : IsText q) (hmark : q.head? ≠ some 0xFEFF) :
    fromUtf8 (toUtf8 q) = q := by
  obtain ⟨cs, rfl⟩ := h
  rw [toUtf8_utf16, fromUtf8_utf8]
  cases cs with
  | nil => rfl
  | cons c cs =>
    rw [skipMark, if_neg]
    rintro rfl
    exact hmark rfl

/-- The first byte of a text: one of ASCII is its first character. -/
theorem head_toUtf8 (h : IsText q) (hne : q ≠ []) : ∃ b bs, toUtf8 q = b :: bs ∧
    (b.toNat < 128 → q.head? = some b.toNat.toUInt16) := by
  obtain ⟨cs, rfl⟩ := h
  cases cs with
  | nil => exact absurd rfl hne
  | cons c cs =>
    have hlt := char_lt c
    rw [toUtf8_utf16, utf8, List.flatMap_cons, utf16_cons]
    by_cases hone : c.toNat < 0x80
    · rw [utf8Char, if_pos hone, utf16Char, if_pos (by omega)]
      refine ⟨_, _, rfl, fun _ => ?_⟩
      rw [toNat_toUInt8 (by omega)]
      rfl
    · unfold utf8Char
      rw [if_neg hone]
      split_ifs
      all_goals
        refine ⟨_, _, rfl, fun hascii => ?_⟩
        rw [toNat_toUInt8 (by omega)] at hascii
        omega

theorem isText_ascii (h : u.toNat < 128) : IsText [u] ∧ toUtf8 [u] = [u.toUInt8] := by
  have hchars : chars [u] = [Char.ofNat u.toNat] := by
    rw [chars_ascii (by simpa using h)]
    rfl
  have hunits : utf16 [Char.ofNat u.toNat] = [u] := by
    rw [utf16, List.flatMap_cons, List.flatMap_nil, List.append_nil, utf16Char,
      toNat_ofNat_ascii h, if_pos (by omega)]
    simp
  refine ⟨⟨_, hunits.symm⟩, ?_⟩
  rw [toUtf8_ascii (by simpa using h)]
  rfl

theorem IsText.ascii_cons (h : u.toNat < 128) (hq : IsText q) : IsText (u :: q) :=
  (isText_ascii h).1.append hq

theorem toUtf8_ascii_cons (h : u.toNat < 128) (hq : IsText q) :
    toUtf8 (u :: q) = u.toUInt8 :: toUtf8 q := by
  rw [← List.singleton_append, toUtf8_append (isText_ascii h).1 hq, (isText_ascii h).2]
  rfl

end Bytes

end SnapCpp.SimplifiedText
