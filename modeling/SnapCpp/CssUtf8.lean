import SnapCpp.CssSpelling
import SnapCpp.Utf

/-!
The characters that `getc()` reads from a stream and the bytes that `wctomb()` writes, against the
encodings of texts. A sequence is read from its first byte and exactly the bytes that this one
announces; that it is the shortest one for its character, and that it stands for a character at
all, is not checked where it is read.
-/
namespace SnapCpp.Css

open Utf

/-- The string that `wctomb()` returns is made from a buffer that a null byte ends. -/
def wctombString (wc : ℤ) : Bytes := (encoding wc).1.takeWhile (· ≠ 0)

def RefusedCharacter (wc : ℤ) : Prop :=
  (encoding wc).2 = [.notCharacter] ∨ (encoding wc).2 = [.planeNotCharacter]

theorem isFollow_eq_isNext (b : UInt8) : isFollow b = isNext b := by
  rw [Bool.eq_iff_iff, isNext_iff, isFollow, Bool.and_eq_true, decide_eq_true_eq,
    decide_eq_true_eq, UInt8.le_iff_toNat_le, UInt8.le_iff_toNat_le]
  exact and_congr_right' Nat.lt_succ_iff.symm

theorem encoding_char (c : Char) :
    encoding c.toNat = (utf8Char c, []) ∨ RefusedCharacter c.toNat := by
  have hc := char_lt c
  rw [RefusedCharacter, encoding, utf8Char, Int.toNat_natCast]
  by_cases hone : c.toNat < 0x80
  · rw [if_neg (by omega), if_pos (by omega), if_pos hone]
    exact Or.inl rfl
  rw [if_neg (by omega), if_neg (by omega), if_neg hone]
  by_cases htwo : c.toNat < 0x800
  · rw [if_pos (by omega), if_pos htwo, Nat.add_comm 0xC0, Nat.add_comm 0x80]
    exact Or.inl rfl
  rw [if_neg (by omega), if_neg htwo]
  by_cases hthree : c.toNat < 0x10000
  · rw [if_pos (by omega), if_pos hthree, if_neg (by omega), Nat.add_comm 0xE0,
      Nat.add_comm 0x80, Nat.add_comm 0x80]
    split_ifs
    · exact Or.inr (Or.inl rfl)
    · exact Or.inl rfl
  · rw [if_neg (by omega), if_neg hthree, if_pos (by omega), Nat.add_comm 0xF0,
      Nat.add_comm 0x80, Nat.add_comm 0x80, Nat.add_comm 0x80]
    split_ifs
    · exact Or.inr (Or.inr rfl)
    · exact Or.inl rfl

theorem wctombString_eq {c : ℤ} {b : UInt8} {bs : Bytes} (h : Encodes c b bs) (hc : c ≠ 0) :
    wctombString c = b :: bs := by
  rw [wctombString, h.encoding]
  refine List.takeWhile_eq_self_iff.mpr fun x hx => ?_
  rw [decide_eq_true_eq]
  rintro rfl
  rcases List.mem_cons.mp hx with rfl | hmem
  · exact hc (h.eq_of_single (by decide))
  · exact absurd (h.follow 0 hmem) (by decide)

/-- What is written is read again, but for the ends of lines and pages. -/
theorem getc_wctombString {c : ℤ} (hcode : IsCode c) (hnull : c ≠ 0) (hreturn : c ≠ '\r')
    (hpage : c ≠ 12) {rest : Bytes} (hrest : ∀ x ∈ rest.head?, isFollow x = false) (s : Lexer)
    (hungetc : s.fUngetc = []) (hin : s.fIn = wctombString c ++ rest) :
    getc s = .ok (c, { s with fIn := rest }) := by
  obtain ⟨b, bs, h⟩ := exists_encodes hcode
  rw [wctombString_eq h hnull, List.cons_append] at hin
  have hread : readChar b (bs ++ rest) = ⟨c, [], rest⟩ := by
    rw [h.readChar hrest, Reading.normal, if_neg hreturn, if_neg hpage, if_neg hnull]
  rw [getc, hungetc, hin]
  simp only [hread, List.append_nil]

section Reading

variable {a : UInt8} {s : Bytes} {wc count : ℕ} {c : ℤ}

def followValue (wc : ℕ) (s : Bytes) : ℕ := s.foldl (fun wc x => wc * 64 + x.toNat % 64) wc

theorem of_sequence (h : (sequence wc count s).1 ≠ replacement) :
    s.length = count ∧ (sequence wc count s).1 = followValue wc s := by
  induction s generalizing wc count with
  | nil =>
    cases count with
    | zero => exact ⟨rfl, rfl⟩
    | succ count => exact absurd rfl h
  | cons x s ih =>
    cases count with
    | zero => exact absurd rfl h
    | succ count =>
      rw [sequence] at h ⊢
      split_ifs at h ⊢ with hzero hfollow
      · exact absurd rfl h
      · exact absurd rfl h
      · obtain ⟨hlength, hvalue⟩ := ih h
        exact ⟨congrArg Nat.succ hlength, hvalue⟩

inductive Announced : UInt8 → Bytes → ℕ → Prop
  | two {a x : UInt8} : 0xC0 ≤ a.toNat → a.toNat < 0xE0 →
      Announced a [x] (a.toNat % 32 * 64 + x.toNat % 64)
  | three {a x y : UInt8} : 0xE0 ≤ a.toNat → a.toNat < 0xF0 →
      Announced a [x, y] ((a.toNat % 16 * 64 + x.toNat % 64) * 64 + y.toNat % 64)
  | four {a x y z : UInt8} : 0xF0 ≤ a.toNat → a.toNat < 0xF8 →
      Announced a [x, y, z]
        (((a.toNat % 8 * 64 + x.toNat % 64) * 64 + y.toNat % 64) * 64 + z.toNat % 64)

theorem announced_of_mbtowc (ha : 0x80 ≤ a.toNat) (h : (mbtowc (a :: s)).1 ≠ replacement) :
    ∃ n : ℕ, (mbtowc (a :: s)).1 = n ∧ Announced a s n := by
  have hle : ∀ k : UInt8, k ≤ a ↔ k.toNat ≤ a.toNat := fun k => UInt8.le_iff_toNat_le
  have hsingle : ¬ a < 0x80 := by
    rw [UInt8.not_lt, hle]
    exact ha
  rw [mbtowc, if_neg hsingle] at h ⊢
  simp only [hle] at h ⊢
  split_ifs at h ⊢ with hlarge hfour hthree htwo
  · exact absurd rfl h
  · obtain ⟨hlength, hvalue⟩ := of_sequence h
    obtain ⟨x, y, z, rfl⟩ := List.length_eq_three.mp hlength
    exact ⟨_, hvalue, .four hfour (not_le.mp hlarge)⟩
  · obtain ⟨hlength, hvalue⟩ := of_sequence h
    obtain ⟨x, y, rfl⟩ := List.length_eq_two.mp hlength
    exact ⟨_, hvalue, .three hthree (not_le.mp hfour)⟩
  · obtain ⟨hlength, hvalue⟩ := of_sequence h
    obtain ⟨x, rfl⟩ := List.length_eq_one_iff.mp hlength
    exact ⟨_, hvalue, .two htwo (not_le.mp hthree)⟩
  · exact absurd rfl h

theorem Announced.utf8Char {n : ℕ} (h : Announced a s n) (hs : ∀ x ∈ s, isFollow x = true)
    {ch : Char} (hch : ch.toNat = n) (hlength : (utf8Char ch).length = s.length + 1) :
    Utf.utf8Char ch = a :: s := by
  have hleast : (ch.toNat < 0x80 → s.length = 0) ∧ (ch.toNat < 0x800 → s.length ≤ 1) ∧
      (ch.toNat < 0x10000 → s.length ≤ 2) := by
    rw [Utf.utf8Char] at hlength
    split_ifs at hlength
    all_goals
      simp only [List.length_cons, List.length_nil] at hlength
      omega
  simp only [isFollow_eq_isNext] at hs
  cases h with
  | two ha ha' =>
    have hx := hs _ List.mem_cons_self
    simp only [List.length_cons, List.length_nil] at hleast
    exact utf8Char_two ha ha' hx hch (by omega)
  | three ha ha' =>
    obtain ⟨hx, hs⟩ := List.forall_mem_cons.mp hs
    simp only [List.length_cons, List.length_nil] at hleast
    exact utf8Char_three ha ha' hx (hs _ List.mem_cons_self) hch (by omega)
  | four ha ha' =>
    obtain ⟨hx, hs⟩ := List.forall_mem_cons.mp hs
    obtain ⟨hy, hs⟩ := List.forall_mem_cons.mp hs
    simp only [List.length_cons, List.length_nil] at hleast
    exact utf8Char_four ha ha' hx hy (hs _ List.mem_cons_self) hch (by omega)

theorem of_normal {r : Css.Reading} (hc : 0x80 ≤ r.normal.char)
    (hne : r.normal.char ≠ replacement) :
    r.normal = r := by
  have hnewline : ¬ (0x80 : ℤ) ≤ ('\n' : Char) := by decide
  rw [Reading.normal] at hc hne ⊢
  by_cases hreturn : r.char = ('\r' : Char)
  · rw [if_pos hreturn] at hc
    exact absurd hc hnewline
  by_cases hpage : r.char = 12
  · rw [if_neg hreturn, if_pos hpage] at hc
    exact absurd hc hnewline
  by_cases hnull : r.char = 0
  · rw [if_neg hreturn, if_neg hpage, if_pos hnull] at hne
    exact absurd rfl hne
  · rw [if_neg hreturn, if_neg hpage, if_neg hnull]

theorem of_readChar (hc : 0x80 ≤ (readChar a s).char) (hne : (readChar a s).char ≠ replacement) :
    (readChar a s).rest = s.dropWhile isFollow ∧
      ∃ n : ℕ, (readChar a s).char = n ∧ Announced a (s.takeWhile isFollow) n := by
  have hnormal := of_normal hc hne
  rw [readChar, hnormal] at hc hne ⊢
  simp only at hc hne ⊢
  split_ifs at hc hne ⊢ with hsingle hseveral hlong
  · have ha := UInt8.lt_iff_toNat_lt.mp hsingle
    exact absurd (Int.ofNat_le.mp hc) (not_le.mpr ha)
  · exact absurd rfl hne
  · have ha := UInt8.le_iff_toNat_le.mp hseveral.1
    obtain ⟨n, hn, hannounced⟩ := announced_of_mbtowc (le_trans (by decide) ha) hne
    exact ⟨rfl, n, hn, hannounced⟩
  · exact absurd rfl hne

/-- A character that is not replaced is what the first byte announces and the others carry. -/
theorem of_getc {s t : Lexer} (hungetc : s.fUngetc = []) (h : getc s = .ok (c, t))
    (hc : 0x80 ≤ c) (hne : c ≠ replacement) :
    ∃ (a : UInt8) (follow : Bytes) (n : ℕ), s.fIn = a :: follow ++ t.fIn ∧
      (∀ x ∈ follow, isFollow x = true) ∧ Announced a follow n ∧ c = n := by
  rw [getc, hungetc] at h
  cases hin : s.fIn with
  | nil =>
    rw [hin] at h
    cases h
    exact absurd hc (by decide)
  | cons a rest =>
    rw [hin] at h
    cases h
    obtain ⟨hrest, n, hn, hannounced⟩ := of_readChar hc hne
    refine ⟨a, rest.takeWhile isFollow, n, ?_, fun x hx => List.mem_takeWhile_imp hx,
      hannounced, hn⟩
    show a :: rest = a :: rest.takeWhile isFollow ++ (readChar a rest).rest
    rw [hrest, List.cons_append, List.takeWhile_append_dropWhile]

end Reading

/-- A character beyond ASCII is read from the bytes that its first byte announces. Where these are
as many as the shortest sequence has, they are the bytes that are written for the character, if it
is not refused. What is written is read again. -/
theorem getc_utf8 :
    (∀ (s t : Lexer) (c : ℤ), s.fUngetc = [] → getc s = .ok (c, t) → 0x80 ≤ c →
      c ≠ replacement → ∃ (a : UInt8) (follow : Bytes) (n : ℕ), s.fIn = a :: follow ++ t.fIn ∧
        (∀ x ∈ follow, isFollow x = true) ∧ Announced a follow n ∧ c = n ∧
        ∀ ch : Char, ch.toNat = n → (utf8Char ch).length = follow.length + 1 →
          utf8Char ch = a :: follow ∧ (wctombString c = a :: follow ∨ RefusedCharacter c)) ∧
    ∀ (ch : Char) (s : Lexer) (rest : Bytes), IsCode ch.toNat → ch ≠ Char.ofNat 0 → ch ≠ '\r' →
      ch ≠ Char.ofNat 12 → (∀ x ∈ rest.head?, isFollow x = false) → s.fUngetc = [] →
      s.fIn = wctombString ch.toNat ++ rest →
        getc s = .ok ((ch.toNat : ℤ), { s with fIn := rest }) := by
  constructor
  · intro s t c hungetc h hc hne
    obtain ⟨a, follow, n, hs, hfollow, hannounced, hn⟩ := of_getc hungetc h hc hne
    refine ⟨a, follow, n, hs, hfollow, hannounced, hn, fun ch hch hlength => ?_⟩
    have hutf8 := hannounced.utf8Char hfollow hch hlength
    refine ⟨hutf8, ?_⟩
    subst hch hn
    rcases encoding_char ch with hencoding | hrefused
    · have hcode : IsCode ch.toNat := congrArg Prod.snd hencoding
      obtain ⟨b, bs, hencodes⟩ := exists_encodes hcode
      have hsame : b :: bs = a :: follow := by
        rw [← hutf8]
        exact congrArg Prod.fst (hencodes.encoding.symm.trans hencoding)
      exact Or.inl ((wctombString_eq hencodes (by omega)).trans hsame)
    · exact Or.inr hrefused
  · intro ch s rest hcode hnull hreturn hpage hrest hungetc hin
    have hnat : ∀ n : ℕ, n.isValidChar → ch ≠ Char.ofNat n → (ch.toNat : ℤ) ≠ n := by
      intro n hn hne heq
      refine hne (Char.toNat_inj.mp ?_)
      rw [toNat_ofNat hn]
      exact Int.ofNat.inj heq
    exact getc_wctombString hcode (hnat 0 (by decide) hnull) (hnat 13 (by decide) hreturn)
      (hnat 12 (by decide) hpage) hrest s hungetc hin

theorem getc_utf8_accent :
    (∃ (a : UInt8) (follow : Bytes) (n : ℕ),
      (Lexer.start [0xC3, 0xA9, 0x61]).fIn = a :: follow ++ (Lexer.start [0x61]).fIn ∧
      (∀ x ∈ follow, isFollow x = true) ∧ Announced a follow n ∧ (0xE9 : ℤ) = n ∧
      ∀ ch : Char, ch.toNat = n → (utf8Char ch).length = follow.length + 1 →
        utf8Char ch = a :: follow ∧ (wctombString 0xE9 = a :: follow ∨ RefusedCharacter 0xE9)) ∧
    getc (Lexer.start [0xC3, 0xA9]) =
      .ok ((('é' : Char).toNat : ℤ), { Lexer.start [0xC3, 0xA9] with fIn := [] }) :=
  ⟨getc_utf8.1 (Lexer.start [0xC3, 0xA9, 0x61]) (Lexer.start [0x61]) 0xE9 rfl (by decide)
    (by decide) (by decide),
   getc_utf8.2 'é' (Lexer.start [0xC3, 0xA9]) [] (by decide) (by decide) (by decide) (by decide)
    (fun x hx => by cases hx) rfl (by decide)⟩

/-- A surrogate is read, and the end of a line is read as another one. -/
theorem getc_surrogate_return :
    ¬ (∀ (s t : Lexer) (c : ℤ), s.fUngetc = [] → getc s = .ok (c, t) → 0x80 ≤ c →
      c ≠ replacement → ∃ ch : Char, c = ch.toNat ∧ s.fIn = utf8Char ch ++ t.fIn ∧
        (wctombString c = utf8Char ch ∨ RefusedCharacter c)) ∧
    ¬ (∀ ch : Char, IsCode ch.toNat →
      getc (Lexer.start (wctombString ch.toNat)) = .ok ((ch.toNat : ℤ), Lexer.start [])) := by
  constructor
  · intro h
    obtain ⟨ch, hch, -⟩ := h (Lexer.start [0xED, 0xA0, 0x80]) (Lexer.start []) 0xD800 rfl
      (by decide) (by decide) (by decide)
    have hchar := char_lt ch
    omega
  · intro h
    exact absurd (h '\r' (by decide)) (by decide)

end SnapCpp.Css
