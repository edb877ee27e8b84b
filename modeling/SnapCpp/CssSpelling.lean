import SnapCpp.CssReading

/-!
The bytes of codes, and what the texts of names and strings stand for. A code is written as one to
four bytes from which it is read again, and the ends of lines and pages are read as newlines.
-/
namespace SnapCpp.Css

open Computability

/-- A code that `wctomb()` writes without an error. -/
def IsCode (c : ℤ) : Prop := (encoding c).2 = []

instance : DecidablePred IsCode := fun c => inferInstanceAs (Decidable ((encoding c).2 = []))

def spell (cs : List ℤ) : Bytes := cs.flatMap fun c => (encoding c).1

/-- A code as it is read: the ends of lines and pages are newlines. -/
def asRead (c : ℤ) : ℤ := if c = '\r' ∨ c = 12 then '\n' else c

def normalise : List ℤ → List ℤ
  | [] => []
  | c :: cs =>
      asRead c :: normalise (if c = '\r' ∧ cs.head? = some ('\n' : ℤ) then cs.tail else cs)
termination_by cs => cs.length
decreasing_by
  rw [List.length_cons]
  split_ifs
  · have := List.length_tail (l := cs)
    omega
  · omega

section Encoding

/-- The bytes that stand for a code in UTF-8. -/
structure Encodes (c : ℤ) (b : UInt8) (bs : Bytes) : Prop where
  encoding : Css.encoding c = (b :: bs, [])
  first : isFollow b = false
  follow : ∀ x ∈ bs, isFollow x = true
  decoded : mbtowc (b :: bs) = (c, [])
  single : b < 0x80 → bs = []
  several : ¬ b < 0x80 → 0xC0 ≤ b ∧ b < 0xFF ∧ bs.length < 7

variable {n : ℕ} {c : ℤ}

theorem toNat_toUInt8 (h : n < 256) : n.toUInt8.toNat = n := by
  change (UInt8.ofNat n).toNat = n
  rw [UInt8.toNat_ofNat', Nat.mod_eq_of_lt h]

theorem isFollow_toUInt8 (h : n < 64) : isFollow (n + 0x80).toUInt8 = true := by
  have hn := toNat_toUInt8 (by omega : n + 0x80 < 256)
  simp only [isFollow, Bool.and_eq_true, decide_eq_true_eq, UInt8.le_iff_toNat_le, hn]
  exact ⟨by show 128 ≤ n + 128; omega, by show n + 128 ≤ 191; omega⟩

/-- A byte that follows is read. -/
theorem sequence_follow (wc count n : ℕ) (h : n < 64) (s : Bytes) :
    sequence wc (count + 1) ((n + 0x80).toUInt8 :: s) = sequence (wc * 64 + n : ℕ) count s := by
  have hn := toNat_toUInt8 (by omega : n + 0x80 < 256)
  have hzero : (n + 0x80).toUInt8 ≠ 0 := by
    intro heq
    rw [heq] at hn
    simp at hn
  rw [sequence, if_neg hzero, isFollow_toUInt8 h, if_neg (by simp), hn]
  congr 1
  omega

theorem encodes_single (hpos : 0 ≤ c) (hc : c < 0x80) : Encodes c c.toNat.toUInt8 [] := by
  have hn := toNat_toUInt8 (by omega : c.toNat < 256)
  have hlt : c.toNat.toUInt8 < 0x80 := by
    rw [UInt8.lt_iff_toNat_lt, hn]
    show c.toNat < 128
    omega
  refine ⟨?_, ?_, by simp, ?_, fun _ => rfl, fun h => absurd hlt h⟩
  · rw [encoding, if_neg (by omega), if_pos hc]
  · have hnot : ¬ 0x80 ≤ c.toNat.toUInt8 := UInt8.not_le.mpr hlt
    simp [isFollow, hnot]
  · rw [mbtowc, if_pos hlt, hn, Int.toNat_of_nonneg hpos]

/-- The first byte of several ones. -/
theorem encodes_several {bs : Bytes} (hn : 0xC0 ≤ n) (hn' : n < 0xF8)
    (hencoding : Css.encoding c = (n.toUInt8 :: bs, [])) (hfollow : ∀ x ∈ bs, isFollow x = true)
    (hlength : bs.length < 7)
    (hdecoded : (if 0xF0 ≤ n then sequence (n % 8 : ℕ) 3 bs
      else if 0xE0 ≤ n then sequence (n % 16 : ℕ) 2 bs
      else sequence (n % 32 : ℕ) 1 bs) = (c, [])) : Encodes c n.toUInt8 bs := by
  have hbyte := toNat_toUInt8 (by omega : n < 256)
  have hle : ∀ k : UInt8, k ≤ n.toUInt8 ↔ k.toNat ≤ n := fun k => by
    rw [UInt8.le_iff_toNat_le, hbyte]
  have hlt : ∀ k : UInt8, n.toUInt8 < k ↔ n < k.toNat := fun k => by
    rw [UInt8.lt_iff_toNat_lt, hbyte]
  have hsingle : ¬ n.toUInt8 < 0x80 := by
    rw [hlt]
    show ¬ n < 128
    omega
  refine ⟨hencoding, ?_, hfollow, ?_, fun h => absurd h hsingle, fun _ => ⟨?_, ?_, hlength⟩⟩
  · have hnot : ¬ n.toUInt8 ≤ 0xBF := by
      rw [UInt8.not_le, UInt8.lt_iff_toNat_lt, hbyte]
      show 191 < n
      omega
    simp [isFollow, hnot]
  · rw [mbtowc, if_neg hsingle, if_neg (by rw [hle]; show ¬ 248 ≤ n; omega)]
    simp only [hle, hbyte]
    rw [← hdecoded]
    exact if_congr Iff.rfl rfl (if_congr Iff.rfl rfl (if_pos hn))
  · rw [hle]
    exact hn
  · rw [hlt]
    show n < 255
    omega

theorem exists_encodes (h : IsCode c) : ∃ b bs, Encodes c b bs := by
  rw [IsCode, encoding] at h
  split_ifs at h with hneg hsingle htwo hthree hsurrogate hlast hfour hplane
  · exact ⟨_, _, encodes_single (by omega) hsingle⟩
  all_goals obtain ⟨n, rfl⟩ := Int.eq_ofNat_of_zero_le (not_lt.mp hneg)
  all_goals simp only [Int.toNat_natCast] at *
  · refine ⟨(n / 64 + 0xC0).toUInt8, [(n % 64 + 0x80).toUInt8],
      encodes_several (by omega) (by omega) ?_ ?_ (by simp) ?_⟩
    · simp only [encoding, Int.toNat_natCast]
      rw [if_neg hneg, if_neg hsingle, if_pos htwo]
    · exact List.forall_mem_singleton.mpr (isFollow_toUInt8 (by omega))
    · rw [if_neg (by omega), if_neg (by omega), sequence_follow _ _ _ (by omega), sequence]
      congr 2
      omega
  · refine ⟨(n / 4096 + 0xE0).toUInt8, [(n / 64 % 64 + 0x80).toUInt8, (n % 64 + 0x80).toUInt8],
      encodes_several (by omega) (by omega) ?_ ?_ (by simp) ?_⟩
    · simp only [encoding, Int.toNat_natCast]
      rw [if_neg hneg, if_neg hsingle, if_neg htwo, if_pos hthree, if_neg hsurrogate, if_neg hlast]
    · exact List.forall_mem_cons.mpr ⟨isFollow_toUInt8 (by omega),
        List.forall_mem_singleton.mpr (isFollow_toUInt8 (by omega))⟩
    · rw [if_neg (by omega), if_pos (by omega), sequence_follow _ _ _ (by omega),
        sequence_follow _ _ _ (by omega), sequence]
      congr 2
      omega
  · refine ⟨(n / 262144 + 0xF0).toUInt8, [(n / 4096 % 64 + 0x80).toUInt8,
      (n / 64 % 64 + 0x80).toUInt8, (n % 64 + 0x80).toUInt8],
      encodes_several (by omega) (by omega) ?_ ?_ (by simp) ?_⟩
    · simp only [encoding, Int.toNat_natCast]
      rw [if_neg hneg, if_neg hsingle, if_neg htwo, if_neg hthree, if_pos hfour, if_neg hplane]
    · exact List.forall_mem_cons.mpr ⟨isFollow_toUInt8 (by omega), List.forall_mem_cons.mpr
        ⟨isFollow_toUInt8 (by omega),
          List.forall_mem_singleton.mpr (isFollow_toUInt8 (by omega))⟩⟩
    · rw [if_pos (by omega), sequence_follow _ _ _ (by omega), sequence_follow _ _ _ (by omega),
        sequence_follow _ _ _ (by omega), sequence]
      congr 2
      omega

section Bytes

variable {c : ℤ} {b : UInt8} {bs rest : Bytes}

theorem Encodes.takeWhile (h : Encodes c b bs) (hrest : ∀ x ∈ rest.head?, isFollow x = false) :
    (bs ++ rest).takeWhile isFollow = bs := by
  rw [List.takeWhile_append_of_pos h.follow]
  cases rest with
  | nil => exact List.append_nil bs
  | cons x rest => rw [List.takeWhile_cons_of_neg (by simp [hrest x rfl]), List.append_nil]

theorem Encodes.dropWhile (h : Encodes c b bs) (hrest : ∀ x ∈ rest.head?, isFollow x = false) :
    (bs ++ rest).dropWhile isFollow = rest := by
  rw [List.dropWhile_append_of_pos h.follow]
  cases rest with
  | nil => rfl
  | cons x rest => rw [List.dropWhile_cons_of_neg (by simp [hrest x rfl])]

theorem Encodes.eq_of_single (h : Encodes c b bs) (hsingle : b < 0x80) : c = b.toNat := by
  have hdecoded := h.decoded
  rw [mbtowc, if_pos hsingle] at hdecoded
  exact (Prod.mk.inj hdecoded).1.symm

theorem Encodes.readChar (h : Encodes c b bs) (hrest : ∀ x ∈ rest.head?, isFollow x = false) :
    readChar b (bs ++ rest) = Reading.normal ⟨c, [], rest⟩ := by
  rw [Css.readChar]
  congr 1
  by_cases hsingle : b < 0x80
  · rw [if_pos hsingle, h.single hsingle, ← h.eq_of_single hsingle, List.nil_append]
  · obtain ⟨hfirst, hlast, hlength⟩ := h.several hsingle
    rw [if_neg hsingle, if_pos ⟨hfirst, hlast⟩, h.takeWhile hrest, h.dropWhile hrest,
      if_neg (by omega), h.decoded]

end Bytes

end Encoding

section Spelling

variable {c : ℤ} {cs ds : List ℤ}

@[simp] theorem spell_nil : spell [] = [] := rfl

theorem spell_cons (c : ℤ) (cs : List ℤ) : spell (c :: cs) = (encoding c).1 ++ spell cs := rfl

theorem spell_append (cs ds : List ℤ) : spell (cs ++ ds) = spell cs ++ spell ds :=
  List.flatMap_append

theorem Encodes.spell {b : UInt8} {bs : Bytes} (h : Encodes c b bs) (cs : List ℤ) :
    spell (c :: cs) = b :: (bs ++ Css.spell cs) := by
  rw [spell_cons, h.encoding, List.cons_append]

theorem head_spell (h : ∀ c ∈ cs, IsCode c) : ∀ x ∈ (spell cs).head?, isFollow x = false := by
  cases cs with
  | nil => simp
  | cons c cs =>
    obtain ⟨b, bs, hc⟩ := exists_encodes (h c List.mem_cons_self)
    rw [hc.spell]
    intro x hx
    rw [← Option.some.inj hx]
    exact hc.first

theorem spell_injective (hcs : ∀ c ∈ cs, IsCode c) (hds : ∀ d ∈ ds, IsCode d)
    (h : spell cs = spell ds) : cs = ds := by
  induction cs generalizing ds with
  | nil =>
    cases ds with
    | nil => rfl
    | cons d ds =>
      obtain ⟨b, bs, hd⟩ := exists_encodes (hds d List.mem_cons_self)
      rw [hd.spell] at h
      cases h
  | cons c cs ih =>
    obtain ⟨b, bs, hc⟩ := exists_encodes (hcs c List.mem_cons_self)
    cases ds with
    | nil =>
      rw [hc.spell] at h
      cases h
    | cons d ds =>
      obtain ⟨b', bs', hd⟩ := exists_encodes (hds d List.mem_cons_self)
      have hcs' := (List.forall_mem_cons.mp hcs).2
      have hds' := (List.forall_mem_cons.mp hds).2
      rw [hc.spell, hd.spell] at h
      obtain ⟨rfl, htail⟩ := List.cons.inj h
      have hbytes := congrArg (List.takeWhile isFollow) htail
      have hrest := congrArg (List.dropWhile isFollow) htail
      rw [hc.takeWhile (head_spell hcs'), hd.takeWhile (head_spell hds')] at hbytes
      rw [hc.dropWhile (head_spell hcs'), hd.dropWhile (head_spell hds')] at hrest
      have hdecoded := hc.decoded
      rw [hbytes, hd.decoded] at hdecoded
      rw [(Prod.mk.inj hdecoded).1, ih hcs' hds' hrest]

/-- Codes that are read again, apart from the ends of lines. -/
def Plain (cs : List ℤ) : Prop := ∀ c ∈ cs, IsCode c ∧ c ≠ 0

theorem Plain.tail (h : Plain (c :: cs)) : Plain cs := (List.forall_mem_cons.mp h).2

theorem Plain.isCode (h : Plain cs) : ∀ c ∈ cs, IsCode c := fun c hc => (h c hc).1

theorem encoding_newline : encoding ('\n' : ℤ) = ([10], []) := by decide

theorem head_spell_newline (h : Plain cs) :
    (spell cs).head? = some 10 ↔ cs.head? = some ('\n' : ℤ) := by
  cases cs with
  | nil => simp
  | cons c cs =>
    obtain ⟨b, bs, hc⟩ := exists_encodes (h.isCode c List.mem_cons_self)
    rw [hc.spell, List.head?_cons, List.head?_cons, Option.some_inj, Option.some_inj]
    constructor
    · rintro rfl
      rw [hc.eq_of_single (by decide)]
      rfl
    · rintro rfl
      have hencoding := hc.encoding
      rw [encoding_newline] at hencoding
      exact (List.cons.inj (Prod.mk.inj hencoding).1).1.symm

theorem characters_spell (h : Plain cs) :
    characters (spell cs) = (normalise cs).map fun c => (c, []) := by
  induction hlength : cs.length using Nat.strong_induction_on generalizing cs with
  | _ n ih =>
    cases cs with
    | nil => rw [spell_nil, characters, normalise, List.map_nil]
    | cons c cs =>
      obtain ⟨b, bs, hc⟩ := exists_encodes (h.isCode c List.mem_cons_self)
      rw [List.length_cons] at hlength
      rw [hc.spell, characters_cons, hc.readChar (head_spell h.tail.isCode), Reading.normal,
        normalise, asRead]
      by_cases hreturn : c = '\r'
      · simp only [hreturn, if_true, true_or, true_and, head_spell_newline h.tail]
        by_cases hnewline : cs.head? = some ('\n' : ℤ)
        · obtain ⟨ds, rfl⟩ := List.head?_eq_some_iff.mp hnewline
          rw [List.length_cons] at hlength
          simp only [hnewline, if_true, List.tail_cons, List.map_cons]
          rw [spell_cons, encoding_newline]
          simp only [List.cons_append, List.nil_append, List.tail_cons]
          rw [ih _ (by omega) h.tail.tail rfl]
        · simp only [hnewline, if_false, List.map_cons]
          rw [ih _ (by omega) h.tail rfl]
      · simp only [hreturn, if_false, false_or, false_and, List.map_cons]
        have hzero := (h c List.mem_cons_self).2
        by_cases hpage : c = 12
        · simp only [hpage, if_true]
          rw [ih _ (by omega) h.tail rfl]
        · simp only [hpage, hzero, if_false]
          rw [ih _ (by omega) h.tail rfl]

end Spelling

section Pieces

/-- A text that is put together from pieces, with the codes they stand for. -/
inductive Spelled (piece : List ℤ → List ℤ → Prop) : List ℤ → List ℤ → Prop
  | nil : Spelled piece [] []
  | cons {w o v out : List ℤ} : piece w o → Spelled piece v out →
      Spelled piece (w ++ v) (o ++ out)

inductive NamePiece (raw : ℤ → Bool) : List ℤ → List ℤ → Prop
  | char {c : ℤ} : raw c = true → IsCode c → NamePiece raw [c] [c]
  | escape {w : List ℤ} {d : ℤ} : w ∈ escapeText d → d ≠ replacement → IsCode d →
      NamePiece raw w [d]
  | dropped {w : List ℤ} : w ∈ escapeText replacement → NamePiece raw w []

/-- A character of a string, which is neither its end nor the end of the line. -/
def isStringChar (quote c : ℤ) : Bool := c ≠ quote ∧ c ≠ '\n' ∧ c ≠ '\\'

inductive StringPiece (quote : ℤ) : List ℤ → List ℤ → Prop
  | name {w o : List ℤ} : NamePiece (isStringChar quote) w o → StringPiece quote w o
  | line : StringPiece quote [('\\' : ℤ), ('\n' : ℤ)] [('\n' : ℤ)]
  | lost : quote ≠ replacement → StringPiece quote [replacement] []

def StringEnd (quote : ℤ) (v out : List ℤ) : Prop :=
  ∃ w, v = w ++ [quote] ∧ Spelled (StringPiece quote) w out

variable {raw : ℤ → Bool} {x quote : ℤ} {v w o out : List ℤ} {piece piece' : List ℤ → List ℤ → Prop}

/-- A piece that is as long as what it stands for, where `x` is not counted. -/
def Exact (raw : ℤ → Bool) (x : ℤ) (w o : List ℤ) : Prop :=
  (∃ c, raw c = true ∧ w = [c] ∧ o = [c]) ∨ w = [('\\' : ℤ), x] ∧ o = [x]

/-- A character that may end a text: it is not part of an escape by digits. -/
structure IsStop (x : ℤ) : Prop where
  notHex : isHex x = false
  notSlash : x ≠ '\\'
  notReplacement : x ≠ replacement

theorem countP_escape {d : ℤ} (hx : IsStop x) (h : w ∈ escapeText d) :
    1 < w.countP (· ≠ x) ∨ w = [('\\' : ℤ), x] ∧ d = x := by
  have hslash : ('\\' : ℤ) ≠ x := hx.notSlash.symm
  rcases h with ⟨rfl, -, -⟩ | ⟨digits, spaces, rfl, -, hdigits, hne, -, -⟩
  · by_cases hd : d = x
    · exact Or.inr ⟨by rw [hd], hd⟩
    · left
      rw [List.countP_cons_of_pos (by simpa using hslash),
        List.countP_cons_of_pos (by simpa using hd)]
      omega
  · left
    have hall : digits.countP (· ≠ x) = digits.length := by
      rw [List.countP_eq_length]
      intro c hc
      have hhex := hdigits c hc
      refine decide_eq_true ?_
      rintro rfl
      rw [hx.notHex] at hhex
      cases hhex
    have hpos := List.length_pos_iff.mpr hne
    rw [List.cons_append, List.countP_cons_of_pos (by simpa using hslash), List.countP_append, hall]
    omega

/-- A piece is not shorter than what it stands for, where `x` is not counted. -/
theorem NamePiece.weight (h : NamePiece raw w o) (hx : IsStop x) (hraw : raw x = false) :
    o.length < w.countP (· ≠ x) ∨ o.length = w.countP (· ≠ x) ∧ Exact raw x w o := by
  cases h with
  | @char c hc _ =>
    have hne : c ≠ x := by
      rintro rfl
      rw [hraw] at hc
      cases hc
    right
    refine ⟨?_, Or.inl ⟨c, hc, rfl, rfl⟩⟩
    rw [List.countP_cons_of_pos (by simpa using hne)]
    rfl
  | @escape _ d hd _ _ =>
    rcases countP_escape hx hd with hlong | ⟨rfl, rfl⟩
    · exact Or.inl hlong
    · right
      refine ⟨?_, Or.inr ⟨rfl, rfl⟩⟩
      rw [List.countP_cons_of_pos (by simpa using hx.notSlash.symm),
        List.countP_cons_of_neg (by simp)]
      rfl
  | dropped hd =>
    rcases countP_escape hx hd with hlong | ⟨-, heq⟩
    · exact Or.inl (by rw [List.length_nil]; omega)
    · exact absurd heq.symm hx.notReplacement

theorem StringPiece.weight (h : StringPiece quote w o) (hquote : IsStop quote)
    (hnewline : quote ≠ '\n') :
    o.length < w.countP (· ≠ quote) ∨
      o.length = w.countP (· ≠ quote) ∧ Exact (isStringChar quote) quote w o := by
  cases h with
  | name h => exact h.weight hquote (by simp [isStringChar])
  | line =>
    left
    rw [List.countP_cons_of_pos (by simpa using hquote.notSlash.symm),
      List.countP_cons_of_pos (by simpa using hnewline.symm)]
    simp
  | lost _ =>
    left
    rw [List.countP_cons_of_pos (by simpa using hquote.notReplacement.symm)]
    simp

/-- A text as long as what it stands for is put together from pieces as long as theirs. -/
theorem Spelled.weight (h : Spelled piece v out) {p : ℤ → Bool}
    (hpiece : ∀ w o, piece w o → o.length < w.countP p ∨ o.length = w.countP p ∧ piece' w o) :
    out.length ≤ v.countP p ∧ (out.length = v.countP p → Spelled piece' v out) := by
  induction h with
  | nil => exact ⟨Nat.zero_le _, fun _ => .nil⟩
  | cons hfirst _ ih =>
    rw [List.length_append, List.countP_append]
    rcases hpiece _ _ hfirst with hlong | ⟨heq, hexact⟩
    · exact ⟨by omega, fun hall => by omega⟩
    · exact ⟨by omega, fun hall => .cons hexact (ih.2 (by omega))⟩

theorem Spelled.mem_exact (h : Spelled (Exact raw x) v out) :
    ∀ c ∈ out, raw c = true ∨ c = x ∧ ('\\' : ℤ) ∈ v := by
  induction h with
  | nil => simp
  | cons hfirst _ ih =>
    intro c hc
    rcases List.mem_append.mp hc with hc | hc
    · rcases hfirst with ⟨d, hd, rfl, rfl⟩ | ⟨rfl, rfl⟩
      · rw [List.mem_singleton.mp hc]
        exact Or.inl hd
      · rw [List.mem_singleton.mp hc]
        exact Or.inr ⟨rfl, by simp⟩
    · rcases ih c hc with hraw | ⟨heq, hmem⟩
      · exact Or.inl hraw
      · exact Or.inr ⟨heq, List.mem_append_right _ hmem⟩

theorem Spelled.mem_kstar {l : Language ℤ} (h : Spelled piece v out)
    (hpiece : ∀ w o, piece w o → w ∈ l) : v ∈ l∗ := by
  induction h with
  | nil => exact Language.nil_mem_kstar l
  | cons hfirst _ ih => exact cons_mem_kstar (hpiece _ _ hfirst) ih

theorem NamePiece.mem (h : NamePiece raw w o) : w ∈ oneOf raw + anyEscape := by
  cases h with
  | char hc _ => exact Or.inl (mem_oneOf hc)
  | escape hd _ _ => exact Or.inr ⟨_, hd⟩
  | dropped hd => exact Or.inr ⟨_, hd⟩

theorem StringPiece.mem (h : StringPiece quote w o) : w ∈ stringPiece quote := by
  cases h with
  | name h =>
    rcases h.mem with h | h
    · exact Or.inl (Or.inl h)
    · exact Or.inr h
  | line => exact Or.inl (Or.inr rfl)
  | lost hquote =>
    exact Or.inl (Or.inl (mem_oneOf (decide_eq_true ⟨hquote.symm, by decide, by decide⟩)))

theorem StringEnd.mem (h : StringEnd quote v out) : v ∈ stringEnd quote := by
  obtain ⟨w, rfl, hw⟩ := h
  exact Language.append_mem_mul (hw.mem_kstar fun _ _ h => h.mem) rfl

theorem StringEnd.cons (hfirst : StringPiece quote w o) (h : StringEnd quote v out) :
    StringEnd quote (w ++ v) (o ++ out) := by
  obtain ⟨y, rfl, hy⟩ := h
  exact ⟨w ++ y, (List.append_assoc w y [quote]).symm, .cons hfirst hy⟩

end Pieces

section Rules

variable {throws : Throw → Prop} {s : Lexer} {c : ℤ}

/-- A code is written without an error, or nothing is written. -/
theorem wctomb_spells {post : Bytes → Lexer → Prop}
    (h : ∀ t, t.codes = s.codes → s.errors.length ≤ t.errors.length →
      (t.errors.length = s.errors.length → IsCode c) → t.fUngetc.length = s.fUngetc.length →
      post (spell [c]) t) :
    Ensures (wctomb c) s throws post := by
  have hbytes : spell [c] = (encoding c).1 := List.append_nil _
  rw [hbytes] at h
  exact h _ rfl (by simp) (fun heq => by simpa [IsCode] using heq) rfl

/-- A piece is known after its code is written. -/
theorem Reads.spelled {l w : List ℤ} {e room : ℕ} {t u : Lexer} {good good' : Prop}
    (h : Reads l e room t w t.codes good) (hcodes : u.codes = t.codes)
    (herrors : t.errors.length ≤ u.errors.length)
    (hcode : u.errors.length = t.errors.length → IsCode c)
    (hunget : u.fUngetc.length = t.fUngetc.length) (hgood : good → IsCode c → good') :
    Reads l e room u w u.codes good' := by
  have he := h.errors
  have hr := h.room
  refine ⟨by rw [hcodes]; exact h.drops, by omega, fun heq => ?_, by omega⟩
  exact hgood (h.good (by omega)) (hcode (by omega))

end Rules

end SnapCpp.Css
