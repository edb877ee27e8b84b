import SnapCpp.Utf

/-!
Replacing several patterns of a string in one pass. The function works on
bytes, on code units or on characters alike; patterns made of ASCII characters
are found in an encoded text exactly where they are in the text itself.
-/
namespace SnapCpp.StringReplace

open Utf

section Replace

variable {α : Type} [DecidableEq α]

/-- The loop of `string_replace_many()`. The first `n` elements belong to a
match that has been replaced already. -/
def replaceFrom (search : List (List α × List α)) : ℕ → List α → List α
  | _, [] => []
  | n + 1, _ :: rest => replaceFrom search n rest
  | 0, c :: rest =>
      match search.find? (fun nr => nr.1.isPrefixOf (c :: rest)) with
      | none => c :: replaceFrom search 0 rest
      | some nr => nr.2 ++ replaceFrom search (nr.1.length - 1) rest

def stringReplaceMany (input : List α) (search : List (List α × List α)) : List α :=
  replaceFrom search 0 input

/-- Elements with which no pattern starts are copied. -/
theorem replaceFrom_append (search : List (List α × List α)) (front s : List α)
    (h : ∀ u ∈ front, ∀ nr ∈ search, nr.1.head? ≠ some u ∧ nr.1 ≠ []) :
    replaceFrom search 0 (front ++ s) = front ++ replaceFrom search 0 s := by
  induction front with
  | nil => rfl
  | cons u rest ih =>
    have hnone : search.find? (fun nr => nr.1.isPrefixOf (u :: (rest ++ s))) = none := by
      rw [List.find?_eq_none]
      intro nr hnr hpre
      obtain ⟨hhead, hne⟩ := h u List.mem_cons_self nr hnr
      obtain ⟨a, more, hcons⟩ := List.exists_cons_of_ne_nil hne
      rw [hcons] at hpre hhead
      simp only [List.isPrefixOf_cons_cons, Bool.and_eq_true, beq_iff_eq] at hpre
      exact hhead (by rw [List.head?_cons, hpre.1])
    rw [List.cons_append, replaceFrom, hnone]
    exact congrArg (List.cons u) (ih (List.forall_mem_cons.mp h).2)

/-- What is in the result was in the string or comes from a replacement. -/
theorem mem_replaceFrom {search : List (List α × List α)} {n : ℕ} {s : List α} {c : α}
    (h : c ∈ replaceFrom search n s) : c ∈ s ∨ ∃ nr ∈ search, c ∈ nr.2 := by
  induction s generalizing n with
  | nil => cases n <;> cases h
  | cons a rest ih =>
    have hlift : c ∈ rest ∨ (∃ nr ∈ search, c ∈ nr.2) →
        c ∈ a :: rest ∨ ∃ nr ∈ search, c ∈ nr.2 :=
      fun hrest => hrest.imp_left (List.mem_cons_of_mem a)
    cases n with
    | succ n => exact hlift (ih h)
    | zero =>
      rw [replaceFrom] at h
      split at h
      · rcases List.mem_cons.mp h with rfl | h
        · exact Or.inl List.mem_cons_self
        · exact hlift (ih h)
      · rename_i nr hmatch
        rcases List.mem_append.mp h with h | h
        · exact Or.inr ⟨nr, List.mem_of_find?_eq_some hmatch, h⟩
        · exact hlift (ih h)

end Replace

def IsAscii (c : Char) : Prop := c.toNat < 0x80

instance (c : Char) : Decidable (IsAscii c) := inferInstanceAs (Decidable (c.toNat < 0x80))

structure AsciiCompatible {β : Type} (encode : Char → List β) (unit : Char → β) : Prop where
  ascii : ∀ c, IsAscii c → encode c = [unit c]
  ne_nil : ∀ c, encode c ≠ []
  other : ∀ c, ¬ IsAscii c → ∀ u ∈ encode c, ∀ a, IsAscii a → u ≠ unit a
  injective : ∀ a b, IsAscii a → IsAscii b → unit a = unit b → a = b

structure AsciiTable (search : List (List Char × List Char)) : Prop where
  needle : ∀ nr ∈ search, nr.1 ≠ [] ∧ ∀ c ∈ nr.1, IsAscii c
  replacement : ∀ nr ∈ search, ∀ c ∈ nr.2, IsAscii c

def encodeTable {β : Type} (unit : Char → β) (search : List (List Char × List Char)) :
    List (List β × List β) :=
  search.map (fun nr => (nr.1.map unit, nr.2.map unit))

section Encoding

variable {β : Type} [DecidableEq β] {encode : Char → List β} {unit : Char → β}
  {search : List (List Char × List Char)}

omit [DecidableEq β] in
theorem AsciiCompatible.map (h : AsciiCompatible encode unit) (s : List Char)
    (hs : ∀ c ∈ s, IsAscii c) : s.map unit = s.flatMap encode := by
  induction s with
  | nil => rfl
  | cons c rest ih =>
    rw [List.map_cons, List.flatMap_cons, h.ascii c (hs c List.mem_cons_self),
      ih (List.forall_mem_cons.mp hs).2]
    rfl

section Units

omit [DecidableEq β]

variable (h : AsciiCompatible encode unit) {a : Char} (ha : IsAscii a)

include h ha

theorem AsciiCompatible.mem_char {c : Char} : unit a ∈ encode c ↔ a = c := by
  by_cases hc : IsAscii c
  · rw [h.ascii c hc, List.mem_singleton]
    exact ⟨h.injective a c ha hc, fun heq => by rw [heq]⟩
  · refine ⟨fun hmem => absurd rfl (h.other c hc _ hmem a ha), ?_⟩
    rintro rfl
    exact absurd ha hc

theorem AsciiCompatible.mem_iff (cs : List Char) : unit a ∈ cs.flatMap encode ↔ a ∈ cs := by
  rw [List.mem_flatMap]
  constructor
  · rintro ⟨c, hc, hmem⟩
    rwa [(h.mem_char ha).mp hmem]
  · exact fun hmem => ⟨a, hmem, (h.mem_char ha).mpr rfl⟩

theorem AsciiCompatible.head_iff (cs : List Char) :
    (cs.flatMap encode).head? = some (unit a) ↔ cs.head? = some a := by
  cases cs with
  | nil => simp
  | cons c rest =>
    rw [List.flatMap_cons, List.head?_append_of_ne_nil _ (h.ne_nil c), List.head?_cons]
    constructor
    · intro hhead
      rw [(h.mem_char ha).mp (List.mem_of_head? hhead)]
    · intro heq
      cases heq
      rw [h.ascii a ha]
      rfl

theorem AsciiCompatible.last_iff (cs : List Char) :
    (cs.flatMap encode).getLast? = some (unit a) ↔ cs.getLast? = some a := by
  rcases List.eq_nil_or_concat' cs with rfl | ⟨front, c, rfl⟩
  · simp
  · rw [List.flatMap_append, List.getLast?_concat, List.flatMap_cons, List.flatMap_nil,
      List.append_nil, List.getLast?_append_of_ne_nil _ (h.ne_nil c)]
    constructor
    · intro hlast
      rw [(h.mem_char ha).mp (List.mem_of_getLast? hlast)]
    · intro heq
      cases heq
      rw [h.ascii a ha]
      rfl

end Units

/-- An ASCII pattern is found in the encoded text where it is in the text. -/
theorem AsciiCompatible.isPrefixOf (h : AsciiCompatible encode unit) (needle cs : List Char)
    (hneedle : ∀ c ∈ needle, IsAscii c) :
    (needle.map unit).isPrefixOf (cs.flatMap encode) = needle.isPrefixOf cs := by
  induction needle generalizing cs with
  | nil => simp
  | cons a rest ih =>
    have ha := hneedle a List.mem_cons_self
    cases cs with
    | nil => rfl
    | cons c cs =>
      rw [List.map_cons, List.flatMap_cons, List.isPrefixOf_cons_cons]
      by_cases hc : IsAscii c
      · rw [h.ascii c hc, List.singleton_append, List.isPrefixOf_cons_cons,
          ih cs (List.forall_mem_cons.mp hneedle).2]
        by_cases hac : a = c
        · simp [hac]
        · have hne : unit a ≠ unit c := fun heq => hac (h.injective a c ha hc heq)
          simp only [beq_false_of_ne hne, beq_false_of_ne hac, Bool.false_and]
      · obtain ⟨u, us, hcons⟩ := List.exists_cons_of_ne_nil (h.ne_nil c)
        have hne : unit a ≠ u := Ne.symm (h.other c hc u (by rw [hcons]; simp) a ha)
        have hac : a ≠ c := fun heq => hc (heq ▸ ha)
        rw [hcons, List.cons_append, List.isPrefixOf_cons_cons]
        simp only [beq_false_of_ne hne, beq_false_of_ne hac, Bool.false_and]

theorem AsciiCompatible.find (h : AsciiCompatible encode unit)
    (hsearch : AsciiTable search) (cs : List Char) :
    (encodeTable unit search).find? (fun nr => nr.1.isPrefixOf (cs.flatMap encode)) =
      (search.find? (fun nr => nr.1.isPrefixOf cs)).map
        (fun nr => (nr.1.map unit, nr.2.map unit)) := by
  rw [encodeTable, List.find?_map]
  refine congrArg (Option.map _) (List.find?_congr ?_)
  intro nr hnr
  exact h.isPrefixOf nr.1 cs (hsearch.needle nr hnr).2

/-- Replacing ASCII patterns commutes with encoding. -/
theorem AsciiCompatible.replaceFrom (h : AsciiCompatible encode unit)
    (hsearch : AsciiTable search) (cs : List Char) (n : ℕ)
    (hn : ∀ c ∈ cs.take n, IsAscii c) :
    StringReplace.replaceFrom (encodeTable unit search) n (cs.flatMap encode) =
      (StringReplace.replaceFrom search n cs).flatMap encode := by
  induction cs generalizing n with
  | nil => rfl
  | cons c rest ih =>
    cases n with
    | succ n =>
      have hc : IsAscii c := hn c (by simp)
      rw [List.flatMap_cons, h.ascii c hc]
      exact ih n (fun a ha => hn a (by simp [ha]))
    | zero =>
      by_cases hc : IsAscii c
      · have hfind := h.find hsearch (c :: rest)
        have hflat : (c :: rest).flatMap encode = unit c :: rest.flatMap encode := by
          rw [List.flatMap_cons, h.ascii c hc]
          rfl
        rw [hflat] at hfind ⊢
        rw [StringReplace.replaceFrom, StringReplace.replaceFrom, hfind]
        cases hmatch : search.find? (fun nr => nr.1.isPrefixOf (c :: rest)) with
        | none =>
          simp only [Option.map_none, List.flatMap_cons, h.ascii c hc, List.singleton_append]
          rw [ih 0 (by simp)]
        | some nr =>
          have hmem := List.mem_of_find?_eq_some hmatch
          obtain ⟨hne, hascii⟩ := hsearch.needle nr hmem
          have hpre := List.find?_some hmatch
          obtain ⟨a, more, hcons⟩ := List.exists_cons_of_ne_nil hne
          have htake : rest.take (nr.1.length - 1) = more := by
            rw [hcons, List.isPrefixOf_cons_cons, Bool.and_eq_true, List.isPrefixOf_iff_prefix]
              at hpre
            rw [hcons]
            exact (List.prefix_iff_eq_take.mp hpre.2).symm
          simp only [Option.map_some, List.flatMap_append, List.length_map]
          rw [h.map nr.2 (hsearch.replacement nr hmem), ih (nr.1.length - 1) (by
            rw [htake]
            exact fun b hb => hascii b (by rw [hcons]; exact List.mem_cons_of_mem _ hb))]
      · have hnone : search.find? (fun nr => nr.1.isPrefixOf (c :: rest)) = none := by
          rw [List.find?_eq_none]
          intro nr hnr hpre
          obtain ⟨hne, hascii⟩ := hsearch.needle nr hnr
          obtain ⟨a, more, hcons⟩ := List.exists_cons_of_ne_nil hne
          rw [hcons, List.isPrefixOf_cons_cons, Bool.and_eq_true, beq_iff_eq] at hpre
          exact hc (hpre.1 ▸ hascii a (by rw [hcons]; simp))
        rw [StringReplace.replaceFrom, hnone, List.flatMap_cons, List.flatMap_cons,
          replaceFrom_append, ih 0 (by simp)]
        intro u hu nr hnr
        obtain ⟨nr', hnr', rfl⟩ := List.mem_map.mp hnr
        obtain ⟨hne, hascii⟩ := hsearch.needle nr' hnr'
        refine ⟨?_, by simpa using hne⟩
        obtain ⟨a, more, hcons⟩ := List.exists_cons_of_ne_nil hne
        rw [hcons, List.map_cons, List.head?_cons]
        exact fun heq => h.other c hc u hu a (hascii a (by rw [hcons]; simp))
          (Option.some.inj heq).symm

theorem AsciiCompatible.stringReplaceMany (h : AsciiCompatible encode unit)
    (hsearch : AsciiTable search) (cs : List Char) :
    StringReplace.stringReplaceMany (cs.flatMap encode) (encodeTable unit search) =
      (StringReplace.stringReplaceMany cs search).flatMap encode :=
  h.replaceFrom hsearch cs 0 (by simp)

end Encoding

def unit8 (c : Char) : UInt8 := c.toNat.toUInt8

def unit16 (c : Char) : UInt16 := c.toNat.toUInt16

theorem utf8_asciiCompatible : AsciiCompatible utf8Char unit8 where
  ascii := fun c hc => if_pos hc
  ne_nil := by
    intro c
    unfold utf8Char
    split_ifs <;> simp
  other := by
    intro c hc u hu a ha heq
    have hlt := char_lt c
    have hnat : unit8 a = a.toNat.toUInt8 := rfl
    have hsmall : u.toNat < 0x80 := by
      rw [heq, hnat, toNat_toUInt8 (lt_trans ha (by decide))]
      exact ha
    have hbytes : ∀ v ∈ utf8Char c, 0x80 ≤ v.toNat := by
      unfold IsAscii at hc
      unfold utf8Char
      rw [if_neg hc]
      split_ifs with htwo hthree
      · rw [List.forall_mem_cons, List.forall_mem_cons]
        exact ⟨by rw [toNat_toUInt8 (by omega)]; omega, by rw [toNat_toUInt8 (by omega)]; omega,
          by simp⟩
      · rw [List.forall_mem_cons, List.forall_mem_cons, List.forall_mem_cons]
        exact ⟨by rw [toNat_toUInt8 (by omega)]; omega, by rw [toNat_toUInt8 (by omega)]; omega,
          by rw [toNat_toUInt8 (by omega)]; omega, by simp⟩
      · rw [List.forall_mem_cons, List.forall_mem_cons, List.forall_mem_cons,
          List.forall_mem_cons]
        exact ⟨by rw [toNat_toUInt8 (by omega)]; omega, by rw [toNat_toUInt8 (by omega)]; omega,
          by rw [toNat_toUInt8 (by omega)]; omega, by rw [toNat_toUInt8 (by omega)]; omega,
          by simp⟩
    have := hbytes u hu
    omega
  injective := by
    intro a b ha hb heq
    have hnat := congrArg UInt8.toNat heq
    rw [unit8, unit8, toNat_toUInt8 (lt_trans ha (by decide)),
      toNat_toUInt8 (lt_trans hb (by decide))] at hnat
    exact Char.ext (UInt32.toNat_inj.mp hnat)

theorem utf16_asciiCompatible : AsciiCompatible utf16Char unit16 where
  ascii := fun c hc => if_pos (lt_trans hc (by decide))
  ne_nil := by
    intro c
    unfold utf16Char
    split_ifs <;> simp
  other := by
    intro c hc u hu a ha heq
    have hlt := char_lt c
    have hsmall : u.toNat < 0x80 := by
      rw [heq, unit16, toNat_toUInt16 (lt_trans ha (by decide))]
      exact ha
    unfold IsAscii at hc
    unfold utf16Char at hu
    split_ifs at hu with hplane
    · rw [List.mem_singleton.mp hu, toNat_toUInt16 hplane] at hsmall
      omega
    · rcases List.mem_pair.mp hu with rfl | rfl
      · rw [toNat_toUInt16 (by omega)] at hsmall
        omega
      · rw [toNat_toUInt16 (by omega)] at hsmall
        omega
  injective := by
    intro a b ha hb heq
    have hnat := congrArg UInt16.toNat heq
    rw [unit16, unit16, toNat_toUInt16 (lt_trans ha (by decide)),
      toNat_toUInt16 (lt_trans hb (by decide))] at hnat
    exact Char.ext (UInt32.toNat_inj.mp hnat)

section Bytes

theorem unit8_toNat {c : Char} (hc : IsAscii c) : (unit8 c).toNat = c.toNat :=
  toNat_toUInt8 (lt_trans hc (by decide))

/-- An ASCII character is read where its byte is. -/
theorem count_decodeFrom {c : Char} (hc : IsAscii c) (b : List UInt8) :
    (decodeFrom 0 b).count c = b.count (unit8 c) := by
  induction hn : b.length using Nat.strong_induction_on generalizing b with
  | _ n ih =>
    cases b with
    | nil => rfl
    | cons a rest =>
      rw [List.length_cons] at hn
      rw [decodeFrom, List.count_cons, List.count_cons]
      by_cases ha : 0x80 ≤ a.toNat
      · obtain ⟨hchar, hlength, hnext⟩ := firstChar_spec ha rest
        have hleft : ((firstChar a rest).1 == c) = false := by
          refine beq_false_of_ne fun heq => ?_
          rw [heq] at hchar
          exact absurd hc (not_lt.mpr hchar)
        have hright : (a == unit8 c) = false := by
          refine beq_false_of_ne fun heq => ?_
          rw [heq, unit8_toNat hc] at ha
          exact absurd hc (not_lt.mpr ha)
        have hskipped : (rest.take (firstChar a rest).2).count (unit8 c) = 0 := by
          refine List.count_eq_zero.mpr fun hmem => ?_
          have hbyte := hnext _ hmem
          rw [isNext, unit8_toNat hc, Bool.and_eq_true, decide_eq_true_iff] at hbyte
          exact absurd hc (not_lt.mpr hbyte.1)
        have hrest := ih _ (by rw [← hn, List.length_drop]; omega)
          (rest.drop (firstChar a rest).2) rfl
        have hsplit := congrArg (List.count (unit8 c))
          (List.take_append_drop (firstChar a rest).2 rest)
        rw [List.count_append, hskipped] at hsplit
        rw [hleft, hright, decodeFrom_drop, hrest]
        simpa using hsplit
      · have hfirst : firstChar a rest = (Char.ofNat a.toNat, 0) := by
          unfold firstChar
          rw [if_pos (by omega)]
        have hsame : (Char.ofNat a.toNat == c) = (a == unit8 c) := by
          rw [Bool.eq_iff_iff, beq_iff_eq, beq_iff_eq]
          constructor
          · rintro rfl
            rw [unit8, toNat_ofNat_ascii (by omega)]
            simp
          · rintro rfl
            rw [unit8_toNat hc, Char.ofNat_toNat]
        rw [hfirst, hsame, ih _ (by omega) rest rfl]

variable {w : List Char}

theorem isAscii_of_utf8 (h : ∀ b ∈ utf8 w, b.toNat < 128) : ∀ c ∈ w, IsAscii c := by
  intro c hc
  by_contra hother
  obtain ⟨u, hu⟩ := List.exists_mem_of_ne_nil _ (utf8_asciiCompatible.ne_nil c)
  have hlt : u.toNat < 128 := h u (List.mem_flatMap.mpr ⟨c, hc, hu⟩)
  refine utf8_asciiCompatible.other c hother u hu (Char.ofNat u.toNat) ?_ ?_
  · rw [IsAscii, toNat_ofNat_ascii hlt]
    exact hlt
  · rw [unit8, toNat_ofNat_ascii hlt]
    simp

theorem utf8_ascii (h : ∀ c ∈ w, IsAscii c) : utf8 w = w.map unit8 :=
  (utf8_asciiCompatible.map w h).symm

end Bytes

end SnapCpp.StringReplace
