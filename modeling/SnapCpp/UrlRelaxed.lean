import SnapCpp.UrlCode

/-!
Relaxed decoding. What a text stands for is read off its tokens, which are found in the text, in
its characters and in its bytes alike. The bytes that are written for the tokens are then read as
UTF-8.
-/
namespace SnapCpp.UrlCode

open TldEmails QString Utf
open StringReplace (IsAscii AsciiCompatible unit8 unit16 utf8_asciiCompatible utf16_asciiCompatible
  count_decodeFrom)

section Tokens

variable {β : Type}

/-- What a text that is decoded is made of: characters, escapes, and percent signs with a single
digit. -/
inductive Token (β : Type) where
  | raw (u : β)
  | escaped (b : UInt8)
  | half (high : UInt8)
deriving DecidableEq

def digits : List (Char × UInt8) :=
  [('0', 0), ('1', 1), ('2', 2), ('3', 3), ('4', 4), ('5', 5), ('6', 6), ('7', 7), ('8', 8),
    ('9', 9), ('A', 10), ('B', 11), ('C', 12), ('D', 13), ('E', 14), ('F', 15), ('a', 10),
    ('b', 11), ('c', 12), ('d', 13), ('e', 14), ('f', 15)]

section Units

variable [DecidableEq β] (unit : Char → β)

def digit (u : β) : Option UInt8 := (digits.find? fun d => unit d.1 = u).map Prod.snd

def tokenAt (u : β) (rest : List β) : Token β × ℕ :=
  if u = unit '%' then
    match rest.head?.bind (digit unit), rest.tail.head?.bind (digit unit) with
    | some high, some low => (.escaped (high * 16 + low), 2)
    | some high, none => (.half high, 0)
    | none, _ => (.raw u, 0)
  else (.raw u, 0)

def tokensFrom : ℕ → List β → List (Token β)
  | _, [] => []
  | n + 1, _ :: rest => tokensFrom n rest
  | 0, u :: rest => (tokenAt unit u rest).1 :: tokensFrom (tokenAt unit u rest).2 rest

def tokens (s : List β) : List (Token β) := tokensFrom unit 0 s

def copied (u : β) : β := if u = unit '+' then unit ' ' else u

def render (encode : Char → List β) : Bytes → List (Token β) → List β
  | p, [] => (decodeFrom 0 p).flatMap encode
  | p, .escaped b :: ts => render encode (p ++ [b]) ts
  | p, .raw u :: ts => (decodeFrom 0 p).flatMap encode ++ copied unit u :: render encode [] ts
  | p, .half _ :: ts => (decodeFrom 0 p).flatMap encode ++ unit '%' :: render encode [] ts

end Units

/-- What a string stands for: its characters, a space for a plus sign, and the characters that are
escaped. A percent sign without two digits is one of the characters. -/
def literally (s : QString) : QString := render unit16 utf16Char [] (tokens unit16 s)

def mapToken (encode : Char → List β) : Token Char → List (Token β)
  | .raw c => (encode c).map .raw
  | .escaped b => [.escaped b]
  | .half high => [.half high]

variable [DecidableEq β] {encode : Char → List β} {unit : Char → β} {c : Char}

theorem digits_ascii : ∀ d ∈ digits, IsAscii d.1 := by decide

omit [DecidableEq β] in
theorem self_asciiCompatible : AsciiCompatible (fun c : Char => [c]) id where
  ascii := fun _ _ => rfl
  ne_nil := fun _ => List.cons_ne_nil _ _
  other := by
    intro c hc u hu a ha heq
    rw [List.mem_singleton.mp hu] at heq
    exact hc (heq ▸ ha)
  injective := fun _ _ _ _ heq => heq

theorem digit_unit (h : AsciiCompatible encode unit) {a : Char} (ha : IsAscii a) :
    digit unit (unit a) = digit id a := by
  rw [digit, digit]
  refine congrArg (Option.map Prod.snd) (List.find?_congr fun d hd => ?_)
  have hiff : unit d.1 = unit a ↔ id d.1 = a :=
    ⟨h.injective d.1 a (digits_ascii d hd) ha, fun heq => congrArg unit heq⟩
  exact decide_eq_decide.mpr hiff

theorem digit_other (h : AsciiCompatible encode unit) (hc : ¬ IsAscii c) {u : β}
    (hu : u ∈ encode c) : digit unit u = none := by
  rw [digit, Option.map_eq_none_iff, List.find?_eq_none]
  intro d hd heq
  exact h.other c hc u hu d.1 (digits_ascii d hd) (of_decide_eq_true heq).symm

theorem ascii_of_digit {b : UInt8} (h : digit id c = some b) : IsAscii c := by
  by_contra hc
  rw [digit_other self_asciiCompatible hc (List.mem_singleton_self c)] at h
  cases h

theorem digit_head (h : AsciiCompatible encode unit) (cs : List Char) :
    (cs.flatMap encode).head?.bind (digit unit) = cs.head?.bind (digit id) := by
  cases cs with
  | nil => rfl
  | cons c cs =>
    rw [List.flatMap_cons, List.head?_append_of_ne_nil _ (h.ne_nil c), List.head?_cons]
    by_cases hc : IsAscii c
    · rw [h.ascii c hc]
      exact digit_unit h hc
    · obtain ⟨u, us, hcons⟩ := List.exists_cons_of_ne_nil (h.ne_nil c)
      have hnone : digit id c = none :=
        digit_other self_asciiCompatible hc (List.mem_singleton_self c)
      rw [hcons, List.head?_cons, Option.bind_some, Option.bind_some, hnone]
      exact digit_other h hc (by rw [hcons]; exact List.mem_cons_self)

/-- The token in front of an encoded text is that of the text. -/
theorem tokenAt_flatMap (h : AsciiCompatible encode unit) (hc : IsAscii c)
    (cs : List Char) : (tokenAt unit (unit c) (cs.flatMap encode)).2 = (tokenAt id c cs).2 ∧
      mapToken encode (tokenAt id c cs).1 = [(tokenAt unit (unit c) (cs.flatMap encode)).1] ∧
      ∀ a ∈ cs.take (tokenAt id c cs).2, IsAscii a := by
  have hraw : mapToken encode (.raw c) = [.raw (unit c)] := by
    rw [mapToken, h.ascii c hc]
    rfl
  by_cases hpercent : c = '%'
  · subst hpercent
    cases hhigh : cs.head?.bind (digit id) with
    | none =>
      have hself : tokenAt id '%' cs = (.raw '%', 0) := by
        rw [tokenAt, id_eq, if_pos rfl, hhigh]
      have hcode : tokenAt unit (unit '%') (cs.flatMap encode) = (.raw (unit '%'), 0) := by
        rw [tokenAt, if_pos rfl, digit_head h, hhigh]
      rw [hself, hcode]
      exact ⟨rfl, hraw, by simp⟩
    | some high =>
      cases cs with
      | nil => cases hhigh
      | cons d cs =>
        have hd : IsAscii d := ascii_of_digit hhigh
        have htail : ((d :: cs).flatMap encode).tail.head?.bind (digit unit) =
            cs.head?.bind (digit id) := by
          rw [List.flatMap_cons, h.ascii d hd, List.singleton_append, List.tail_cons, digit_head h]
        cases hlow : cs.head?.bind (digit id) with
        | none =>
          have hself : tokenAt id '%' (d :: cs) = (.half high, 0) := by
            rw [tokenAt, id_eq, if_pos rfl, hhigh, List.tail_cons, hlow]
          have hcode : tokenAt unit (unit '%') ((d :: cs).flatMap encode) = (.half high, 0) := by
            rw [tokenAt, if_pos rfl, digit_head h, hhigh, htail, hlow]
          rw [hself, hcode]
          exact ⟨rfl, rfl, by simp⟩
        | some low =>
          cases cs with
          | nil => cases hlow
          | cons e cs =>
            have hself : tokenAt id '%' (d :: e :: cs) = (.escaped (high * 16 + low), 2) := by
              rw [tokenAt, id_eq, if_pos rfl, hhigh, List.tail_cons, hlow]
            have hcode : tokenAt unit (unit '%') ((d :: e :: cs).flatMap encode) =
                (.escaped (high * 16 + low), 2) := by
              rw [tokenAt, if_pos rfl, digit_head h, hhigh, htail, hlow]
            rw [hself, hcode]
            exact ⟨rfl, rfl, by simpa using ⟨hd, ascii_of_digit hlow⟩⟩
  · have hself : tokenAt id c cs = (.raw c, 0) := by
      rw [tokenAt, id_eq, if_neg hpercent]
    have hcode : tokenAt unit (unit c) (cs.flatMap encode) = (.raw (unit c), 0) := by
      rw [tokenAt, if_neg fun heq => hpercent (h.injective c '%' hc (by decide) heq)]
    rw [hself, hcode]
    exact ⟨rfl, hraw, by simp⟩

theorem tokensFrom_append {front : List β} (hfront : ∀ u ∈ front, u ≠ unit '%') (s : List β) :
    tokensFrom unit 0 (front ++ s) = front.map .raw ++ tokensFrom unit 0 s := by
  induction front with
  | nil => rfl
  | cons u front ih =>
    obtain ⟨hu, hrest⟩ := List.forall_mem_cons.mp hfront
    rw [List.cons_append, tokensFrom, tokenAt, if_neg hu, ih hrest]
    rfl

/-- The tokens of an encoded text are those of the text. -/
theorem tokensFrom_flatMap (h : AsciiCompatible encode unit) (cs : List Char) (n : ℕ)
    (hn : ∀ a ∈ cs.take n, IsAscii a) :
    tokensFrom unit n (cs.flatMap encode) = (tokensFrom id n cs).flatMap (mapToken encode) := by
  induction cs generalizing n with
  | nil => cases n <;> rfl
  | cons c cs ih =>
    cases n with
    | succ n =>
      have hc : IsAscii c := hn c (by simp)
      rw [List.flatMap_cons, h.ascii c hc]
      exact ih n fun a ha => hn a (by simp [ha])
    | zero =>
      by_cases hc : IsAscii c
      · obtain ⟨hcount, htoken, hascii⟩ := tokenAt_flatMap h hc cs
        rw [List.flatMap_cons, h.ascii c hc, List.singleton_append, tokensFrom, tokensFrom,
          List.flatMap_cons, htoken, hcount, ih _ hascii]
        rfl
      · have hne : ∀ u ∈ encode c, u ≠ unit '%' := fun u hu => h.other c hc u hu '%' (by decide)
        have hself : tokenAt id c cs = (.raw c, 0) := by
          rw [tokenAt, id_eq, if_neg fun heq : c = '%' => hc (by rw [heq]; decide)]
        rw [List.flatMap_cons, tokensFrom_append hne, tokensFrom, hself, List.flatMap_cons,
          ih 0 (by simp)]
        rfl

theorem tokens_flatMap (h : AsciiCompatible encode unit) (cs : List Char) :
    tokens unit (cs.flatMap encode) = (tokens id cs).flatMap (mapToken encode) :=
  tokensFrom_flatMap h cs 0 (by simp)

theorem copied_flatMap (h : AsciiCompatible encode unit) (c : Char) :
    (encode c).map (copied unit) = encode (copied id c) := by
  by_cases hc : IsAscii c
  · rw [h.ascii c hc, List.map_singleton, copied, copied]
    by_cases hplus : c = '+'
    · rw [hplus, if_pos rfl, id_eq, if_pos rfl]
      exact (h.ascii ' ' (by decide)).symm
    · rw [if_neg fun heq => hplus (h.injective c '+' hc (by decide) heq), id_eq,
        if_neg hplus,
        h.ascii c hc]
  · rw [copied.eq_def id, id_eq, if_neg fun heq : c = '+' => hc (by rw [heq]; decide)]
    conv_rhs => rw [← List.map_id (encode c)]
    exact List.map_congr_left fun u hu => if_neg (h.other c hc u hu '+' (by decide))

theorem render_raw (p : Bytes) {us : List β} (hne : us ≠ []) (ts : List (Token β)) :
    render unit encode p (us.map .raw ++ ts) =
      (decodeFrom 0 p).flatMap encode ++ us.map (copied unit) ++ render unit encode [] ts := by
  induction us generalizing p with
  | nil => exact absurd rfl hne
  | cons u us ih =>
    rw [List.map_cons, List.cons_append, render]
    by_cases hus : us = []
    · subst hus
      simp
    · rw [ih [] hus]
      simp [decodeFrom]

/-- Tokens of an encoded text stand for the encoded text. -/
theorem render_flatMap (h : AsciiCompatible encode unit) (p : Bytes) (ts : List (Token Char)) :
    render unit encode p (ts.flatMap (mapToken encode)) =
      (render id (fun c => [c]) p ts).flatMap encode := by
  induction ts generalizing p with
  | nil => simp [render]
  | cons t ts ih =>
    cases t with
    | escaped b => exact ih (p ++ [b])
    | raw c =>
      rw [List.flatMap_cons, mapToken, render_raw p (h.ne_nil c), ih, copied_flatMap h, render]
      simp
    | half high =>
      rw [List.flatMap_cons, mapToken, List.singleton_append, render, ih, render]
      simp [h.ascii '%' (by decide)]

end Tokens

def written : Token UInt8 → UInt8
  | .raw c => copied unit8 c
  | .escaped b => b
  | .half high => high * 16

def tokenBytes : Token Char → Bytes
  | .raw c => utf8Char (copied id c)
  | .escaped b => [b]
  | .half high => [high * 16]

theorem unit8_percent : unit8 '%' = percent := by decide

theorem digit_unit8 (c : UInt8) : digit unit8 c = hexValue c := by
  revert c
  decide +kernel

theorem decodeByte_relaxed (c : UInt8) (rest : Bytes) : decodeByte true c rest =
    .ok (written (tokenAt unit8 c rest).1, (tokenAt unit8 c rest).2) := by
  have hdigit : ∀ b : Bytes, b.head?.bind (digit unit8) = hexValue (b.headD 0) := by
    intro b
    cases b with
    | nil => rfl
    | cons d b => exact digit_unit8 d
  rw [decodeByte, tokenAt, hdigit, hdigit]
  by_cases hplus : c = plus
  · rw [if_pos hplus, if_neg (by rw [hplus]; decide), hplus]
    rfl
  · rw [if_neg hplus]
    have hraw : written (.raw c) = c := if_neg hplus
    rw [unit8_percent]
    by_cases hpercent : c = percent
    · rw [if_pos hpercent, if_pos hpercent]
      cases hexValue (rest.headD 0) with
      | none => rw [hraw, hpercent]; rfl
      | some high => cases hexValue (rest.tail.headD 0) <;> rfl
    · rw [if_neg hpercent, if_neg hpercent, Bool.true_or, if_pos rfl, hraw]

theorem decodeBytes_relaxed (n : ℕ) (b : Bytes) :
    decodeBytes true n b = .ok ((tokensFrom unit8 n b).map written) := by
  induction b generalizing n with
  | nil => cases n <;> rfl
  | cons c b ih =>
    cases n with
    | succ n => exact ih n
    | zero =>
      rw [decodeBytes_ok (decodeByte_relaxed c b), ih]
      rfl

theorem urldecode_relaxed (s : QString) : urldecode s true =
    .ok (fromUtf8 (cBytes ((tokens unit8 (cBytes (toUtf8 s))).map written))) := by
  rw [urldecode, decodeBytes_relaxed]
  rfl

theorem written_mapToken (t : Token Char) : (mapToken utf8Char t).map written = tokenBytes t := by
  cases t with
  | raw c =>
    rw [mapToken, List.map_map, tokenBytes, ← copied_flatMap utf8_asciiCompatible]
    rfl
  | escaped b => rfl
  | half high => rfl

theorem urldecode_utf16 {cs : List Char} (h : nul ∉ cs) : urldecode (utf16 cs) true =
    .ok (fromUtf8 (cBytes ((tokens id cs).flatMap tokenBytes))) := by
  have htokens : (tokens unit8 (utf8 cs)).map written = (tokens id cs).flatMap tokenBytes := by
    rw [utf8, tokens_flatMap utf8_asciiCompatible, List.map_flatMap]
    exact List.flatMap_congr fun t _ => written_mapToken t
  rw [urldecode_relaxed, toUtf8, chars_utf16, cBytes_utf8 h, htokens]

theorem literally_utf16 (cs : List Char) :
    literally (utf16 cs) = utf16 (render id (fun c => [c]) [] (tokens id cs)) := by
  rw [literally, utf16, tokens_flatMap utf16_asciiCompatible, render_flatMap utf16_asciiCompatible]
  rfl

section Literal

variable {ts : List (Token Char)} {p : Bytes}

/-- Without half escapes, what is written is read as what the tokens stand for. -/
theorem decodeFrom_tokenBytes (h : ∀ high, .half high ∉ ts) :
    decodeFrom 0 (p ++ ts.flatMap tokenBytes) = render id (fun c => [c]) p ts := by
  induction ts generalizing p with
  | nil => simp [render]
  | cons t ts ih =>
    have hrest : ∀ high, .half high ∉ ts := fun high hmem => h high (List.mem_cons_of_mem t hmem)
    cases t with
    | escaped b =>
      rw [List.flatMap_cons, tokenBytes, ← List.append_assoc, ih hrest]
      rfl
    | raw c =>
      rw [List.flatMap_cons, tokenBytes, decodeFrom_append p (head_utf8Char _ _), decodeFrom_cons,
        render, ← ih hrest]
      simp
    | half high => exact absurd List.mem_cons_self (h high)

def isHalf : Token Char → Bool
  | .half _ => true
  | _ => false

/-- Half an escape is written as another character than the percent sign. -/
theorem count_tokenBytes : (p ++ ts.flatMap tokenBytes).count percent + ts.countP isHalf =
    (render id (fun c => [c]) p ts).count '%' := by
  have hread : ∀ b : Bytes, (decodeFrom 0 b).count '%' = b.count percent := fun b => by
    rw [count_decodeFrom (by decide), unit8_percent]
  have hhalf : ∀ high : UInt8, high * 16 ≠ percent := by decide +kernel
  induction ts generalizing p with
  | nil => simp [render, hread]
  | cons t ts ih =>
    cases t with
    | escaped b =>
      have hrest := @ih (p ++ [b])
      rw [List.flatMap_cons, tokenBytes, ← List.append_assoc,
        List.countP_cons_of_neg (by simp [isHalf])]
      exact hrest
    | raw c =>
      have hchar : (utf8Char (copied id c)).count percent = [copied id c].count '%' := by
        have hone := hread (utf8Char (copied id c) ++ [])
        rw [decodeFrom_cons, List.append_nil] at hone
        exact hone.symm
      have hcons : ∀ cs : List Char,
          (copied id c :: cs).count '%' = [copied id c].count '%' + cs.count '%' := fun cs => by
        rw [← List.count_append]
        rfl
      have hrest := @ih []
      rw [List.nil_append] at hrest
      rw [List.flatMap_cons, tokenBytes, render, List.flatMap_singleton', List.count_append,
        List.count_append, List.count_append, hread, hcons, ← hrest, hchar,
        List.countP_cons_of_neg (by simp [isHalf])]
      omega
    | half high =>
      have hrest := @ih []
      rw [List.nil_append] at hrest
      rw [List.flatMap_cons, tokenBytes, render, List.flatMap_singleton', List.count_append,
        List.count_append, List.count_append, hread, List.count_cons_of_ne (hhalf high), id_eq,
        List.count_cons_self, ← hrest, List.countP_cons_of_pos (by simp [isHalf])]
      simp only [List.count_nil]
      omega

theorem notMem_render (h : nul ∉ render id (fun c => [c]) p ts) :
    0 ∉ p ∧ .raw nul ∉ ts ∧ .escaped 0 ∉ ts := by
  have hread : ∀ b : Bytes, nul ∉ decodeFrom 0 b → 0 ∉ b := by
    intro b hb
    rw [← List.count_eq_zero] at hb ⊢
    rw [← hb, count_decodeFrom (by decide)]
    rfl
  induction ts generalizing p with
  | nil => exact ⟨hread p (by simpa [render] using h), by simp, by simp⟩
  | cons t ts ih =>
    cases t with
    | escaped b =>
      obtain ⟨hp, hraw, hescaped⟩ := ih h
      rw [List.mem_append, not_or] at hp
      refine ⟨hp.1, by simpa using hraw, ?_⟩
      have hb : 0 ≠ b := by simpa using hp.2
      simpa [hb] using hescaped
    | raw c =>
      rw [render, List.flatMap_singleton', List.mem_append, List.mem_cons, not_or, not_or] at h
      obtain ⟨hp, hc, hts⟩ := h
      obtain ⟨-, hraw, hescaped⟩ := ih hts
      have hne : nul ≠ c := by
        rintro rfl
        exact hc (by decide)
      exact ⟨hread p hp, by simpa [hne] using hraw, by simpa using hescaped⟩
    | half high =>
      rw [render, List.flatMap_singleton', List.mem_append, List.mem_cons, not_or, not_or] at h
      obtain ⟨hp, -, hts⟩ := h
      obtain ⟨-, hraw, hescaped⟩ := ih hts
      exact ⟨hread p hp, by simpa using hraw, by simpa using hescaped⟩

theorem notMem_tokenBytes (hraw : .raw nul ∉ ts) (hescaped : .escaped 0 ∉ ts)
    (hhalf : ∀ high, .half high ∉ ts) : 0 ∉ ts.flatMap tokenBytes := by
  rw [List.mem_flatMap]
  rintro ⟨t, ht, hmem⟩
  cases t with
  | escaped b =>
    rw [tokenBytes, List.mem_singleton] at hmem
    exact hescaped (hmem ▸ ht)
  | raw c =>
    have hc : nul = copied id c := (utf8_asciiCompatible.mem_char (by decide)).mp hmem
    have hself : c = nul := by
      rw [copied] at hc
      split_ifs at hc
      · exact absurd hc (by decide)
      · exact hc.symm
    exact hraw (hself ▸ ht)
  | half high => exact hhalf high ht

theorem mem_of_raw {c : Char} {n : ℕ} {cs : List Char} (h : .raw c ∈ tokensFrom id n cs) :
    c ∈ cs := by
  induction cs generalizing n with
  | nil => cases n <;> cases h
  | cons a cs ih =>
    cases n with
    | succ n => exact List.mem_cons_of_mem a (ih h)
    | zero =>
      rw [tokensFrom] at h
      rcases List.mem_cons.mp h with heq | hmem
      · rw [tokenAt] at heq
        have hself : Token.raw c = .raw a := by
          split_ifs at heq
          · split at heq
            · cases heq
            · cases heq
            · exact heq
          · exact heq
        cases hself
        exact List.mem_cons_self
      · exact List.mem_cons_of_mem a (ih hmem)

theorem raw_mem_tokensFrom {c : Char} (hdigit : digit id c = none) (hpercent : c ≠ '%') {n : ℕ}
    {cs : List Char} (hn : ∀ a ∈ cs.take n, digit id a ≠ none) (h : c ∈ cs) :
    .raw c ∈ tokensFrom id n cs := by
  induction cs generalizing n with
  | nil => cases h
  | cons a cs ih =>
    cases n with
    | succ n =>
      have hne : c ≠ a := by
        rintro rfl
        exact hn c (by simp) hdigit
      exact ih (fun b hb => hn b (by simp [hb])) ((List.mem_cons.mp h).resolve_left hne)
    | zero =>
      rw [tokensFrom]
      rcases List.mem_cons.mp h with rfl | hmem
      · rw [tokenAt, id_eq, if_neg hpercent]
        exact List.mem_cons_self
      · refine List.mem_cons_of_mem _ (ih ?_ hmem)
        rw [tokenAt, id_eq]
        split_ifs
        · split
          · rename_i high low hhigh hlow
            rcases cs with _ | ⟨d, _ | ⟨e, cs⟩⟩
            · cases hhigh
            · cases hlow
            · have hd : digit id d = some high := hhigh
              have he : digit id e = some low := hlow
              simp [hd, he]
          · simp
          · simp
        · simp

end Literal

/-- What escapes stand for does not start with the second half of a pair. -/
theorem isLow_render {p : Bytes} (hp : p ≠ []) (ts : List (Token UInt16)) :
    ∀ x ∈ (render unit16 utf16Char p ts).head?, isLow x = false := by
  have hfirst : ∀ (a : UInt8) (b : Bytes) (t : QString),
      ∀ x ∈ ((decodeFrom 0 (a :: b)).flatMap utf16Char ++ t).head?, isLow x = false := by
    intro a b t
    rw [decodeFrom, List.flatMap_cons, List.append_assoc]
    exact isLow_utf16Char _ _
  obtain ⟨a, b, rfl⟩ := List.exists_cons_of_ne_nil hp
  induction ts generalizing b with
  | nil => simpa [render] using hfirst a b []
  | cons t ts ih =>
    cases t with
    | escaped e => exact ih (b ++ [e]) (List.cons_ne_nil _ _)
    | raw u => exact hfirst a b _
    | half high => exact hfirst a b _

theorem digit_unit16 {u : UInt16} {b : UInt8} (h : digit unit16 u = some b) :
    ∃ c, utf16Char c = [u] := by
  rw [digit, Option.map_eq_some_iff] at h
  obtain ⟨d, hd, -⟩ := h
  have hunit : unit16 d.1 = u := by simpa using List.find?_some hd
  rw [← hunit]
  exact ⟨d.1, utf16_asciiCompatible.ascii _ (digits_ascii d (List.mem_of_find?_eq_some hd))⟩

def shown : Token UInt16 → UInt16
  | .raw u => copied unit16 u
  | _ => unit16 '%'

theorem tokensFrom_cons (u : UInt16) (rest : QString) :
    (∃ b cs more, more.length < (u :: rest).length ∧ u :: rest = utf16 cs ++ more ∧
      tokensFrom unit16 0 (u :: rest) = .escaped b :: tokensFrom unit16 0 more) ∨
    ∃ t, tokensFrom unit16 0 (u :: rest) = t :: tokensFrom unit16 0 rest ∧
      (∀ p ts, render unit16 utf16Char p (t :: ts) =
        utf16 (decodeFrom 0 p) ++ shown t :: render unit16 utf16Char [] ts) ∧
      (shown t = u ∨ isHigh (shown t) = false ∧ isLow (shown t) = false ∧
        ∃ c, utf16Char c = [u]) := by
  have hraw : shown (.raw u) = u ∨ isHigh (shown (.raw u)) = false ∧
      isLow (shown (.raw u)) = false ∧ ∃ c, utf16Char c = [u] := by
    rw [shown, copied]
    split_ifs with hplus
    · exact Or.inr ⟨by decide, by decide, '+', by rw [hplus]; decide⟩
    · exact Or.inl rfl
  rw [tokensFrom, tokenAt]
  split_ifs with hpercent
  · split
    · rename_i high low hhigh hlow
      rcases rest with _ | ⟨d, _ | ⟨e, more⟩⟩
      · cases hhigh
      · cases hlow
      · obtain ⟨c, hc⟩ := digit_unit16 (show digit unit16 d = some high from hhigh)
        obtain ⟨c', hc'⟩ := digit_unit16 (show digit unit16 e = some low from hlow)
        have hunit : utf16Char '%' = [u] := by rw [hpercent]; decide
        refine Or.inl ⟨_, ['%', c, c'], more, ?_, ?_, rfl⟩
        · simp only [List.length_cons]
          omega
        · rw [utf16_cons, utf16_cons, utf16_cons, hunit, hc, hc']
          rfl
    · exact Or.inr ⟨_, rfl, fun _ _ => rfl, Or.inl hpercent.symm⟩
    · exact Or.inr ⟨_, rfl, fun _ _ => rfl, hraw⟩
  · exact Or.inr ⟨_, rfl, fun _ _ => rfl, hraw⟩

/-- Only a text stands for a text. -/
theorem exists_utf16 {s : QString} {p : Bytes} {ds : List Char}
    (h : render unit16 utf16Char p (tokensFrom unit16 0 s) = utf16 ds) : ∃ cs, s = utf16 cs := by
  induction hn : s.length using Nat.strong_induction_on generalizing s p ds with
  | _ n ih =>
    cases s with
    | nil => exact ⟨[], rfl⟩
    | cons u rest =>
      obtain ⟨b, cs, more, hshort, hsplit, htokens⟩ | ⟨t, htokens, hrender, hshown⟩ :=
        tokensFrom_cons u rest
      · rw [htokens] at h
        obtain ⟨cs', hmore⟩ := ih more.length (hn ▸ hshort) h rfl
        exact ⟨cs ++ cs', by rw [hsplit, hmore, utf16, utf16, utf16, List.flatMap_append]⟩
      · rw [htokens, hrender] at h
        have hleft := utf16_of_append h
        rcases utf16_eq_cons hleft with ⟨hhigh, hlow, ds', hds⟩ | ⟨v, ds', c, hhigh, hlow, hc, hds⟩
        · obtain ⟨cs, hrest⟩ := ih rest.length (by simp [← hn]) hds rfl
          obtain ⟨c, hc⟩ : ∃ c, utf16Char c = [u] := by
            rcases hshown with heq | ⟨-, -, hchar⟩
            · rw [heq] at hhigh hlow
              exact exists_utf16Char hhigh hlow
            · exact hchar
          exact ⟨c :: cs, by rw [utf16_cons, hc, hrest]; rfl⟩
        · have hu : shown t = u := by
            rcases hshown with heq | ⟨hfalse, -⟩
            · exact heq
            · rw [hhigh] at hfalse
              cases hfalse
          cases rest with
          | nil => cases hds
          | cons w rest =>
            obtain ⟨b, cs, more, hshort, hsplit, htokens⟩ | ⟨t', htokens, hrender, hshown⟩ :=
              tokensFrom_cons w rest
            · rw [htokens, render] at hds
              have hhead := isLow_render (List.cons_ne_nil b []) (tokensFrom unit16 0 more)
              rw [List.nil_append] at hds
              rw [hds] at hhead
              rw [hhead v rfl] at hlow
              cases hlow
            · rw [htokens, hrender] at hds
              obtain ⟨hv, hds⟩ := List.cons.inj hds
              have hw : shown t' = w := by
                rcases hshown with heq | ⟨-, hfalse, -⟩
                · exact heq
                · rw [hv, hlow] at hfalse
                  cases hfalse
              obtain ⟨cs, hrest⟩ := ih rest.length (by simp [← hn]) hds rfl
              exact ⟨c :: cs, by rw [utf16_cons, hc, hrest, ← hv, hw, hu]; rfl⟩

section Relaxed

def leading {β : Type} : List (Token β) → Bytes
  | .escaped b :: ts => b :: leading ts
  | _ => []

/-- A text of whole characters without a null one, which is escaped nowhere either. Two digits
follow a percent sign if one does, and what the text stands for has no byte order mark in front. -/
structure ReadsLiterally (s : QString) : Prop where
  paired : utf16 (chars s) = s
  no_nul : 0 ∉ s
  no_escape : .escaped 0 ∉ tokens unit16 s
  no_half : ∀ high, .half high ∉ tokens unit16 s
  no_mark : s.head? ≠ some byteOrderMark.toNat.toUInt16
  no_escaped_mark : (decodeFrom 0 (leading (tokens unit16 s))).head? ≠ some byteOrderMark

variable {cs : List Char}

theorem leading_flatMap (ts : List (Token Char)) :
    leading (ts.flatMap (mapToken utf16Char)) = leading ts := by
  induction ts with
  | nil => rfl
  | cons t ts ih =>
    cases t with
    | escaped b => exact congrArg (List.cons b) ih
    | raw c =>
      obtain ⟨u, us, hcons⟩ := List.exists_cons_of_ne_nil (utf16_asciiCompatible.ne_nil c)
      rw [List.flatMap_cons, mapToken, hcons]
      rfl
    | half high => rfl

theorem leading_tokens (cs : List Char) :
    leading (tokens unit16 (utf16 cs)) = leading (tokens id cs) := by
  rw [utf16, tokens_flatMap utf16_asciiCompatible, leading_flatMap]

/-- What comes first is escaped or is there in front. -/
theorem head_render (p : Bytes) (ts : List (Token Char)) :
    (render id (fun c => [c]) p ts).head? = some byteOrderMark ↔
      (decodeFrom 0 (p ++ leading ts)).head? = some byteOrderMark ∨
        p = [] ∧ ts.head? = some (.raw byteOrderMark) := by
  have hstop : ∀ (p : Bytes) (c : Char) (rest : List Char),
      ((decodeFrom 0 p).flatMap (fun c => [c]) ++ c :: rest).head? = some byteOrderMark ↔
        (decodeFrom 0 (p ++ [])).head? = some byteOrderMark ∨ p = [] ∧ c = byteOrderMark := by
    intro p c rest
    cases p with
    | nil => simp [decodeFrom]
    | cons a p => simp [decodeFrom]
  induction ts generalizing p with
  | nil => simp [render, leading]
  | cons t ts ih =>
    cases t with
    | escaped b =>
      have hrest := ih (p ++ [b])
      rw [List.append_assoc, List.singleton_append] at hrest
      refine hrest.trans ?_
      simp [leading]
    | raw c =>
      have hcopied : copied id c = byteOrderMark ↔ c = byteOrderMark := by
        rw [copied]
        split_ifs with hplus
        · rw [hplus]
          decide
        · rfl
      rw [render, hstop, hcopied]
      simp [leading]
    | half high =>
      have hpercent : '%' ≠ byteOrderMark := by decide
      rw [render, hstop, id_eq]
      simp [leading, hpercent]

theorem head_tokens (cs : List Char) :
    (tokens id cs).head? = some (.raw byteOrderMark) ↔ cs.head? = some byteOrderMark := by
  cases cs with
  | nil => simp [tokens, tokensFrom]
  | cons c cs =>
    rw [tokens, tokensFrom, List.head?_cons, List.head?_cons, Option.some_inj, Option.some_inj,
      tokenAt]
    split_ifs with hpercent
    · have hne : c ≠ byteOrderMark := by
        rw [hpercent]
        decide
      split <;> simp [hne]
    · simp

/-- The tokens of a text of whole characters. -/
theorem mem_tokens_utf16 (t : Token UInt16) : t ∈ tokens unit16 (utf16 cs) ↔
    ∃ t' ∈ tokens id cs, t ∈ mapToken utf16Char t' := by
  rw [utf16, tokens_flatMap utf16_asciiCompatible, List.mem_flatMap]

theorem escaped_mem_tokens (b : UInt8) :
    .escaped b ∈ tokens unit16 (utf16 cs) ↔ .escaped b ∈ tokens id cs := by
  rw [mem_tokens_utf16]
  constructor
  · rintro ⟨t, ht, hmem⟩
    cases t <;> simp_all [mapToken]
  · exact fun hmem => ⟨_, hmem, List.mem_singleton_self _⟩

theorem half_mem_tokens (high : UInt8) :
    .half high ∈ tokens unit16 (utf16 cs) ↔ .half high ∈ tokens id cs := by
  rw [mem_tokens_utf16]
  constructor
  · rintro ⟨t, ht, hmem⟩
    cases t <;> simp_all [mapToken]
  · exact fun hmem => ⟨_, hmem, List.mem_singleton_self _⟩

/-- Every percent sign is there, so none of them was half an escape. -/
theorem half_notMem {ts : List (Token Char)}
    (h : skipMark (decodeFrom 0 (cBytes (ts.flatMap tokenBytes))) =
      render id (fun c => [c]) [] ts) (high : UInt8) : .half high ∉ ts := by
  intro hmem
  have hpos : 0 < ts.countP isHalf := List.countP_pos_iff.mpr ⟨_, hmem, rfl⟩
  have hcount := @count_tokenBytes ts []
  have hskip := (skipMark_sublist (decodeFrom 0 (cBytes (ts.flatMap tokenBytes)))).count_le '%'
  have hstop := (List.takeWhile_sublist (fun c : UInt8 => decide (c ≠ 0))
    (l := ts.flatMap tokenBytes)).count_le percent
  rw [h, count_decodeFrom (by decide), unit8_percent] at hskip
  rw [List.nil_append] at hcount
  rw [cBytes] at hskip
  omega

theorem nul_notMem_decodeFrom {b : Bytes} (h : 0 ∉ b) : nul ∉ skipMark (decodeFrom 0 b) := by
  intro hmem
  have hread : (decodeFrom 0 b).count nul = b.count 0 := count_decodeFrom (by decide) b
  rw [List.count_eq_zero.mpr h, List.count_eq_zero] at hread
  exact hread ((skipMark_sublist _).mem hmem)

/-- Relaxed decoding gives what a string stands for under these conditions only. -/
theorem urldecode_relaxed_iff (s : QString) :
    urldecode s true = .ok (literally s) ↔ ReadsLiterally s := by
  constructor
  · intro hread
    have hbytes := (urldecode_relaxed s).symm.trans hread
    obtain ⟨cs, rfl⟩ : ∃ cs, s = utf16 cs := exists_utf16 (Except.ok.inj hbytes).symm
    rw [literally_utf16, fromUtf8] at hbytes
    have hchars := utf16_injective (Except.ok.inj hbytes)
    have hnul : nul ∉ render id (fun c => [c]) [] (tokens id cs) := by
      rw [← hchars]
      exact nul_notMem_decodeFrom (notMem_cBytes _)
    obtain ⟨-, hraw, hescaped⟩ := notMem_render hnul
    have htext : nul ∉ cs := by
      intro hmem
      exact hraw (raw_mem_tokensFrom (by decide) (by decide) (by simp) hmem)
    have hwritten := (urldecode_utf16 htext).symm.trans hread
    rw [literally_utf16, fromUtf8] at hwritten
    have hsame := utf16_injective (Except.ok.inj hwritten)
    have hhalf := half_notMem hsame
    rw [cBytes_of_notMem (notMem_tokenBytes hraw hescaped hhalf),
      ← List.nil_append (List.flatMap _ _), decodeFrom_tokenBytes hhalf, skipMark_eq_iff, ne_eq,
      head_render, head_tokens, not_or] at hsame
    exact {
      paired := by rw [chars_utf16]
      no_nul := fun hmem => htext ((utf16_asciiCompatible.mem_iff (by decide) cs).mp hmem)
      no_escape := fun hmem => hescaped ((escaped_mem_tokens 0).mp hmem)
      no_half := fun high hmem => hhalf high ((half_mem_tokens high).mp hmem)
      no_mark := fun hhead => hsame.2 ⟨rfl, (head_utf16 (by constructor <;> decide)).mp hhead⟩
      no_escaped_mark := by rw [leading_tokens]; exact hsame.1 }
  · intro h
    obtain ⟨cs, rfl⟩ : ∃ cs, s = utf16 cs := ⟨chars s, h.paired.symm⟩
    have htext : nul ∉ cs :=
      fun hmem => h.no_nul ((utf16_asciiCompatible.mem_iff (by decide) cs).mpr hmem)
    have hescaped : .escaped 0 ∉ tokens id cs :=
      fun hmem => h.no_escape ((escaped_mem_tokens 0).mpr hmem)
    have hhalf : ∀ high, .half high ∉ tokens id cs :=
      fun high hmem => h.no_half high ((half_mem_tokens high).mpr hmem)
    have hraw : .raw nul ∉ tokens id cs := by
      intro hmem
      exact htext (mem_of_raw hmem)
    have hmark : (render id (fun c => [c]) [] (tokens id cs)).head? ≠ some byteOrderMark := by
      have hescape := h.no_escaped_mark
      rw [leading_tokens] at hescape
      have hhead : cs.head? ≠ some byteOrderMark :=
        fun heq => h.no_mark ((head_utf16 (by constructor <;> decide)).mpr heq)
      rw [ne_eq, head_render, head_tokens, not_or]
      exact ⟨hescape, fun hfront => hhead hfront.2⟩
    rw [urldecode_utf16 htext, cBytes_of_notMem (notMem_tokenBytes hraw hescaped hhalf), fromUtf8,
      ← List.nil_append (List.flatMap _ _), decodeFrom_tokenBytes hhalf, skipMark_eq_iff.mpr hmark,
      literally_utf16]

/-- A percent sign with one digit is not copied. -/
theorem half_escape : urldecode (utf16 ['%', '4']) true = .ok (utf16 ['@', '4']) ∧
    literally (utf16 ['%', '4']) = utf16 ['%', '4'] ∧
    ¬ ∀ s, urldecode s true = .ok (literally s) := by
  refine ⟨by decide, by decide, fun h => ?_⟩
  exact absurd (h (utf16 ['%', '4'])) (by decide)

end Relaxed

end SnapCpp.UrlCode
