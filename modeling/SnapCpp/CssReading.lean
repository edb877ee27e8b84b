import SnapCpp.CssLexemes

/-!
What the functions of the lexer read. A character that is put back is there again, unless it is
U+FFFD, which is dropped. So what a function leaves is what it was given, without the text that it
took and without some of the characters U+FFFD.
-/
namespace SnapCpp.Css

open Computability

/-- Some characters U+FFFD are dropped. -/
inductive Drops : List ℤ → List ℤ → Prop
  | nil : Drops [] []
  | keep (c : ℤ) {l r : List ℤ} : Drops l r → Drops (c :: l) (c :: r)
  | drop {l r : List ℤ} : Drops l r → Drops (replacement :: l) r

namespace Drops

variable {l m r v w : List ℤ}

theorem refl (l : List ℤ) : Drops l l := by
  induction l with
  | nil => exact .nil
  | cons c l ih => exact .keep c ih

theorem trans (h : Drops l m) (h' : Drops m r) : Drops l r := by
  induction h generalizing r with
  | nil => exact h'
  | keep c _ ih =>
    cases h' with
    | keep _ h' => exact .keep c (ih h')
    | drop h' => exact .drop (ih h')
  | drop _ ih => exact .drop (ih h')

theorem append_left (w : List ℤ) (h : Drops l r) : Drops (w ++ l) (w ++ r) := by
  induction w with
  | nil => exact h
  | cons c w ih => exact .keep c ih

theorem mem (h : Drops l r) {c : ℤ} (hc : c ∈ r) : c ∈ l := by
  induction h with
  | nil => exact hc
  | keep d _ ih =>
    rcases List.mem_cons.mp hc with rfl | hc
    · exact List.mem_cons_self
    · exact List.mem_cons_of_mem d (ih hc)
  | drop _ ih => exact List.mem_cons_of_mem _ (ih hc)

theorem length_le (h : Drops l r) : r.length ≤ l.length := by
  induction h with
  | nil => exact le_refl _
  | keep c _ ih => exact Nat.succ_le_succ ih
  | drop _ ih => exact ih.trans (Nat.le_succ _)

/-- Nothing is dropped where there is no such character. -/
theorem eq (h : Drops l r) (hl : replacement ∉ l) : r = l := by
  induction h with
  | nil => rfl
  | keep c _ ih => rw [ih (fun hmem => hl (List.mem_cons_of_mem c hmem))]
  | drop _ _ => exact absurd List.mem_cons_self hl

end Drops

def take (c : ℤ) : List ℤ := if c = eof then [] else [c]

theorem take_of_ne {c : ℤ} (h : c ≠ eof) : take c = [c] := if_neg h

@[simp] theorem take_eof : take eof = [] := rfl

def hand (c : ℤ) : List ℤ := if c = eof ∨ c = replacement then [] else [c]

theorem drops_hand (c : ℤ) (l : List ℤ) : Drops (take c ++ l) (hand c ++ l) := by
  unfold take hand
  by_cases heof : c = eof
  · rw [if_pos heof, if_pos (Or.inl heof)]
    exact Drops.refl _
  · rw [if_neg heof]
    by_cases hreplacement : c = replacement
    · rw [if_pos (Or.inr hreplacement), hreplacement]
      exact .drop (Drops.refl _)
    · rw [if_neg (not_or.mpr ⟨heof, hreplacement⟩)]
      exact Drops.refl _

def Lexer.codes (s : Lexer) : List ℤ := s.fUngetc ++ (characters s.fIn).map Prod.fst

theorem sequence_nonneg (wc count : ℕ) (s : Bytes) : 0 ≤ (sequence wc count s).1 := by
  induction s generalizing wc count with
  | nil => cases count <;> simp [sequence, replacement]
  | cons c s ih =>
    cases count with
    | zero => simp [sequence, replacement]
    | succ count =>
      rw [sequence]
      split_ifs
      · simp [replacement]
      · simp [replacement]
      · exact ih _ _

theorem mbtowc_nonneg (s : Bytes) : 0 ≤ (mbtowc s).1 := by
  cases s with
  | nil => exact le_refl _
  | cons c s =>
    rw [mbtowc]
    split_ifs
    · exact Int.natCast_nonneg _
    · simp [replacement]
    · exact sequence_nonneg _ _ _
    · exact sequence_nonneg _ _ _
    · exact sequence_nonneg _ _ _
    · simp [replacement]

theorem Reading.normal_pos {r : Reading} (h : 0 ≤ r.char) : 0 < r.normal.char := by
  unfold Reading.normal
  by_cases hreturn : r.char = ('\r' : Char)
  · rw [if_pos hreturn]
    exact Int.natCast_pos.mpr (by decide)
  · rw [if_neg hreturn]
    by_cases hpage : r.char = 12
    · rw [if_pos hpage]
      exact Int.natCast_pos.mpr (by decide)
    · rw [if_neg hpage]
      by_cases hnull : r.char = 0
      · rw [if_pos hnull]
        exact show (0 : ℤ) < 0xFFFD by decide
      · rw [if_neg hnull]
        exact lt_of_le_of_ne h (Ne.symm hnull)

/-- A character of a stream is neither the end of the stream nor null. -/
theorem readChar_pos (c : UInt8) (rest : Bytes) : 0 < (readChar c rest).char := by
  refine Reading.normal_pos ?_
  simp only []
  split_ifs
  · exact Int.natCast_nonneg _
  · simp [replacement]
  · exact mbtowc_nonneg _
  · simp [replacement]

theorem characters_cons (c : UInt8) (rest : Bytes) :
    characters (c :: rest) = ((readChar c rest).char, (readChar c rest).errors) ::
      characters (readChar c rest).rest := by
  rw [characters]

theorem characters_pos (bytes : Bytes) : ∀ p ∈ characters bytes, 0 < p.1 := by
  induction hlength : bytes.length using Nat.strong_induction_on generalizing bytes with
  | _ n ih =>
    cases bytes with
    | nil => simp [characters]
    | cons c rest =>
      rw [characters_cons]
      intro p hp
      rcases List.mem_cons.mp hp with rfl | hp
      · exact readChar_pos c rest
      · have hrest := length_readChar c rest
        rw [List.length_cons] at hlength
        exact ih _ (by omega) _ rfl p hp

theorem length_characters (bytes : Bytes) : (characters bytes).length ≤ bytes.length := by
  induction hlength : bytes.length using Nat.strong_induction_on generalizing bytes with
  | _ n ih =>
    cases bytes with
    | nil => simp [characters]
    | cons c rest =>
      have hrest := length_readChar c rest
      rw [List.length_cons] at hlength
      rw [characters_cons, List.length_cons, ← hlength]
      exact Nat.succ_le_succ ((ih _ (by omega) _ rfl).trans hrest)

theorem Lexer.codes_lt_turns (s : Lexer) : s.codes.length < s.turns := by
  have h := length_characters s.fIn
  rw [Lexer.codes, Lexer.turns, List.length_append, List.length_map]
  omega

section Rules

variable {throws : Throw → Prop} {s : Lexer} {l w : List ℤ} {c : ℤ} {t : Lexer}
  {post : Unit → Lexer → Prop}

/-- Characters that may be read: those that cannot be put back must be allowed to throw. -/
def Fine (throws : Throw → Prop) (l : List ℤ) : Prop :=
  ∀ c ∈ l, 0 < c ∧ (0x10FFFF < c → throws .ungetcRange)

theorem Fine.right {r : List ℤ} (h : Fine throws l) (hdrops : Drops l (w ++ r)) :
    Fine throws r :=
  fun c hc => h c (hdrops.mem (List.mem_append_right w hc))

theorem Fine.left {r : List ℤ} (h : Fine throws l) (hdrops : Drops l (w ++ r)) :
    Fine throws w :=
  fun c hc => h c (hdrops.mem (List.mem_append_left r hc))

theorem getc_ensures {post : ℤ → Lexer → Prop} (hfine : Fine throws s.codes)
    (h : ∀ c t, s.codes = take c ++ t.codes → s.errors.length ≤ t.errors.length →
      t.fUngetc.length ≤ s.fUngetc.length - 1 → (c = eof → t.codes = []) → post c t) :
    Ensures getc s throws post := by
  rw [Ensures, getc]
  cases hunget : s.fUngetc with
  | cons c rest =>
    have hcodes : s.codes = c :: (rest ++ (characters s.fIn).map Prod.fst) := by
      rw [Lexer.codes, hunget]
      rfl
    have hpos := (hfine c (by rw [hcodes]; exact List.mem_cons_self)).1
    have heof : c ≠ eof := by
      rintro rfl
      exact absurd hpos (by decide)
    simp only [if_neg (ne_of_gt hpos)]
    refine h c _ ?_ (le_refl _) ?_ (fun hc => absurd hc heof)
    · rw [take_of_ne heof, hcodes]
      rfl
    · simp [hunget]
  | nil =>
    cases hin : s.fIn with
    | nil =>
      refine h eof s rfl (le_refl _) ?_ (fun _ => ?_)
      · simp [hunget]
      · simp [Lexer.codes, hunget, hin, characters]
    | cons b rest =>
      have hpos := readChar_pos b rest
      have heof : (readChar b rest).char ≠ eof := by
        intro heq
        rw [heq] at hpos
        exact absurd hpos (by decide)
      refine h _ _ ?_ ?_ ?_ (fun hc => absurd hc heof)
      · rw [take_of_ne heof, Lexer.codes, hunget, hin, characters_cons]
        rfl
      · simp
      · exact Nat.zero_le _

/-- What is known after a character is read. -/
structure Got (s : Lexer) (throws : Throw → Prop) (c : ℤ) (t : Lexer) : Prop where
  codes : s.codes = take c ++ t.codes
  fine : Fine throws t.codes
  errors : s.errors.length ≤ t.errors.length
  room : t.fUngetc.length ≤ s.fUngetc.length - 1
  length : c ≠ eof → t.codes.length < s.codes.length
  stop : c = eof → t.codes = []

theorem Got.drops (h : Got s throws c t) : Drops s.codes (take c ++ t.codes) := by
  rw [h.codes]
  exact Drops.refl _

theorem Got.drops_of_ne (h : Got s throws c t) (hc : c ≠ eof) :
    Drops s.codes ([c] ++ t.codes) := by
  rw [h.codes, take_of_ne hc]
  exact Drops.refl _

theorem Got.drops_hand (h : Got s throws c t) :
    Drops s.codes (Css.hand c ++ t.codes) := h.drops.trans (Css.drops_hand c _)

theorem read_then {α : Type} {f : ℤ → Lex α} {post : α → Lexer → Prop}
    (hfine : Fine throws s.codes)
    (h : ∀ c t, Got s throws c t → t.fUngetc.length ≤ s.fUngetc.length - 1 →
      s.errors.length ≤ t.errors.length → Ensures (f c) t throws post) :
    Ensures (getc >>= f) s throws post := by
  refine Ensures.bind (getc_ensures hfine fun c t hcodes herrors hroom hstop =>
    h c t ⟨hcodes, ?_, herrors, hroom, fun hc => ?_, hstop⟩ hroom herrors)
  · refine hfine.right (w := take c) ?_
    rw [hcodes]
    exact Drops.refl _
  · rw [hcodes, take_of_ne hc]
    exact Nat.lt_succ_self _

theorem Fine.hand (h : Fine throws (take c)) : Fine throws (hand c) := by
  have hdrops := drops_hand c []
  rw [List.append_nil, List.append_nil] at hdrops
  exact fun d hd => h d (hdrops.mem hd)

theorem ungetc_ensures (hfine : Fine throws (hand c))
    (hroom : s.fUngetc.length < ungetSize)
    (h : ∀ t, t.codes = hand c ++ s.codes → t.errors.length = s.errors.length →
      t.fUngetc.length ≤ s.fUngetc.length + 1 → post () t) :
    Ensures (ungetc c) s throws post := by
  rw [Ensures, ungetc]
  by_cases hskip : c = eof ∨ c = replacement
  · simp only [if_pos hskip]
    refine h s ?_ rfl (Nat.le_succ _)
    rw [Css.hand, if_pos hskip]
    rfl
  · rw [if_neg hskip]
    have hhand : Css.hand c = [c] := if_neg hskip
    obtain ⟨hpos, hthrow⟩ := hfine c (by rw [hhand]; exact List.mem_singleton_self c)
    by_cases hrange : c < 0 ∨ 0x10FFFF < c
    · rw [if_pos hrange]
      exact hthrow (by omega)
    · rw [if_neg hrange, if_neg (Nat.not_le_of_lt hroom)]
      refine h _ ?_ rfl (le_refl _)
      rw [hhand]
      rfl

/-- A character that is read and put back is there again, unless it is one that is dropped. -/
theorem Got.putBack (h : Got s throws c t)
    (hfine : Fine throws s.codes) (hroom : t.fUngetc.length ≤ 15)
    (hpost : ∀ u, u.codes = Css.hand c ++ t.codes → Drops s.codes u.codes →
      s.errors.length ≤ u.errors.length → u.fUngetc.length ≤ t.fUngetc.length + 1 → post () u) :
    Ensures (ungetc c) t throws post := by
  refine ungetc_ensures (hfine.left h.drops_hand) (Nat.lt_succ_of_le hroom)
    fun u hcodes herrors hunget => hpost u hcodes ?_ (h.errors.trans herrors.ge) hunget
  rw [hcodes]
  exact h.drops_hand

/-- Two characters are put back, the one that was read last first. -/
theorem Got.putBackBoth {A : Type} {m : Lex A} {post : A → Lexer → Prop} {d : ℤ} {u : Lexer}
    (h : Got s throws c t) (h' : Got t throws d u) (hfine : Fine throws s.codes)
    (hroom : u.fUngetc.length ≤ 14)
    (hpost : ∀ y, y.codes = Css.hand c ++ (Css.hand d ++ u.codes) → Drops s.codes y.codes →
      s.errors.length ≤ y.errors.length → y.fUngetc.length ≤ u.fUngetc.length + 2 →
      Ensures m y throws post) :
    Ensures (do ungetc d; ungetc c; m) u throws post := by
  refine Ensures.bind (h'.putBack h.fine (by omega) fun x hx hdrops herrors hunget => ?_)
  refine Ensures.bind (ungetc_ensures (hfine.left h.drops_hand) (by rw [ungetSize]; omega)
    fun y hy herrors' hunget' => hpost y (by rw [hy, hx]) ?_ ?_ (by omega))
  · rw [hy]
    exact h.drops_hand.trans (Drops.append_left _ hdrops)
  · have hstart := h.errors
    omega

theorem report_ensures {e : Error} (h : ∀ t, t.codes = s.codes → s.errors.length < t.errors.length →
      t.fUngetc.length = s.fUngetc.length → post () t) :
    Ensures (report e) s throws post :=
  h _ rfl (by simp) rfl

theorem warn_ensures {x : Warning} (h : ∀ t, t.codes = s.codes → t.errors.length = s.errors.length →
      t.fUngetc.length = s.fUngetc.length →
      post () t) :
    Ensures (warn x) s throws post :=
  h _ rfl rfl rfl

theorem wctomb_ensures {post : Bytes → Lexer → Prop}
    (h : ∀ mb t, t.codes = s.codes → s.errors.length ≤ t.errors.length →
      t.fUngetc.length = s.fUngetc.length → post mb t) :
    Ensures (wctomb c) s throws post :=
  h _ _ rfl (by simp) rfl

theorem hexToDec_ensures {post : ℤ → Lexer → Prop} (hc : isHex c = true)
    (h : post (if isDigit c then c - '0' else toLower c - 'a' + 10) s) :
    Ensures (hexToDec c) s throws post := by
  unfold hexToDec
  by_cases hdigit : isDigit c
  · rw [if_pos hdigit] at h ⊢
    exact Ensures.pure h
  · rw [if_neg hdigit] at h ⊢
    simp only [isHex, Bool.or_eq_true, hdigit, Bool.false_eq_true, false_or, Bool.and_eq_true,
      decide_eq_true_eq, Char.reduceToNat, Nat.cast_ofNat] at hc
    simp only [toLower, Char.reduceToNat, Nat.cast_ofNat] at h ⊢
    rcases hc with hc | hc
    · have hupper : 65 ≤ c ∧ c ≤ 90 := by omega
      rw [if_pos hupper] at h
      rw [if_pos hc]
      refine Ensures.pure ?_
      have hvalue : c + 32 - 97 + 10 = c - 65 + 10 := by omega
      rwa [hvalue] at h
    · have hlower : ¬ (65 ≤ c ∧ c ≤ 90) := by omega
      have hupper : ¬ (65 ≤ c ∧ c ≤ 70) := by omega
      rw [if_neg hlower] at h
      rw [if_neg hupper, if_pos hc]
      exact Ensures.pure h

end Rules

/-- What was read since there were the characters `l` and `e` errors: the text `v`, while `r` is
left. If no error was found since then, the text is as it should be. -/
structure Reads (l : List ℤ) (e room : ℕ) (t : Lexer) (v r : List ℤ) (good : Prop) : Prop where
  drops : Drops l (v ++ r)
  errors : e ≤ t.errors.length
  good : t.errors.length = e → good
  room : t.fUngetc.length ≤ room

variable {e room : ℕ} {good : Prop} {l v : List ℤ}

theorem Reads.after {m w r : List ℤ} {e' : ℕ} {t : Lexer} {p : Prop}
    (h : Reads m e' room t v r good) (hdrops : Drops l (w ++ m)) (he : e ≤ e')
    (hgood : e' = e → good → p) : Reads l e room t (w ++ v) r p := by
  have hmore := h.errors
  refine ⟨?_, by omega, fun heq => ?_, h.room⟩
  · rw [List.append_assoc]
    exact hdrops.trans (Drops.append_left w h.drops)
  · exact hgood (by omega) (h.good (by omega))

theorem Reads.mono {r : List ℤ} {room' : ℕ} {t : Lexer} {good' : Prop}
    (h : Reads l e room t v r good) (hroom : room ≤ room') (hgood : good → good') :
    Reads l e room' t v r good' :=
  ⟨h.drops, h.errors, fun heq => hgood (h.good heq), h.room.trans hroom⟩

theorem Reads.putBack {throws : Throw → Prop} {s : Lexer} {d : ℤ}
    {post : Unit → Lexer → Prop} (h : Reads l e room s v (take d ++ s.codes) good)
    (hfine : Fine throws l) (hroom : room ≤ 15)
    (hpost : ∀ t, t.codes = hand d ++ s.codes → Reads l e (room + 1) t v t.codes good →
      post () t) : Ensures (ungetc d) s throws post := by
  have hroom' := h.room
  have he := h.errors
  refine ungetc_ensures (((hfine.right h.drops).left (Drops.refl _)).hand)
    (by rw [ungetSize]; omega) fun t hcodes herrors hunget => hpost t hcodes ?_
  refine ⟨?_, by omega, fun heq => h.good (by omega), by omega⟩
  rw [hcodes]
  exact h.drops.trans (Drops.append_left v (drops_hand d _))

/-- A text need not be read once an error is reported. -/
theorem report_reads {throws : Throw → Prop} {s : Lexer} {x : Error}
    {post : Unit → Lexer → Prop} (hdrops : Drops l (v ++ s.codes)) (he : e ≤ s.errors.length)
    (hroom : s.fUngetc.length ≤ room)
    (h : ∀ t, (∀ good, Reads l e room t v t.codes good) → t.codes = s.codes → post () t) :
    Ensures (report x) s throws post := by
  refine report_ensures fun t hcodes herrors hunget => h t (fun good => ?_) hcodes
  refine ⟨?_, by omega, fun heq => by omega, by omega⟩
  rw [hcodes]
  exact hdrops

section Escapes

variable {throws : Throw → Prop} {s : Lexer}

theorem hexValue_concat (ds : List ℤ) (c : ℤ) :
    hexValue (ds ++ [c]) =
      hexValue ds * 16 + if isDigit c then c - '0' else (toLower c - 'a' + 10) := by
  rw [hexValue, hexValue, List.foldl_append]
  rfl

theorem isHex_ne_eof {c : ℤ} (h : isHex c = true) : c ≠ eof := by
  rintro rfl
  exact absurd h (by decide)

theorem isSpace_ne_eof {c : ℤ} (h : isSpace c = true) : c ≠ eof := by
  rintro rfl
  exact absurd h (by decide)

theorem escapeEnd_ensures {wc : ℤ} {v l : List ℤ} {e : ℕ} (good : ℤ → Prop)
    (h : Reads l e 1 s v s.codes (good wc)) :
    Ensures (escapeEnd wc) s throws fun c t => Reads l e 1 t v t.codes (good c) := by
  unfold escapeEnd
  refine Ensures.ite (fun _ => ?_) (fun _ => Ensures.pure h)
  exact Ensures.bind (report_reads h.drops h.errors h.room fun t hread _ => Ensures.pure (hread _))

theorem escapeDigits_ensures (count : ℕ) (ds : List ℤ) (hfine : Fine throws s.codes)
    (hdigits : ∀ d ∈ ds, isHex d = true) (hne : ds ≠ []) (hcount : ds.length + count = 6)
    (hroom : s.fUngetc.length ≤ 1) :
    Ensures (escapeDigits count (hexValue ds)) s throws fun c t =>
      ∃ v, Reads s.codes s.errors.length 1 t v t.codes (('\\' : ℤ) :: ds ++ v ∈ escapeText c) := by
  induction count generalizing s ds with
  | zero =>
    refine (escapeEnd_ensures (l := s.codes) (e := s.errors.length) (v := [])
      (fun c => ('\\' : ℤ) :: ds ∈ escapeText c) ?_).mono fun c t h => ⟨[], ?_⟩
    · refine ⟨Drops.refl _, le_refl _, fun _ => Or.inr ⟨ds, [], ?_⟩, hroom⟩
      exact ⟨by simp, rfl, hdigits, hne, by omega, Or.inl rfl⟩
    · rwa [List.append_nil]
  | succ count ih =>
    rw [escapeDigits]
    refine read_then hfine fun c t hgot hunget herrors => ?_
    have hdrops := hgot.drops
    have hpos : 1 ≤ ds.length := List.length_pos_iff.mpr hne
    refine Ensures.ite (fun hhex => ?_) (fun hhex => ?_)
    · have hc : take c = [c] := take_of_ne (isHex_ne_eof hhex)
      refine Ensures.bind (hexToDec_ensures hhex ?_)
      rw [← hexValue_concat]
      refine Ensures.ite (fun hlarge => ?_) (fun hlarge => ?_)
      · exact Ensures.bind (report_reads (hc ▸ hdrops) herrors (by omega) fun u hread _ =>
          Ensures.pure ⟨[c], hread _⟩)
      · refine (ih _ (hfine.right hdrops) ?_ (by simp) ?_ (by omega)).mono
          fun d u ⟨v, hread⟩ => ⟨[c] ++ v, hread.after (hc ▸ hdrops) herrors fun _ hgood => ?_⟩
        · intro d hd
          rcases List.mem_append.mp hd with hd | hd
          · exact hdigits d hd
          · rwa [List.mem_singleton.mp hd]
        · rw [List.length_append, List.length_singleton]
          omega
        · simpa using hgood
    · refine Ensures.ite (fun hspace => ?_) (fun hspace => ?_)
      · have hc : take c = [c] := take_of_ne (isSpace_ne_eof hspace)
        refine (escapeEnd_ensures (l := s.codes) (e := s.errors.length) (v := [c])
          (fun d => ('\\' : ℤ) :: ds ++ [c] ∈ escapeText d) ?_).mono
          fun d u hread => ⟨[c], hread⟩
        refine ⟨by rwa [hc] at hdrops, herrors, fun _ => Or.inr ⟨ds, [c], ?_⟩, by omega⟩
        exact ⟨rfl, rfl, hdigits, hne, by omega, Or.inr ⟨by omega, c, hspace, rfl⟩⟩
      · refine Ensures.bind (hgot.putBack hfine (by omega) fun u _ hback herrors' hroom' => ?_)
        refine (escapeEnd_ensures (l := s.codes) (e := s.errors.length) (v := [])
          (fun d => ('\\' : ℤ) :: ds ∈ escapeText d) ?_).mono fun d x hread => ⟨[], ?_⟩
        · refine ⟨hback, herrors', fun _ => Or.inr ⟨ds, [], ?_⟩, by omega⟩
          exact ⟨by simp, rfl, hdigits, hne, by omega, Or.inl rfl⟩
        · rwa [List.append_nil]

/-- What `escape()` reads after a backslash. -/
theorem escape_ensures (hfine : Fine throws s.codes) (hroom : s.fUngetc.length ≤ 2) :
    Ensures escape s throws fun c t =>
      ∃ v, Reads s.codes s.errors.length 1 t v t.codes (('\\' : ℤ) :: v ∈ escapeText c) := by
  rw [escape]
  refine read_then hfine fun c t hgot hunget herrors => ?_
  have hdrops := hgot.drops
  have hwrong : ∀ e : Error, Ensures (do report e; pure replacement) t throws fun d u =>
      ∃ v, Reads s.codes s.errors.length 1 u v u.codes (('\\' : ℤ) :: v ∈ escapeText d) := by
    exact fun e => Ensures.bind (report_reads hdrops herrors (by omega) fun u hread _ =>
      Ensures.pure ⟨take c, hread _⟩)
  refine Ensures.ite (fun _ => hwrong _) (fun hnewline => ?_)
  refine Ensures.ite (fun _ => hwrong _) (fun hreplacement => ?_)
  refine Ensures.ite (fun _ => hwrong _) (fun heof => ?_)
  rw [take_of_ne heof] at hdrops
  refine Ensures.ite (fun hhex => ?_) (fun hhex => Ensures.pure ?_)
  · refine Ensures.bind (hexToDec_ensures hhex ?_)
    have hvalue := hexValue_concat [] c
    rw [show hexValue [] * 16 = 0 from rfl, Int.zero_add] at hvalue
    rw [← hvalue]
    refine (escapeDigits_ensures 5 [c] (hfine.right hdrops) ?_ (by simp) rfl
      (by omega)).mono fun d u ⟨v, hread⟩ =>
        ⟨[c] ++ v, hread.after hdrops herrors fun _ hgood => hgood⟩
    intro d hd
    rwa [List.mem_singleton.mp hd]
  · refine ⟨[c], hdrops, herrors, fun _ => Or.inl ⟨rfl, ?_, hnewline⟩, by omega⟩
    simpa using hhex

end Escapes

end SnapCpp.Css
