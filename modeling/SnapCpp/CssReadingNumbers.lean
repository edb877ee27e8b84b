import SnapCpp.CssReadingNames

/-!
What the lexer reads of numbers. A unit that is a dash is put back as a dash, also where an escape
of a dash was read.
-/
namespace SnapCpp.Css

open Computability

variable {throws : Throw → Prop} {s : Lexer} {c d : ℤ} {v : List ℤ}

theorem isDigit_ne_eof (h : isDigit c = true) : c ≠ eof := by
  rintro rfl
  exact absurd h (by decide)

theorem mem_many_of_ne_nil {l : Language ℤ} {w : List ℤ} (h : w ∈ l∗) (hne : w ≠ []) :
    w ∈ many l := by
  rw [← Language.one_add_self_mul_kstar_eq_kstar] at h
  exact h.resolve_left hne

theorem integerDigits_ensures (fuel integer : ℕ) (hfuel : s.codes.length < fuel)
    (hfine : Fine throws s.codes) (hroom : s.fUngetc.length ≤ 3) :
    Ensures (integerDigits fuel integer) s throws fun p t =>
      ∃ v, Reads s.codes s.errors.length 2 t v (take p.1 ++ t.codes) (v ∈ (oneOf isDigit)∗) ∧
        (p.1 = eof → t.codes = []) := by
  induction fuel generalizing s integer with
  | zero => omega
  | succ fuel ih =>
    rw [integerDigits]
    refine read_then hfine fun c t hgot hunget herrors => ?_
    refine Ensures.ite (fun hdigit => ?_) (fun hdigit => Ensures.pure ?_)
    · have hc := isDigit_ne_eof hdigit
      have hlength := hgot.length hc
      have hmore : ∀ {u : Lexer} (n : ℕ), u.codes = t.codes → t.errors.length ≤ u.errors.length →
          u.fUngetc.length = t.fUngetc.length →
          Ensures (integerDigits fuel n) u throws fun p x =>
            ∃ v, Reads s.codes s.errors.length 2 x v (take p.1 ++ x.codes)
              (v ∈ (oneOf isDigit)∗) ∧ (p.1 = eof → x.codes = []) := by
        intro u n hcodes herrors' hunget'
        refine (ih n (by rw [hcodes]; omega) (by rw [hcodes]; exact hgot.fine) (by omega)).mono
          fun p x ⟨v, hread, hstop⟩ => ⟨[c] ++ v, hread.after ?_ (by omega) fun _ hgood =>
            cons_mem_kstar (mem_oneOf hdigit) hgood, hstop⟩
        rw [hcodes]
        exact hgot.drops_of_ne hc
      refine Ensures.ite (fun _ => ?_) (fun _ => hmore _ rfl (le_refl _) rfl)
      exact Ensures.bind (report_ensures fun u hcodes herrors' hunget' =>
        hmore _ hcodes herrors'.le hunget')
    · exact ⟨[], ⟨hgot.drops, herrors, fun _ => Language.nil_mem_kstar _, by omega⟩, hgot.stop⟩

theorem fractionDigits_ensures (fuel : ℕ) (fraction : List ℤ) (hfuel : s.codes.length < fuel)
    (hfine : Fine throws s.codes) (hroom : s.fUngetc.length ≤ 3) :
    Ensures (fractionDigits fuel fraction) s throws fun p t =>
      ∃ v, Reads s.codes s.errors.length 2 t v (take p.1 ++ t.codes) (v ∈ (oneOf isDigit)∗) ∧
        (p.1 = eof → t.codes = []) ∧ p.2 = fraction ++ v := by
  induction fuel generalizing s fraction with
  | zero => omega
  | succ fuel ih =>
    rw [fractionDigits]
    refine read_then hfine fun c t hgot hunget herrors => ?_
    refine Ensures.ite (fun hdigit => ?_) (fun hdigit => Ensures.pure ?_)
    · have hc := isDigit_ne_eof hdigit
      have hlength := hgot.length hc
      have hmore : ∀ {u : Lexer}, u.codes = t.codes → t.errors.length ≤ u.errors.length →
          u.fUngetc.length = t.fUngetc.length →
          Ensures (fractionDigits fuel (fraction ++ [c])) u throws fun p x =>
            ∃ v, Reads s.codes s.errors.length 2 x v (take p.1 ++ x.codes)
              (v ∈ (oneOf isDigit)∗) ∧ (p.1 = eof → x.codes = []) ∧ p.2 = fraction ++ v := by
        intro u hcodes herrors' hunget'
        refine (ih (fraction ++ [c]) (by rw [hcodes]; omega) (by rw [hcodes]; exact hgot.fine)
          (by omega)).mono fun p x ⟨v, hread, hstop, hp⟩ => ⟨[c] ++ v, hread.after ?_ (by omega)
            fun _ hgood => cons_mem_kstar (mem_oneOf hdigit) hgood, hstop, ?_⟩
        · rw [hcodes]
          exact hgot.drops_of_ne hc
        · rw [hp, List.append_assoc]
      refine Ensures.ite (fun _ => ?_) (fun _ => hmore rfl (le_refl _) rfl)
      exact Ensures.bind (report_ensures fun u hcodes herrors' hunget' =>
        hmore hcodes herrors'.le hunget')
    · exact ⟨[], ⟨hgot.drops, herrors, fun _ => Language.nil_mem_kstar _, by omega⟩, hgot.stop,
        (List.append_nil _).symm⟩

/-- The fraction after the character `c`, if it is a period. -/
def fractionOf (c : ℤ) : Language ℤ := if c = '.' then literal ['.'] * digits else 1

theorem fractionPart_ensures (fuel : ℕ) (c : ℤ) (hfuel : s.codes.length < fuel)
    (hfine : Fine throws s.codes) (hroom : s.fUngetc.length ≤ 2) (hstop : c = eof → s.codes = []) :
    Ensures (fractionPart fuel c) s throws fun p t =>
      ∃ v, Reads (take c ++ s.codes) s.errors.length 2 t v (take p.1 ++ t.codes)
        (v ∈ fractionOf c) ∧ (p.1 = eof → t.codes = []) ∧ (c = '.' → v ≠ []) := by
  rw [fractionPart]
  refine Ensures.ite (fun hc => ?_) (fun hc => Ensures.pure ?_)
  · refine Ensures.bind ((fractionDigits_ensures fuel [] hfuel hfine (by omega)).mono
      fun ⟨d, fraction⟩ t ⟨v, hread, hstop', hp⟩ => ?_)
    have herrors := hread.errors
    have hroom' := hread.room
    have htake : take c = [c] := take_of_ne (by rw [hc]; decide)
    have hdrops := Drops.append_left (take c) hread.drops
    rw [← List.append_assoc] at hdrops
    refine Ensures.ite (fun _ => ?_) (fun hfraction => Ensures.pure ?_)
    · refine Ensures.bind (report_ensures fun u hcodes herrors' hunget' => Ensures.pure ?_)
      rw [← hcodes] at hdrops hstop'
      exact ⟨take c ++ v, ⟨hdrops, by omega, fun heq => by omega, by omega⟩, hstop',
        fun _ => by rw [htake]; simp⟩
    · refine ⟨take c ++ v, ⟨hdrops, herrors, fun heq => ?_, hroom'⟩, hstop',
        fun _ => by rw [htake]; simp⟩
      rw [fractionOf, if_pos hc, htake, hc]
      refine Language.append_mem_mul (mem_literal '.') (mem_many_of_ne_nil (hread.good heq) ?_)
      rintro rfl
      exact hfraction hp
  · refine ⟨[], ⟨Drops.refl _, le_refl _, fun _ => ?_, hroom⟩, hstop, fun h => absurd h hc⟩
    rw [fractionOf, if_neg hc]
    rfl

def ExponentAhead (l : List ℤ) : Prop :=
  (∃ d r, l = d :: r ∧ isDigit d = true) ∨
    ∃ sign d r, l = sign :: d :: r ∧ (sign = '-' ∨ sign = '+') ∧ isDigit d = true

theorem hand_digit (h : isDigit d = true) : hand d = [d] := by
  refine hand_of_ne (isDigit_ne_eof h) ?_
  rintro rfl
  exact absurd h (by decide)

/-- What is looked at behind an `e` is still there, but for the characters that are dropped. -/
theorem isExponent_ensures (hfine : Fine throws s.codes) (hroom : s.fUngetc.length ≤ 2) :
    Ensures isExponent s throws fun found t => Drops s.codes t.codes ∧
      s.errors.length ≤ t.errors.length ∧ t.fUngetc.length ≤ 2 ∧
      (found = true → ExponentAhead t.codes) := by
  rw [isExponent]
  refine read_then hfine fun c t hgot hunget _ => ?_
  refine Ensures.ite (fun hsign => ?_) (fun hsign => ?_)
  · have hc : hand c = [c] := by
      refine hand_of_ne ?_ ?_
      · rcases hsign with rfl | rfl <;> decide
      · rcases hsign with rfl | rfl <;> decide
    refine read_then hgot.fine fun d u hgot' hunget' _ => ?_
    refine hgot.putBackBoth hgot' hfine (by omega) fun y hcodes hback herrors hunget'' =>
      Ensures.pure ⟨hback, herrors, by omega, fun hd => Or.inr ⟨c, d, u.codes, ?_, hsign, hd⟩⟩
    rw [hcodes, hc, hand_digit hd]
    rfl
  · refine Ensures.bind (hgot.putBack hfine (by omega) fun u hcodes hback herrors hunget' =>
      Ensures.pure ⟨hback, herrors, by omega, fun hd => Or.inl ⟨c, t.codes, ?_, hd⟩⟩)
    rw [hcodes, hand_digit hd]
    rfl

theorem exponentDigits_ensures (fuel : ℕ) (c exponent : ℤ)
    (hfuel : (take c ++ s.codes).length < fuel) (hfine : Fine throws s.codes)
    (hroom : s.fUngetc.length ≤ 2) (hstop : c = eof → s.codes = []) :
    Ensures (exponentDigits fuel c exponent) s throws fun p t =>
      ∃ v, Reads (take c ++ s.codes) s.errors.length 2 t v (take p.1 ++ t.codes)
        (v ∈ (oneOf isDigit)∗ ∧ (isDigit c = true → v ≠ [])) ∧ (p.1 = eof → t.codes = []) := by
  induction fuel generalizing s c exponent with
  | zero => omega
  | succ fuel ih =>
    rw [exponentDigits]
    refine Ensures.ite (fun hdigit => ?_) (fun hdigit => Ensures.pure ?_)
    · have hc : take c = [c] := take_of_ne (isDigit_ne_eof hdigit)
      rw [hc, List.length_append, List.length_singleton] at hfuel
      have hmore : ∀ {t : Lexer} (n : ℤ), t.codes = s.codes →
          s.errors.length ≤ t.errors.length → t.fUngetc.length = s.fUngetc.length →
          Ensures (do let c ← getc; exponentDigits fuel c n) t throws fun p x =>
            ∃ v, Reads (take c ++ s.codes) s.errors.length 2 x v (take p.1 ++ x.codes)
              (v ∈ (oneOf isDigit)∗ ∧ (isDigit c = true → v ≠ [])) ∧
              (p.1 = eof → x.codes = []) := by
        intro t n hcodes herrors hunget
        refine read_then (by rw [hcodes]; exact hfine) fun d u hgot hunget' herrors' => ?_
        refine (ih d n ?_ hgot.fine (by omega) hgot.stop).mono fun p x ⟨v, hread, hstop'⟩ =>
          ⟨[c] ++ v, hread.after ?_ (by omega) fun _ hgood => ⟨?_, fun _ => by simp⟩, hstop'⟩
        · rw [← hgot.codes, hcodes]
          omega
        · rw [← hgot.codes, hcodes, hc]
          exact Drops.refl _
        · exact cons_mem_kstar (mem_oneOf hdigit) hgood.1
      simp only []
      refine Ensures.ite (fun _ => ?_) (fun _ => hmore _ rfl (le_refl _) rfl)
      exact Ensures.bind (report_ensures fun u hcodes herrors hunget =>
        hmore _ hcodes herrors.le hunget)
    · exact ⟨[], ⟨Drops.refl _, le_refl _, fun _ => ⟨Language.nil_mem_kstar _,
        fun h => absurd h hdigit⟩, hroom⟩, hstop⟩

theorem exponentNumber_ensures (fuel : ℕ) (sign c : ℤ) (hdigit : isDigit c = true)
    (hfuel : (take c ++ s.codes).length < fuel) (hfine : Fine throws s.codes)
    (hroom : s.fUngetc.length ≤ 2) :
    Ensures (exponentNumber fuel sign c) s throws fun p t =>
      ∃ v, Reads (take c ++ s.codes) s.errors.length 2 t v (take p.1 ++ t.codes) (v ∈ digits) ∧
        (p.1 = eof → t.codes = []) := by
  rw [exponentNumber, if_pos hdigit]
  refine Ensures.bind ((exponentDigits_ensures fuel c 0 hfuel hfine hroom
    fun hc => absurd hc (isDigit_ne_eof hdigit)).mono fun p t ⟨v, hread, hstop⟩ =>
      Ensures.pure ⟨v, hread.mono (le_refl 2) fun hgood => ?_, hstop⟩)
  exact mem_many_of_ne_nil hgood.1 (hgood.2 hdigit)

/-- The character that is read is the first one. -/
theorem Got.eq_head {r : List ℤ} {t : Lexer} (h : Got s throws c t)
    (hcodes : s.codes = d :: r) : c = d ∧ t.codes = r := by
  have heq := h.codes
  by_cases hc : c = eof
  · rw [hc, take_eof, h.stop hc, hcodes] at heq
    cases heq
  · rw [take_of_ne hc, hcodes] at heq
    obtain ⟨hhead, htail⟩ := List.cons.inj heq
    exact ⟨hhead.symm, htail.symm⟩

theorem exponentPart_ensures (fuel : ℕ) (c : ℤ) (hfuel : s.codes.length < fuel)
    (hfine : Fine throws s.codes) (hroom : s.fUngetc.length ≤ 2) (hstop : c = eof → s.codes = []) :
    Ensures (exponentPart fuel c) s throws fun p t =>
      ∃ v, Reads (take c ++ s.codes) s.errors.length 2 t v (take p.1 ++ t.codes)
        (v ∈ maybe exponentText) ∧ (p.1 = eof → t.codes = []) := by
  rw [exponentPart]
  refine Ensures.ite (fun hc => ?_) (fun hc => Ensures.pure ?_)
  · refine Ensures.bind ((isExponent_ensures hfine hroom).mono
      fun found t ⟨hdrops, herrors, hroom', hahead⟩ => ?_)
    have hshort := hdrops.length_le
    have hfine' : Fine throws t.codes := hfine.right (w := []) hdrops
    have htake : take c = [c] := take_of_ne (by rcases hc with rfl | rfl <;> decide)
    have hletter : [c] ∈ literal ['e'] + literal ['E'] := by
      rcases hc with rfl | rfl
      · exact Or.inl rfl
      · exact Or.inr rfl
    refine Ensures.ite (fun hfound => ?_) (fun hfound => Ensures.pure ?_)
    · rcases hahead hfound with ⟨d, r, hcodes, hd⟩ | ⟨sign, d, r, hcodes, hsign, hd⟩
      · refine read_then hfine' fun g u hgot _ _ => ?_
        obtain ⟨rfl, hrest⟩ := hgot.eq_head hcodes
        have hunget := hgot.room
        have herrors' := hgot.errors
        have hg : g ≠ '-' ∧ g ≠ '+' := by
          constructor
          · rintro rfl
            exact absurd hd (by decide)
          · rintro rfl
            exact absurd hd (by decide)
        rw [if_neg hg.1, if_neg hg.2]
        refine (exponentNumber_ensures fuel 1 g hd (by rw [← hgot.codes]; omega) hgot.fine
          (by omega)).mono fun p x ⟨v, hread, hstop'⟩ =>
            ⟨[c] ++ v, hread.after ?_ (by omega) fun _ hgood => ?_, hstop'⟩
        · rw [htake, ← hgot.codes]
          exact Drops.append_left [c] hdrops
        · refine mem_maybe (Language.append_mem_mul ?_ hgood)
          exact List.append_nil [c] ▸ Language.append_mem_mul hletter (nil_mem_maybe _)
      · refine read_then hfine' fun g u hgot _ _ => ?_
        obtain ⟨rfl, hrest⟩ := hgot.eq_head hcodes
        have hunget := hgot.room
        have herrors' := hgot.errors
        have hg : g ≠ eof := by rcases hsign with rfl | rfl <;> decide
        have hmore : ∀ n : ℤ, Ensures (do let c ← getc; exponentNumber fuel n c) u throws
            fun p x => ∃ v, Reads (take c ++ s.codes) s.errors.length 2 x v
              (take p.1 ++ x.codes) (v ∈ maybe exponentText) ∧ (p.1 = eof → x.codes = []) := by
          intro n
          refine read_then hgot.fine fun b x hgot' _ _ => ?_
          obtain ⟨rfl, hrest'⟩ := hgot'.eq_head hrest
          have hunget' := hgot'.room
          have herrors'' := hgot'.errors
          have hlength := hgot.length hg
          refine (exponentNumber_ensures fuel n b hd (by rw [← hgot'.codes]; omega) hgot'.fine
            (by omega)).mono fun p x ⟨v, hread, hstop'⟩ =>
              ⟨[c] ++ [g] ++ v, hread.after ?_ (by omega) fun _ hgood => ?_, hstop'⟩
          · rw [htake, ← hgot'.codes, List.append_assoc]
            refine Drops.append_left [c] (hdrops.trans ?_)
            exact hgot.drops_of_ne hg
          · refine mem_maybe (Language.append_mem_mul (Language.append_mem_mul hletter
              (mem_maybe ?_)) hgood)
            rcases hsign with rfl | rfl
            · exact Or.inl rfl
            · exact Or.inr rfl
        refine Ensures.ite (fun _ => hmore (-1)) (fun hminus => ?_)
        rw [if_pos (hsign.resolve_left hminus)]
        exact hmore 1
    · refine ⟨[], ⟨?_, herrors, fun _ => nil_mem_maybe _, hroom'⟩, fun heof => ?_⟩
      · exact Drops.append_left (take c) hdrops
      · have heof : c = eof := heof
        rw [heof] at hc
        exact absurd hc (by decide)
  · exact ⟨[], ⟨Drops.refl _, le_refl _, fun _ => nil_mem_maybe _, hroom⟩, hstop⟩

theorem encoding_ne_nil (h : (encoding c).2 = []) : (encoding c).1 ≠ [] := by
  unfold encoding at h ⊢
  simp only [] at h ⊢
  split_ifs at h ⊢ <;> simp_all

theorem encoding_eq_dash (h : (encoding c).1 = [45]) : c = '-' := by
  unfold encoding at h
  simp only [] at h
  split_ifs at h with hneg hascii
  · have hbyte := congrArg UInt8.toNat (List.cons.inj h).1
    have hsmall : c.toNat.toUInt8.toNat = c.toNat := by
      rw [Nat.toUInt8, UInt8.toNat_ofNat', Nat.mod_eq_of_lt (by omega)]
    rw [hsmall] at hbyte
    have hvalue : (45 : UInt8).toNat = 45 := rfl
    change c = 45
    omega
  all_goals simp at h

theorem toLower_eq_dash (h : toLower c = '-') : c = '-' := by
  unfold toLower at h
  simp only [Char.reduceToNat, Nat.cast_ofNat] at h ⊢
  split_ifs at h <;> omega

/-- What is added to the text is the encoding of the character. -/
theorem encode_ensures {post : Bytes → Lexer → Prop}
    (h : ∀ t, t.codes = s.codes → s.errors.length ≤ t.errors.length →
      (t.errors.length = s.errors.length → (encoding c).1 ≠ []) →
      t.fUngetc.length = s.fUngetc.length → post (encoding c).1 t) :
    Ensures (wctomb c) s throws post := by
  refine h _ rfl (by simp) (fun heq => encoding_ne_nil ?_) rfl
  simpa using heq

def Stops (l : List ℤ) : Prop := ∀ c r, l = c :: r → isIdentifier c = false ∧ c ≠ '\\'

def UnitEnd (v r : List ℤ) : Prop := v = [] ∧ Stops r ∨ v ∈ escapeText replacement

/-- How a unit was read after the bytes `dim`, told apart by what they became. -/
structure UnitRead (dim dimension : Bytes) (v r : List ℤ) : Prop where
  pre : dim <+: dimension
  pieces : v ∈ namePiece∗
  none : dimension = dim → UnitEnd v r
  one : ∀ x, dimension = dim ++ [x] → ∃ a b c, v = a ++ b ∧ UnitEnd b r ∧
    (isIdentifier c = true ∧ a = [c] ∨ a ∈ escapeText c) ∧ (encoding (toLower c)).1 = [x]

theorem UnitRead.step {dim mb dimension : Bytes} {a v r : List ℤ} {c : ℤ}
    (h : UnitRead (dim ++ mb) dimension v r) (hmb : (encoding (toLower c)).1 = mb) (hne : mb ≠ [])
    (ha : isIdentifier c = true ∧ a = [c] ∨ a ∈ escapeText c) :
    UnitRead dim dimension (a ++ v) r := by
  obtain ⟨rest, hrest⟩ := h.pre
  refine ⟨⟨mb ++ rest, by rw [← hrest, List.append_assoc]⟩, ?_, fun heq => ?_, fun x heq => ?_⟩
  · refine cons_mem_kstar ?_ h.pieces
    rcases ha with ⟨hc, rfl⟩ | ha
    · exact Or.inl (mem_oneOf hc)
    · exact Or.inr ⟨c, ha⟩
  · have hlength := congrArg List.length (hrest.trans heq)
    rw [List.length_append, List.length_append] at hlength
    have hpos := List.length_pos_iff.mpr hne
    omega
  · have hall := hrest.trans heq
    rw [List.append_assoc] at hall
    have hlast := List.append_cancel_left hall
    have hx : mb = [x] ∧ rest = [] := by
      cases mb with
      | nil => exact absurd rfl hne
      | cons y mb =>
        rw [List.cons_append] at hlast
        obtain ⟨rfl, htail⟩ := List.cons.inj hlast
        obtain ⟨rfl, rfl⟩ := List.append_eq_nil_iff.mp htail
        exact ⟨rfl, rfl⟩
    rw [hx.1] at hmb
    refine ⟨a, v, c, rfl, h.none ?_, ha, hmb⟩
    rw [← hrest, hx.2, List.append_nil]

theorem dimensionLoop_ensures (fuel : ℕ) (c : ℤ) (dim : Bytes)
    (hfuel : (take c ++ s.codes).length < fuel) (hfine : Fine throws (take c ++ s.codes))
    (hroom : s.fUngetc.length ≤ 2) (hroom' : dim ≠ [] → s.fUngetc.length ≤ 1)
    (hstop : c = eof → s.codes = []) :
    Ensures (dimensionLoop fuel c dim) s throws fun dimension t =>
      (∃ v, Reads (take c ++ s.codes) s.errors.length 3 t v t.codes
        (UnitRead dim dimension v t.codes) ∧ (dimension ≠ dim → v ≠ [])) ∧
        (dimension ≠ [] → t.fUngetc.length ≤ 2) := by
  induction fuel generalizing s c dim with
  | zero => omega
  | succ fuel ih =>
    have hfine' : Fine throws s.codes := hfine.right (Drops.refl _)
    -- A piece was read, and the next character is the first one of the rest.
    have hmore : ∀ {t : Lexer} {a : List ℤ} {d : ℤ}, Reads (take c ++ s.codes) s.errors.length 2 t
        a t.codes (isIdentifier d = true ∧ a = [d] ∨ a ∈ escapeText d) → 1 ≤ a.length →
        Ensures (do
          let mb ← wctomb (toLower d)
          let c ← getc
          dimensionLoop fuel c (dim ++ mb)) t throws fun dimension t =>
            (∃ v, Reads (take c ++ s.codes) s.errors.length 3 t v t.codes
              (UnitRead dim dimension v t.codes) ∧ (dimension ≠ dim → v ≠ [])) ∧
              (dimension ≠ [] → t.fUngetc.length ≤ 2) := by
      intro t a d hread hpos
      have hroom₂ := hread.room
      have hshort := hread.drops.length_le
      rw [List.length_append] at hshort
      refine Ensures.bind (encode_ensures fun u hcodes herrors hne hunget => ?_)
      have hfineu : Fine throws u.codes := by
        rw [hcodes]
        exact hfine.right hread.drops
      refine read_then hfineu fun g x hgot hunget' herrors' => ?_
      have hcodes' : take g ++ x.codes = t.codes := by rw [← hgot.codes, hcodes]
      refine (ih g (dim ++ (encoding (toLower d)).1) (by rw [hcodes']; omega)
        (by rw [hcodes', ← hcodes]; exact hfineu) (by omega) (fun _ => by omega) hgot.stop).mono
          fun dimension y ⟨⟨v, hlast, _⟩, hroom₃⟩ => ⟨⟨a ++ v, ?_, fun _ hnil => ?_⟩, hroom₃⟩
      · have hlast' : Reads t.codes t.errors.length 3 y v y.codes
            (UnitRead (dim ++ (encoding (toLower d)).1) dimension v y.codes ∧
              (encoding (toLower d)).1 ≠ []) := by
          have hend := hlast.errors
          rw [hcodes'] at hlast
          exact ⟨hlast.drops, by omega, fun heq => ⟨hlast.good (by omega), hne (by omega)⟩,
            hlast.room⟩
        exact hlast'.after hread.drops hread.errors fun heq hgood =>
          hgood.1.step rfl hgood.2 (hread.good heq)
      · rw [(List.append_eq_nil_iff.mp hnil).1] at hpos
        cases hpos
    rw [dimensionLoop]
    refine Ensures.ite (fun hslash => ?_) (fun hslash => ?_)
    · have hc : take c = [c] := take_of_ne (by rw [hslash]; decide)
      refine Ensures.bind ((escape_ensures hfine' hroom).mono fun d t ⟨v, hread⟩ => ?_)
      have hread' : Reads (take c ++ s.codes) s.errors.length 1 t ([c] ++ v) t.codes
          ([c] ++ v ∈ escapeText d) := by
        refine hread.after (w := [c]) ?_ (le_refl _) fun _ hgood => ?_
        · rw [hc]
          exact Drops.refl _
        · rw [hslash]
          exact hgood
      refine Ensures.ite (fun hd => Ensures.pure ⟨⟨[c] ++ v, ?_, fun _ => by simp⟩, fun _ => ?_⟩)
        (fun hd => ?_)
      · refine hread'.mono (by omega) fun hgood => ?_
        rw [hd] at hgood
        refine ⟨List.prefix_refl _, ?_, fun _ => Or.inr hgood, fun x heq => ?_⟩
        · exact List.append_nil ([c] ++ v) ▸
            cons_mem_kstar (Or.inr ⟨_, hgood⟩) (Language.nil_mem_kstar _)
        · exact absurd (congrArg List.length heq) (by simp)
      · have hroom₂ := hread'.room
        omega
      · exact hmore (hread'.mono (by omega) Or.inr) (by simp)
    refine Ensures.ite (fun hident => ?_) (fun hident => ?_)
    · have hc : take c = [c] := take_of_ne (isIdentifier_ne_eof hident)
      refine hmore (a := [c]) ⟨?_, le_refl _, fun _ => Or.inl ⟨hident, rfl⟩, hroom⟩ (by simp)
      rw [hc]
      exact Drops.refl _
    · have hfinec : Fine throws (take c) := hfine.left (Drops.refl _)
      refine Ensures.bind (ungetc_ensures hfinec.hand (by rw [ungetSize]; omega)
        fun t hcodes herrors hunget =>
          Ensures.pure ⟨⟨[], ?_, fun h => absurd rfl h⟩, fun hne => ?_⟩)
      · have hback : Drops (take c ++ s.codes) t.codes := hcodes ▸ drops_hand c _
        refine ⟨hback, herrors.ge, fun _ => ⟨List.prefix_refl _, Language.nil_mem_kstar _,
          fun _ => Or.inl ⟨rfl, fun d r hcons => ?_⟩,
          fun x heq => absurd (congrArg List.length heq) (by simp)⟩, by omega⟩
        by_cases heof : c = eof
        · rw [hcodes, heof, hstop heof] at hcons
          cases hcons
        · have hhand : hand c = [c] := by
            refine hand_of_ne heof ?_
            rintro rfl
            exact hident rfl
          rw [hcodes, hhand] at hcons
          obtain ⟨rfl, -⟩ := List.cons.inj hcons
          exact ⟨by simpa using hident, hslash⟩
      · have hone := hroom' hne
        omega

def LostUnit (u r : List ℤ) : Prop :=
  u ∈ escapeText '-' ∧ Stops r ∨
    u ∈ (literal ['-'] + escapeText '-') * escapeText replacement

def unitOf (percent : Bool) : Language ℤ := if percent then literal ['%'] else maybe unitText

/-- What was read of a number: the text `n` of its digits and its unit, unless the unit is lost. At
least `k` characters of the first text were read. -/
def NumberReads (l : List ℤ) (e : ℕ) (t : Lexer) (percent : Bool) (k : ℕ)
    (good : List ℤ → Prop) : Prop :=
  ∃ n u, k ≤ n.length ∧ (Reads l e 3 t (n ++ u) t.codes (good n ∧ u ∈ unitOf percent) ∨
    ∃ r, Reads l e 3 t (n ++ u) r (good n ∧ LostUnit u r) ∧ t.codes = ('-' : ℤ) :: r ∧ u ≠ [])

theorem NumberReads.after {l m w : List ℤ} {e e' k k' : ℕ} {t : Lexer} {percent : Bool}
    {good good' : List ℤ → Prop} (h : NumberReads m e' t percent k good)
    (hdrops : Drops l (w ++ m)) (he : e ≤ e') (hk : k' ≤ w.length + k)
    (hgood : e' = e → ∀ n, good n → good' (w ++ n)) : NumberReads l e t percent k' good' := by
  obtain ⟨n, u, hlength, hread | ⟨r, hread, hcodes, hne⟩⟩ := h
  · refine ⟨w ++ n, u, by rw [List.length_append]; omega, Or.inl ?_⟩
    rw [List.append_assoc]
    exact hread.after hdrops he fun heq h => ⟨hgood heq n h.1, h.2⟩
  · refine ⟨w ++ n, u, by rw [List.length_append]; omega, Or.inr ⟨r, ?_, hcodes, hne⟩⟩
    rw [List.append_assoc]
    exact hread.after hdrops he fun heq h => ⟨hgood heq n h.1, h.2⟩

theorem UnitRead.lost {r : List ℤ} (h : UnitRead [] [45] v r) (hv : v ≠ [('-' : ℤ)]) :
    LostUnit v r := by
  obtain ⟨a, b, c, rfl, hend, ha, hc⟩ := h.one 45 rfl
  obtain rfl : c = '-' := toLower_eq_dash (encoding_eq_dash hc)
  rcases hend with ⟨rfl, hstops⟩ | hb
  · rcases ha with ⟨-, rfl⟩ | ha
    · exact absurd rfl hv
    · rw [List.append_nil]
      exact Or.inl ⟨ha, hstops⟩
  · refine Or.inr (Language.append_mem_mul ?_ hb)
    rcases ha with ⟨-, rfl⟩ | ha
    · exact Or.inl rfl
    · exact Or.inr ha

theorem dimensionPart_ensures (fuel : ℕ) (c : ℤ) (hfuel : (take c ++ s.codes).length < fuel)
    (hfine : Fine throws (take c ++ s.codes)) (hroom : s.fUngetc.length ≤ 2)
    (hstop : c = eof → s.codes = []) :
    Ensures (dimensionPart fuel c) s throws fun p t =>
      NumberReads (take c ++ s.codes) s.errors.length t p.2 0 (· = []) ∧
        (p.2 = true → p.1 = []) := by
  rw [dimensionPart]
  refine Ensures.ite (fun _ => ?_) (fun hunit => ?_)
  · refine Ensures.bind ((dimensionLoop_ensures fuel c [] hfuel hfine hroom (fun h => absurd rfl h)
      hstop).mono fun dimension t ⟨⟨v, hread, hne⟩, hroom'⟩ => ?_)
    have herrors := hread.errors
    refine Ensures.ite (fun hdash => ?_) (fun hdash => Ensures.pure ⟨?_, fun h => by cases h⟩)
    · have hroom₂ := hroom' (by rw [hdash]; simp)
      have hfinedash : Fine throws (hand '-') := by
        intro d hd
        rw [hand_of_ne (by decide) (by decide), List.mem_singleton] at hd
        rw [hd]
        exact ⟨by decide, fun h => absurd h (by decide)⟩
      refine Ensures.bind (ungetc_ensures hfinedash (by rw [ungetSize]; omega)
        fun u hcodes herrors' hunget => Ensures.pure ⟨?_, fun h => by cases h⟩)
      rw [hand_of_ne (by decide) (by decide)] at hcodes
      by_cases hv : v = [('-' : ℤ)]
      · refine ⟨[], [], le_refl _,
          Or.inl ⟨?_, by omega, fun _ => ⟨rfl, nil_mem_maybe _⟩, by omega⟩⟩
        rw [hcodes, ← hv]
        exact hread.drops
      · refine ⟨[], v, le_refl _, Or.inr ⟨t.codes,
          ⟨hread.drops, by omega, fun heq => ⟨rfl, ?_⟩, by omega⟩, hcodes,
          hne (by rw [hdash]; simp)⟩⟩
        have hgood := hread.good (by omega)
        rw [hdash] at hgood
        exact hgood.lost hv
    · refine ⟨[], v, le_refl _, Or.inl (hread.mono (le_refl 3) fun hgood => ⟨rfl, ?_⟩)⟩
      by_cases hv : v = []
      · rw [hv]
        exact nil_mem_maybe _
      · exact mem_maybe (mem_many_of_ne_nil hgood.pieces hv)
  refine Ensures.ite (fun hpercent => Ensures.pure ⟨?_, fun _ => rfl⟩) (fun _ => ?_)
  · have hc : take c = [c] := take_of_ne (by rw [hpercent]; decide)
    refine ⟨[], [c], le_refl _, Or.inl ⟨?_, le_refl _, fun _ => ⟨rfl, ?_⟩, by omega⟩⟩
    · rw [hc]
      exact Drops.refl _
    · rw [hpercent]
      exact mem_literal '%'
  · have hread : Reads (take c ++ s.codes) s.errors.length 2 s [] (take c ++ s.codes) True :=
      ⟨Drops.refl _, le_refl _, fun _ => trivial, hroom⟩
    exact Ensures.bind (hread.putBack hfine (by decide) fun t _ hlast => Ensures.pure
      ⟨⟨[], [], le_refl _, Or.inl (hlast.mono (le_refl 3) fun _ => ⟨rfl, nil_mem_maybe _⟩)⟩,
        fun h => by cases h⟩)

def NumberNode (tok : Token) (percent : Bool) : Prop :=
  tok.fType = .percent ∧ percent = true ∨
    (tok.fType = .integer ∨ tok.fType = .decimalNumber) ∧ percent = false

theorem numberNode_type (hasSign : Bool) (sign : ℤ) (integer : ℕ) (fraction : Option (List ℤ))
    (exponent : ℤ) (dimension : Bytes) (percent : Bool) :
    NumberNode (numberNode hasSign sign integer fraction exponent dimension percent) percent := by
  unfold numberNode
  cases percent with
  | true => exact Or.inl ⟨by simp, rfl⟩
  | false =>
    refine Or.inr ⟨?_, rfl⟩
    by_cases hdecimal : exponent ≠ 0 ∨ fraction.isSome = true ∨ false = true
    · rw [if_pos hdecimal]
      exact Or.inr rfl
    · rw [if_neg hdecimal]
      exact Or.inl rfl

theorem numberRest_ensures (fuel : ℕ) (hasSign : Bool) (sign : ℤ) (integer : ℕ) (c : ℤ)
    (hfuel : (take c ++ s.codes).length < fuel) (hfine : Fine throws (take c ++ s.codes))
    (hroom : s.fUngetc.length ≤ 2) (hstop : c = eof → s.codes = []) :
    Ensures (numberRest fuel hasSign sign integer c) s throws fun tok t =>
      ∃ percent, NumberNode tok percent ∧
        NumberReads (take c ++ s.codes) s.errors.length t percent (if c = '.' then 1 else 0)
          (· ∈ fractionOf c * maybe exponentText) := by
  have hlength : (take c ++ s.codes).length = (take c).length + s.codes.length :=
    List.length_append
  rw [numberRest]
  refine Ensures.bind ((fractionPart_ensures fuel c (by omega) (hfine.right (Drops.refl _)) hroom
    hstop).mono fun ⟨d, fraction⟩ t ⟨f, hread, hstop', hne⟩ => ?_)
  dsimp only at hread hstop' ⊢
  have hfine' := hfine.right hread.drops
  have hshort := hread.drops.length_le
  have hlength' : (take d ++ t.codes).length = (take d).length + t.codes.length :=
    List.length_append
  rw [List.length_append] at hshort
  refine Ensures.bind ((exponentPart_ensures fuel d (by omega) (hfine'.right (Drops.refl _))
    hread.room hstop').mono fun ⟨g, exponent⟩ u ⟨x, hmore, hstop''⟩ => ?_)
  dsimp only at hmore hstop'' ⊢
  have hfine'' := hfine'.right hmore.drops
  have hshort' := hmore.drops.length_le
  rw [List.length_append] at hshort'
  refine Ensures.bind ((dimensionPart_ensures fuel g (by omega) hfine'' hmore.room hstop'').mono
    fun ⟨dimension, percent⟩ y ⟨hlast, _⟩ => Ensures.pure
      ⟨percent, numberNode_type _ _ _ _ _ _ _, ?_⟩)
  have hall := hmore.after hread.drops hread.errors fun heq hgood =>
    Language.append_mem_mul (hread.good heq) hgood
  refine hlast.after hall.drops hall.errors ?_ fun heq n hn => ?_
  · rw [List.length_append]
    split_ifs with hc
    · have hpos := List.length_pos_iff.mpr (hne hc)
      omega
    · exact Nat.zero_le _
  · rw [hn, List.append_nil]
    exact hall.good heq

def magnitude : Language ℤ :=
  (digits + maybe digits * (literal ['.'] * digits)) * maybe exponentText

theorem mem_magnitude {n : List ℤ} (hv : v ∈ digits)
    (hn : n ∈ fractionOf d * maybe exponentText) : v ++ n ∈ magnitude := by
  obtain ⟨f, hf, x, hx, rfl⟩ := Language.mem_mul.mp hn
  rw [← List.append_assoc]
  refine Language.append_mem_mul ?_ hx
  unfold fractionOf at hf
  by_cases hd : d = '.'
  · rw [if_pos hd] at hf
    exact Or.inr (Language.append_mem_mul (mem_maybe hv) hf)
  · rw [if_neg hd] at hf
    rw [(hf : f = []), List.append_nil]
    exact Or.inl hv

theorem numberStart_ensures (fuel : ℕ) (hasSign : Bool) (sign : ℤ) (c : ℤ)
    (hfuel : (take c ++ s.codes).length < fuel) (hfine : Fine throws (take c ++ s.codes))
    (hroom : s.fUngetc.length ≤ 2) (hc : isDigit c = true ∨ c = '.') :
    Ensures (numberStart fuel hasSign sign c) s throws fun tok t =>
      ∃ percent, NumberNode tok percent ∧
        NumberReads (take c ++ s.codes) s.errors.length t percent 1 (· ∈ magnitude) := by
  rw [numberStart]
  refine Ensures.ite (fun hdigit => ?_) (fun hdigit => ?_)
  · have htake : take c = [c] := take_of_ne (isDigit_ne_eof hdigit)
    rw [htake] at hfuel hfine ⊢
    rw [List.length_append, List.length_singleton] at hfuel
    refine Ensures.bind ((integerDigits_ensures fuel _ (by omega) (hfine.right (Drops.refl _))
      (by omega)).mono fun ⟨d, integer⟩ t ⟨v, hread, hstop⟩ => ?_)
    dsimp only at hread hstop ⊢
    have hshort := hread.drops.length_le
    rw [List.length_append] at hshort
    have hread' := hread.after (w := [c]) (Drops.refl _) (le_refl _) fun _ hgood =>
      (mem_many (mem_oneOf hdigit) hgood : [c] ++ v ∈ digits)
    refine (numberRest_ensures fuel hasSign sign integer d (by omega)
      (hfine.right hread'.drops) hread'.room hstop).mono
        fun tok u ⟨percent, hnode, hlast⟩ => ⟨percent, hnode, ?_⟩
    refine hlast.after hread'.drops hread'.errors ?_ fun heq n hn =>
      mem_magnitude (hread'.good heq) hn
    rw [List.length_append, List.length_singleton]
    omega
  · have hperiod := hc.resolve_left hdigit
    refine (numberRest_ensures fuel hasSign sign 0 c hfuel hfine hroom ?_).mono
      fun tok u ⟨percent, hnode, hlast⟩ => ⟨percent, hnode, ?_⟩
    · intro heof
      rw [hperiod] at heof
      exact absurd heof (by decide)
    · rw [if_pos hperiod] at hlast
      refine hlast.after (w := []) (Drops.refl _) (le_refl _) (le_refl _) fun _ n hn => ?_
      rw [fractionOf, if_pos hperiod] at hn
      obtain ⟨f, hf, x, hx, rfl⟩ := Language.mem_mul.mp hn
      have hfraction : f ∈ maybe digits * (literal ['.'] * digits) := by
        have h := Language.append_mem_mul (nil_mem_maybe digits) hf
        rwa [List.nil_append] at h
      rw [List.nil_append]
      exact Language.append_mem_mul (Or.inr hfraction) hx

def NumberAhead (l : List ℤ) : Prop := ∃ d r, l = d :: r ∧ (isDigit d = true ∨ d = '.')

theorem magnitude_mem_numeral {n : List ℤ}
    (hv : v ∈ maybe (literal ['-'] + literal ['+'])) (hn : n ∈ magnitude) : v ++ n ∈ numeral := by
  obtain ⟨a, ha, x, hx, rfl⟩ := Language.mem_mul.mp hn
  rw [← List.append_assoc]
  exact Language.append_mem_mul (Language.append_mem_mul hv ha) hx

/-- What `number()` reads, the character `c` included. -/
theorem number_ensures (fuel : ℕ) (c : ℤ) (hfuel : (take c ++ s.codes).length < fuel)
    (hfine : Fine throws (take c ++ s.codes)) (hroom : s.fUngetc.length ≤ 2)
    (hc : isDigit c = true ∨ c = '.' ∨ (c = '-' ∨ c = '+') ∧ NumberAhead s.codes) :
    Ensures (number fuel c) s throws fun tok t =>
      ∃ percent, NumberNode tok percent ∧
        NumberReads (take c ++ s.codes) s.errors.length t percent 1 (· ∈ numeral) := by
  rw [number]
  refine Ensures.ite (fun hsign => ?_) (fun hsign => ?_)
  · have htake : take c = [c] := take_of_ne (by rcases hsign with rfl | rfl <;> decide)
    have hahead : NumberAhead s.codes := by
      rcases hc with h | rfl | ⟨-, h⟩
      · rcases hsign with rfl | rfl
        · exact absurd h (by decide)
        · exact absurd h (by decide)
      · rcases hsign with h | h
        · exact absurd h (by decide)
        · exact absurd h (by decide)
      · exact h
    obtain ⟨d, r, hcodes, hd⟩ := hahead
    rw [htake] at hfuel hfine ⊢
    rw [List.length_append, List.length_singleton] at hfuel
    have hfine' := hfine.right (Drops.refl _)
    refine read_then hfine' fun g t hgot _ _ => ?_
    obtain ⟨rfl, -⟩ := hgot.eq_head hcodes
    have hunget := hgot.room
    refine (numberStart_ensures fuel true _ g (by rw [← hgot.codes]; omega)
      (by rw [← hgot.codes]; exact hfine') (by omega) hd).mono
        fun tok u ⟨percent, hnode, hlast⟩ => ⟨percent, hnode, ?_⟩
    refine hlast.after (w := [c]) ?_ hgot.errors (by simp) fun _ n hn =>
      magnitude_mem_numeral ?_ hn
    · rw [← hgot.codes]
      exact Drops.refl _
    · rcases hsign with rfl | rfl
      · exact mem_maybe (Or.inl rfl)
      · exact mem_maybe (Or.inr rfl)
  · have hd : isDigit c = true ∨ c = '.' := by
      rcases hc with h | h | ⟨h, -⟩
      · exact Or.inl h
      · exact Or.inr h
      · exact absurd h hsign
    refine (numberStart_ensures fuel false 1 c hfuel hfine hroom hd).mono
      fun tok u ⟨percent, hnode, hlast⟩ => ⟨percent, hnode, ?_⟩
    exact hlast.after (w := []) (Drops.refl _) (le_refl _) (le_refl _) fun _ n hn =>
      magnitude_mem_numeral (nil_mem_maybe _) hn

end SnapCpp.Css
