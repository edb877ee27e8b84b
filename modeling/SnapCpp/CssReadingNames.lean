import SnapCpp.CssSpelling

/-!
What the lexer reads of names, strings and URLs.
-/
namespace SnapCpp.Css

open Computability

variable {throws : Throw → Prop} {s : Lexer}

theorem hand_of_ne {c : ℤ} (heof : c ≠ eof) (hreplacement : c ≠ replacement) : hand c = [c] :=
  if_neg (not_or.mpr ⟨heof, hreplacement⟩)

@[simp] theorem hand_replacement : hand replacement = [] := if_pos (Or.inr rfl)

theorem isIdentifier_ne_eof {c : ℤ} (h : isIdentifier c = true) : c ≠ eof := by
  rintro rfl
  exact absurd h (by decide)

theorem Name.add_ensures {name : Name} {c : ℤ} {post : Name → Lexer → Prop}
    (h : ∀ name' t, t.codes = s.codes → s.errors.length ≤ t.errors.length →
      t.fUngetc.length = s.fUngetc.length → post name' t) :
    Ensures (name.add c) s throws post := by
  rw [Name.add]
  refine Ensures.bind (wctomb_ensures fun mb t hcodes herrors hroom => ?_)
  refine Ensures.bind (wctomb_ensures fun mb' u hcodes' herrors' hroom' => Ensures.pure ?_)
  exact h _ u (hcodes'.trans hcodes) (herrors.trans herrors') (hroom'.trans hroom)

theorem identifierLoop_ensures (fuel : ℕ) (name : Name) (hfuel : s.codes.length < fuel)
    (hfine : Fine throws s.codes) (hroom : s.fUngetc.length ≤ 3) :
    Ensures (identifierLoop fuel name) s throws fun p t =>
      ∃ v, Reads s.codes s.errors.length 2 t v (hand p.1 ++ t.codes) (v ∈ namePiece∗) := by
  induction fuel generalizing s name with
  | zero => omega
  | succ fuel ih =>
    rw [identifierLoop]
    refine read_then hfine fun c t hgot hunget _ => ?_
    refine Ensures.ite (fun hslash => ?_) (fun _ => ?_)
    · have hc : c ≠ eof := by
        rw [hslash]
        decide
      have hlength := hgot.length hc
      refine Ensures.bind ((escape_ensures hgot.fine (by omega)).mono fun d u ⟨v, hread⟩ => ?_)
      have hpiece : ∀ _ : ('\\' : ℤ) :: v ∈ escapeText d, [c] ++ v ∈ namePiece :=
        fun hgood => Or.inr ⟨d, by rw [hslash]; exact hgood⟩
      have hread := hread.after (hgot.drops_of_ne hc) hgot.errors fun _ hgood => hpiece hgood
      refine Ensures.ite (fun hreplacement => Ensures.pure ?_) (fun hreplacement => ?_)
      · refine ⟨[c] ++ v, ?_⟩
        rw [hreplacement, hand_replacement, List.nil_append]
        refine hread.mono (by omega) fun hgood => ?_
        exact List.append_nil ([c] ++ v) ▸ cons_mem_kstar hgood (Language.nil_mem_kstar _)
      · refine Ensures.bind (Name.add_ensures fun name' x hcodes herrors hunget' => ?_)
        have hshort := hread.drops.length_le
        have hroom' := hread.room
        simp only [List.length_append, List.length_singleton] at hshort
        have hfine' := hfine.right hread.drops
        have hdrops := hread.drops
        rw [← hcodes] at hfine' hshort hdrops
        refine (ih name' (by omega) hfine' (by omega)).mono fun p y ⟨w, hmore⟩ =>
          ⟨([c] ++ v) ++ w, hmore.after hdrops (hread.errors.trans herrors) fun heq hgood => ?_⟩
        have hstart := hread.errors
        exact cons_mem_kstar (hread.good (by omega)) hgood
    · refine Ensures.ite (fun hident => ?_) (fun hident => Ensures.pure ?_)
      · have hc := isIdentifier_ne_eof hident
        have hlength := hgot.length hc
        have hdrops := hgot.drops_of_ne hc
        have hfine' := hgot.fine
        refine Ensures.bind (Name.add_ensures fun name' x hcodes herrors hunget' => ?_)
        rw [← hcodes] at hlength hdrops hfine'
        refine (ih name' (by omega) hfine' (by omega)).mono fun p y ⟨w, hmore⟩ =>
          ⟨[c] ++ w, hmore.after hdrops (hgot.errors.trans herrors) fun _ hgood => ?_⟩
        exact cons_mem_kstar (Or.inl (mem_oneOf hident)) hgood
      · exact ⟨[], hgot.drops_hand, hgot.errors, fun _ => Language.nil_mem_kstar _, by omega⟩

theorem nil_not_stringEnd (quote : ℤ) (out : List ℤ) : ¬ StringEnd quote [] out := by
  rintro ⟨w, hw, -⟩
  exact absurd hw.symm (by simp)

def StringReads (quote : ℤ) (s t : Lexer) (str str' : Bytes) : Prop :=
  ∃ v out, str' = str ++ spell out ∧
    Reads s.codes s.errors.length 3 t v t.codes (StringEnd quote v out)

theorem stringLoop_more {quote : ℤ} {fuel : ℕ} {w o : List ℤ} {t : Lexer} {str : Bytes}
    (ih : ∀ {s : Lexer} (str : Bytes), s.codes.length < fuel → Fine throws s.codes →
      s.fUngetc.length ≤ 3 → Ensures (stringLoop quote fuel str) s throws fun str' t =>
        StringReads quote s t str str')
    (hread : Reads s.codes s.errors.length 3 t w t.codes (StringPiece quote w o))
    (hne : 1 ≤ w.length) (hfuel : s.codes.length < fuel + 1) (hfine : Fine throws s.codes) :
    Ensures (stringLoop quote fuel (str ++ spell o)) t throws fun str' t =>
      StringReads quote s t str str' := by
  have hshort := hread.drops.length_le
  rw [List.length_append] at hshort
  refine (ih _ (by omega) (hfine.right hread.drops) hread.room).mono
    fun str' u ⟨v, out, hstr, hmore⟩ => ⟨w ++ v, o ++ out, ?_,
      hmore.after hread.drops hread.errors fun heq hgood => ?_⟩
  · rw [hstr, spell_append, List.append_assoc]
  · exact .cons (hread.good heq) hgood

/-- The bytes of a character are added to what was read. -/
theorem Reads.wctomb {l v : List ℤ} {e room : ℕ} {t u : Lexer} {good : Prop}
    (h : Reads l e room t v t.codes good) (hcodes : u.codes = t.codes)
    (herrors : t.errors.length ≤ u.errors.length) (hroom : u.fUngetc.length = t.fUngetc.length) :
    Reads l e room u v u.codes good := by
  have he := h.errors
  have hr := h.room
  refine ⟨by rw [hcodes]; exact h.drops, by omega, fun heq => h.good (by omega), by omega⟩

theorem stringLoop_spells (quote : ℤ) (fuel : ℕ) (str : Bytes)
    (hfuel : s.codes.length < fuel) (hfine : Fine throws s.codes)
    (hroom : s.fUngetc.length ≤ 3) :
    Ensures (stringLoop quote fuel str) s throws fun str' t => StringReads quote s t str str' := by
  induction fuel generalizing s str with
  | zero => omega
  | succ fuel ih =>
    have hmore : ∀ {t : Lexer} {w : List ℤ} (o : List ℤ),
        Reads s.codes s.errors.length 3 t w t.codes (StringPiece quote w o) → 1 ≤ w.length →
        Ensures (stringLoop quote fuel (str ++ spell o)) t throws fun str' t =>
          StringReads quote s t str str' :=
      fun o hread hne =>
        stringLoop_more (fun str h₁ h₂ h₃ => ih str h₁ h₂ h₃) hread hne hfuel hfine
    have hskip : ∀ {t : Lexer} {w : List ℤ},
        Reads s.codes s.errors.length 3 t w t.codes (StringPiece quote w []) → 1 ≤ w.length →
        Ensures (stringLoop quote fuel str) t throws fun str' t =>
          StringReads quote s t str str' := by
      intro t w hread hne
      have hall := hmore [] hread hne
      rwa [spell_nil, List.append_nil] at hall
    have hstop : str = str ++ spell [] := by rw [spell_nil, List.append_nil]
    rw [stringLoop]
    refine read_then hfine fun c t hgot hunget herrors => ?_
    refine Ensures.ite (fun heof => ?_) (fun heof => ?_)
    · exact Ensures.bind (report_reads hgot.drops herrors (by omega) fun u hread _ =>
        Ensures.pure ⟨take c, [], hstop, hread _⟩)
    have hdrops := hgot.drops_of_ne heof
    refine Ensures.ite (fun hnewline => ?_) (fun hnewline => ?_)
    · refine Ensures.bind (hgot.putBack hfine (by omega) fun u _ hback herrors' hunget' => ?_)
      exact Ensures.bind (report_reads hback herrors' (by omega) fun x hread _ =>
        Ensures.pure ⟨[], [], hstop, hread _⟩)
    refine Ensures.ite (fun hq => Ensures.pure ?_) (fun hq => ?_)
    · refine ⟨[c], [], hstop, hdrops, herrors, fun _ => ?_, by omega⟩
      rw [hq]
      exact ⟨[], rfl, .nil⟩
    refine Ensures.ite (fun hslash => ?_) (fun hslash => ?_)
    · refine read_then hgot.fine fun n u hgot' hunget' herrors' => ?_
      have hdrops' : Drops s.codes ([c] ++ take n ++ u.codes) := by
        rw [List.append_assoc]
        exact hdrops.trans (Drops.append_left [c] hgot'.drops)
      refine Ensures.ite (fun hn => ?_) (fun hn => ?_)
      · refine Ensures.bind (wctomb_spells fun x hcodes herrors'' hcode hunget'' => ?_)
        have hread : Reads s.codes s.errors.length 3 u ([c] ++ take n) u.codes
            (StringPiece quote ([c] ++ take n) [n]) := by
          refine ⟨hdrops', by omega, fun _ => ?_, by omega⟩
          rw [hslash, hn]
          exact .line
        exact hmore _ (hread.spelled hcodes herrors'' hcode hunget'' fun h _ => h) (by simp)
      refine Ensures.ite (fun hn => ?_) (fun hn => ?_)
      · have hcodes := hgot'.stop hn
        have hlength := hgot.length heof
        have hshort := hgot'.drops.length_le
        rw [List.length_append] at hshort
        refine (ih str (by omega) hgot'.fine (by omega)).mono
          fun str' x ⟨v, out, hstr, hread⟩ =>
            ⟨[c] ++ take n ++ v, out, hstr, hread.after hdrops' (by omega) fun _ hgood => ?_⟩
        have hnil := hread.drops.length_le
        rw [hcodes, List.length_nil, List.length_append] at hnil
        rw [List.length_eq_zero_iff.mp (by omega : v.length = 0)] at hgood
        exact absurd hgood (nil_not_stringEnd quote out)
      refine Ensures.ite (fun hn => ?_) (fun hn => ?_)
      · exact Ensures.bind (report_reads hdrops' (herrors.trans herrors') (by omega)
          fun x hread _ => hskip (hread _) (by simp))
      refine Ensures.bind (hgot'.putBack hgot.fine (by omega)
        fun x _ hback herrors'' hunget'' => ?_)
      replace hback : Drops s.codes ([c] ++ x.codes) := hdrops.trans (Drops.append_left [c] hback)
      refine Ensures.bind ((escape_ensures (hfine.right hback) (by omega)).mono
        fun d y ⟨v, hread⟩ => ?_)
      have hread := hread.after hback (by omega : s.errors.length ≤ x.errors.length)
        fun _ hgood => (by rw [hslash]; exact hgood : [c] ++ v ∈ escapeText d)
      have hread := hread.mono (by omega : 1 ≤ 3) id
      refine Ensures.ite (fun hd => ?_) (fun hd => ?_)
      · refine hskip (hread.mono (le_refl 3) fun hgood => .name (.dropped ?_)) (by simp)
        rwa [← hd]
      · refine Ensures.bind (wctomb_spells fun z hcodes herrors hcode hunget => ?_)
        exact hmore _ (hread.spelled hcodes herrors hcode hunget
          fun hgood hcode => .name (.escape hgood hd hcode)) (by simp)
    refine Ensures.ite (fun hc => ?_) (fun hc => ?_)
    · refine hskip (w := [c]) ⟨hdrops, herrors, fun _ => ?_, by omega⟩ (by simp)
      rw [hc] at hq ⊢
      exact .lost (Ne.symm hq)
    · refine Ensures.bind (wctomb_spells fun x hcodes herrors' hcode hunget' => ?_)
      have hread : Reads s.codes s.errors.length 3 t [c] t.codes True :=
        ⟨hdrops, herrors, fun _ => trivial, by omega⟩
      refine hmore _ (hread.spelled hcodes herrors' hcode hunget'
        fun _ hgood => .name (.char ?_ hgood)) (by simp)
      exact decide_eq_true ⟨hq, hnewline, hslash⟩

theorem stringLoop_ensures (quote : ℤ) (fuel : ℕ) (str : Bytes)
    (hfuel : s.codes.length < fuel) (hfine : Fine throws s.codes)
    (hroom : s.fUngetc.length ≤ 3) :
    Ensures (stringLoop quote fuel str) s throws fun _ t =>
      ∃ v, Reads s.codes s.errors.length 3 t v t.codes (v ∈ stringEnd quote) :=
  (stringLoop_spells quote fuel str hfuel hfine hroom).mono fun _ _ ⟨v, _, _, hread⟩ =>
    ⟨v, hread.mono (le_refl 3) fun hgood => hgood.mem⟩

theorem skipSpaces_ensures (fuel : ℕ) (hfuel : s.codes.length < fuel) (hfine : Fine throws s.codes)
    (hroom : s.fUngetc.length ≤ 3) :
    Ensures (skipSpaces fuel) s throws fun c t =>
      (∃ v, Reads s.codes s.errors.length 2 t v (take c ++ t.codes) (v ∈ (oneOf isSpace)∗)) ∧
        isSpace c = false ∧ (c = eof → t.codes = []) := by
  induction fuel generalizing s with
  | zero => omega
  | succ fuel ih =>
    rw [skipSpaces]
    refine read_then hfine fun c t hgot hunget _ => ?_
    refine Ensures.ite (fun hspace => ?_) (fun hspace => Ensures.pure ?_)
    · have hc := isSpace_ne_eof hspace
      have hlength := hgot.length hc
      refine (ih (by omega) hgot.fine (by omega)).mono fun d u ⟨⟨v, hread⟩, hd⟩ =>
        ⟨⟨[c] ++ v, hread.after (hgot.drops_of_ne hc) hgot.errors fun _ hgood => ?_⟩, hd⟩
      exact cons_mem_kstar (mem_oneOf hspace) hgood
    · refine ⟨⟨[], hgot.drops, hgot.errors, fun _ => Language.nil_mem_kstar _, by omega⟩, ?_,
        hgot.stop⟩
      simpa using hspace

def urlStop (c : ℤ) : Language ℤ := if c = ')' then literal [')'] else oneOf isSpace

theorem urlChar_of_loop {c : ℤ} (hstop : ¬ (c = ')' ∨ isSpace c = true))
    (hwrong : ¬ (c = eof ∨ c = '"' ∨ c = '\'' ∨ c = '(' ∨ isNonPrintable c = true)) :
    urlChar c = true := by
  simp only [not_or, Bool.not_eq_true] at hstop hwrong
  simp only [urlChar, hstop.2, hwrong.2.2.2.2, Bool.not_false, Bool.and_eq_true, ne_eq,
    decide_eq_true_eq, Bool.true_and]
  exact ⟨⟨⟨⟨hstop.1, hwrong.2.1⟩, hwrong.2.2.1⟩, hwrong.2.2.2.1⟩, trivial⟩

/-- What ends a URL without quotes is read with it, and the characters before it are kept. -/
theorem urlLoop_spells (fuel : ℕ) (url : Bytes) (hfuel : s.codes.length < fuel)
    (hfine : Fine throws s.codes) (hroom : s.fUngetc.length ≤ 3) :
    Ensures (urlLoop fuel url) s throws fun p t => ∃ v out, p.2 = url ++ spell out ∧
      (∀ c ∈ out, c ∈ s.codes ∧ urlChar c = true) ∧
      Reads s.codes s.errors.length 3 t v t.codes (v ∈ (oneOf urlChar)∗ * urlStop p.1) := by
  induction fuel generalizing s url with
  | zero => omega
  | succ fuel ih =>
    have hstop : url = url ++ spell [] := by rw [spell_nil, List.append_nil]
    have hnone : ∀ c ∈ ([] : List ℤ), c ∈ s.codes ∧ urlChar c = true := fun c hc => by cases hc
    rw [urlLoop]
    refine read_then hfine fun c t hgot hunget herrors => ?_
    refine Ensures.ite (fun hend => Ensures.pure ?_) (fun hend => ?_)
    · have hc : c ≠ eof := by
        rintro rfl
        rcases hend with hend | hend
        · exact absurd hend (by decide)
        · exact absurd hend (by decide)
      refine ⟨[c], [], hstop, hnone, hgot.drops_of_ne hc, herrors, fun _ => ?_, by omega⟩
      refine Language.append_mem_mul (Language.nil_mem_kstar _) ?_
      unfold urlStop
      split_ifs with hparenthesis
      · have hc : c = ')' := hparenthesis
        rw [hc]
        exact mem_literal ')'
      · exact mem_oneOf (hend.resolve_left hparenthesis)
    refine Ensures.ite (fun hwrong => ?_) (fun hwrong => ?_)
    · exact Ensures.bind (report_reads hgot.drops herrors (by omega) fun u hread _ =>
        Ensures.pure ⟨take c, [], hstop, hnone, hread _⟩)
    · have hchar := urlChar_of_loop hend hwrong
      rw [not_or] at hwrong
      have hlength := hgot.length hwrong.1
      have hfine' := hgot.fine
      have hdrops := hgot.drops_of_ne hwrong.1
      have hmem : ∀ d, d ∈ [c] ∨ d ∈ t.codes → d ∈ s.codes := fun d hd =>
        hdrops.mem (List.mem_append.mpr hd)
      refine Ensures.bind (wctomb_spells fun u hcodes herrors' _ hunget' => ?_)
      rw [← hcodes] at hlength hfine' hdrops hmem
      refine (ih (url ++ spell [c]) (by omega) hfine' (by omega)).mono
        fun p x ⟨v, out, hurl, hout, hread⟩ => ⟨[c] ++ v, [c] ++ out, ?_, fun d hd => ?_,
          hread.after hdrops (by omega) fun _ hgood => ?_⟩
      · rw [hurl, List.append_assoc, spell_append]
      · rcases List.mem_append.mp hd with hd | hd
        · exact ⟨hmem d (Or.inl hd), by rwa [List.mem_singleton.mp hd]⟩
        · exact ⟨hmem d (Or.inr (hout d hd).1), (hout d hd).2⟩
      · obtain ⟨a, ha, b, hb, rfl⟩ := Language.mem_mul.mp hgood
        rw [← List.append_assoc]
        exact Language.append_mem_mul (cons_mem_kstar (mem_oneOf hchar) ha) hb

theorem urlLoop_ensures (fuel : ℕ) (url : Bytes) (hfuel : s.codes.length < fuel)
    (hfine : Fine throws s.codes) (hroom : s.fUngetc.length ≤ 3) :
    Ensures (urlLoop fuel url) s throws fun p t =>
      ∃ v, Reads s.codes s.errors.length 3 t v t.codes (v ∈ (oneOf urlChar)∗ * urlStop p.1) :=
  (urlLoop_spells fuel url hfuel hfine hroom).mono fun _ _ ⟨v, _, _, _, hread⟩ => ⟨v, hread⟩

theorem closeUrl_ensures (fuel : ℕ) (hfuel : s.codes.length < fuel) (hfine : Fine throws s.codes)
    (hroom : s.fUngetc.length ≤ 3) :
    Ensures (closeUrl fuel) s throws fun _ t =>
      ∃ v, Reads s.codes s.errors.length 3 t v t.codes (v ∈ (oneOf isSpace)∗ * literal [')']) := by
  induction fuel generalizing s with
  | zero => omega
  | succ fuel ih =>
    rw [closeUrl]
    refine read_then hfine fun c t hgot hunget herrors => ?_
    refine Ensures.ite (fun hstop => Ensures.pure ?_) (fun hstop => ?_)
    · have hc : c ≠ eof := by
        rw [hstop]
        decide
      refine ⟨[c], hgot.drops_of_ne hc, herrors, fun _ => ?_, by omega⟩
      rw [hstop]
      exact Language.append_mem_mul (Language.nil_mem_kstar _) (mem_literal ')')
    refine Ensures.ite (fun hspace => ?_) (fun hspace => ?_)
    · have hc := isSpace_ne_eof hspace
      have hlength := hgot.length hc
      refine (ih (by omega) hgot.fine (by omega)).mono fun _ u ⟨v, hread⟩ =>
        ⟨[c] ++ v, hread.after (hgot.drops_of_ne hc) herrors fun _ hgood => ?_⟩
      obtain ⟨a, ha, b, hb, rfl⟩ := Language.mem_mul.mp hgood
      rw [← List.append_assoc]
      exact Language.append_mem_mul (cons_mem_kstar (mem_oneOf hspace) ha) hb
    · exact report_reads hgot.drops herrors (by omega) fun u hread _ => ⟨take c, hread _⟩

theorem urlArgument_ensures (fuel : ℕ) (hfuel : s.codes.length < fuel) (hfine : Fine throws s.codes)
    (hroom : s.fUngetc.length ≤ 3) :
    Ensures (urlArgument fuel) s throws fun tok t =>
      tok.fType = .url ∧ ∃ v, Reads s.codes s.errors.length 3 t v t.codes (v ∈ urlRest) := by
  rw [urlArgument]
  refine Ensures.bind ((skipSpaces_ensures fuel hfuel hfine hroom).mono
    fun c t ⟨⟨spaces, hread⟩, hspace, hstop⟩ => ?_)
  have hroom' := hread.room
  have hshort := hread.drops.length_le
  have hdrops := hread.drops
  rw [← List.append_assoc] at hdrops
  simp only [List.length_append] at hshort
  have hfine' := hfine.right hdrops
  -- The text of the argument is followed by spaces and the parenthesis.
  have hclose : ∀ {u : Lexer} {w : List ℤ} {url : Bytes}, Reads t.codes t.errors.length 3 u w
      u.codes (take c ++ w ∈ stringText '"' + stringText '\'' + bareUrl) →
      Ensures (do closeUrl fuel; pure (urlToken url)) u throws fun tok x => tok.fType = .url ∧
        ∃ v, Reads s.codes s.errors.length 3 x v x.codes (v ∈ urlRest) := by
    intro u w url hmore
    have hlength := hmore.drops.length_le
    rw [List.length_append] at hlength
    refine Ensures.bind ((closeUrl_ensures fuel (by omega) (hfine'.right hmore.drops)
      hmore.room).mono fun _ x ⟨v, hlast⟩ => Ensures.pure ⟨rfl, ?_⟩)
    have hall := hmore.after hdrops hread.errors fun _ hgood => hgood
    refine ⟨_, hlast.after hall.drops hall.errors fun heq hgood => ?_⟩
    have herrors := hmore.errors
    have herrors' := hread.errors
    have hspaces := hread.good (by omega)
    rw [List.append_assoc spaces]
    exact Language.append_mem_mul (Language.append_mem_mul hspaces (hall.good heq)) hgood
  refine Ensures.ite (fun hquote => ?_) (fun hquote => ?_)
  · rw [string]
    have hc : take c = [c] := take_of_ne (by rcases hquote with rfl | rfl <;> decide)
    refine Ensures.bind ((stringLoop_ensures c fuel [] (by omega) hfine' (by omega)).mono
      fun str u ⟨w, hmore⟩ => hclose (hmore.mono (le_refl 3) fun hgood => ?_))
    rw [hc]
    rcases hquote with rfl | rfl
    · exact Or.inl (Or.inl (Language.append_mem_mul rfl hgood))
    · exact Or.inl (Or.inr (Language.append_mem_mul rfl hgood))
  · refine Ensures.bind (wctomb_ensures fun mb u hcodes herrors hunget => ?_)
    have hfine'' := hfine'
    rw [← hcodes] at hfine''
    refine Ensures.bind ((urlLoop_ensures fuel mb (by rw [hcodes]; omega) hfine'' (by omega)).mono
      fun ⟨d, url⟩ x ⟨w, hmore⟩ => ?_)
    rw [hcodes] at hmore
    have hmore : Reads t.codes t.errors.length 3 x w x.codes (w ∈ (oneOf urlChar)∗ * urlStop d) :=
      ⟨hmore.drops, herrors.trans hmore.errors, fun heq => hmore.good (by
        have := hmore.errors
        omega), hmore.room⟩
    have hlength := hmore.drops.length_le
    rw [List.length_append] at hlength
    -- A character was there, since the text after it is not empty.
    have hfirst : ∀ a b : List ℤ, a ∈ (oneOf urlChar)∗ → a ++ b = w → b ≠ [] →
        take c ++ a ∈ stringText '"' + stringText '\'' + bareUrl := by
      intro a b ha hw hb
      have hc : c ≠ eof := by
        intro hc
        rw [hstop hc, ← hw, List.length_append, List.length_nil] at hlength
        have hpos := List.length_pos_iff.mpr hb
        omega
      rw [not_or] at hquote
      rw [take_of_ne hc]
      refine Or.inr (Language.append_mem_mul (mem_oneOf ?_) ha)
      simp only [hspace, Bool.not_false, Bool.true_and, Bool.and_eq_true, decide_eq_true_eq]
      exact hquote
    refine Ensures.ite (fun hd => Ensures.pure ⟨rfl, ?_⟩) (fun hd => ?_)
    · refine ⟨_, hmore.after hdrops hread.errors fun heq hgood => ?_⟩
      obtain ⟨a, ha, b, hb, rfl⟩ := Language.mem_mul.mp hgood
      rw [urlStop, if_pos hd] at hb
      have hbare := hfirst a b ha rfl (by rw [hb]; simp [List.map])
      have hall := Language.append_mem_mul (Language.append_mem_mul (hread.good heq)
        hbare) (Language.append_mem_mul (Language.nil_mem_kstar (oneOf isSpace)) hb)
      simp only [List.nil_append, List.append_assoc] at hall ⊢
      exact hall
    · refine Ensures.bind ((closeUrl_ensures fuel (by omega) (hfine'.right hmore.drops)
        hmore.room).mono fun _ y ⟨v, hlast⟩ => Ensures.pure ⟨rfl, ?_⟩)
      have hall := hmore.after hdrops hread.errors fun _ hgood => hgood
      refine ⟨_, hlast.after hall.drops hall.errors fun heq hgood => ?_⟩
      have herrors := hmore.errors
      have herrors' := hread.errors
      obtain ⟨a, ha, b, hb, rfl⟩ := Language.mem_mul.mp (hall.good heq)
      rw [urlStop, if_neg hd] at hb
      obtain ⟨x, hx, rfl⟩ := hb
      have hbare := hfirst a [x] ha rfl (by simp)
      obtain ⟨m, hm, n, hn, rfl⟩ := Language.mem_mul.mp hgood
      have hend := Language.append_mem_mul (cons_mem_kstar (mem_oneOf hx) hm) hn
      have htext := Language.append_mem_mul (Language.append_mem_mul (hread.good (by omega))
        hbare) hend
      simp only [List.append_assoc] at htext ⊢
      exact htext

def restText (type : NodeType) (t : NodeType) : Language ℤ :=
  {w | t = type ∧ w ∈ namePiece∗ ∨ type ≠ .atKeyword ∧
    (t = .function ∧ w ∈ namePiece∗ * literal ['('] ∨
      t = .url ∧ w ∈ namePiece∗ * literal ['('] * urlRest)}

theorem identifierRest_ensures (fuel : ℕ) (type : NodeType) (name : Name)
    (hfuel : s.codes.length < fuel) (hfine : Fine throws s.codes) (hroom : s.fUngetc.length ≤ 3) :
    Ensures (identifierRest fuel type name) s throws fun tok t =>
      ∃ v, Reads s.codes s.errors.length 3 t v t.codes (v ∈ restText type tok.fType) := by
  rw [identifierRest]
  refine Ensures.bind ((identifierLoop_ensures fuel name hfuel hfine hroom).mono
    fun p t hloop => ?_)
  obtain ⟨c, name⟩ := p
  obtain ⟨v, hread⟩ := hloop
  have hroom' := hread.room
  have herrors := hread.errors
  have hshort := hread.drops.length_le
  simp only [List.length_append] at hshort
  have hdrops : Drops s.codes (v ++ hand c ++ t.codes) := by
    rw [List.append_assoc]
    exact hread.drops
  have hback : ∀ {u : Lexer}, u.codes = hand c ++ t.codes → Drops s.codes (v ++ u.codes) := by
    intro u hu
    rw [hu]
    exact hread.drops
  have hfinec := (hfine.right hread.drops).left (Drops.refl _)
  refine Ensures.ite (fun _ => ?_) (fun _ => ?_)
  · refine Ensures.bind (ungetc_ensures hfinec (by rw [ungetSize]; omega)
      fun u hcodes herrors' hunget' => ?_)
    exact Ensures.bind (report_reads (hback hcodes) (by omega) (by omega) fun x hread _ =>
      Ensures.pure ⟨v, hread _⟩)
  refine Ensures.ite (fun hparenthesis => ?_) (fun _ => ?_)
  · have hc : hand c = [c] := hand_of_ne (by rw [hparenthesis.1]; decide)
      (by rw [hparenthesis.1]; decide)
    rw [hc] at hdrops
    have hcall : ∀ _ : v ∈ namePiece∗, v ++ [c] ∈ namePiece∗ * literal ['('] := fun hv => by
      rw [hparenthesis.1]
      exact Language.append_mem_mul hv (mem_literal '(')
    refine Ensures.ite (fun _ => ?_) (fun _ => Ensures.pure ?_)
    · refine (urlArgument_ensures fuel (by omega) (hfine.right hdrops) (by omega)).mono
        fun tok u hurl => ?_
      obtain ⟨htype, w, hmore⟩ := hurl
      refine ⟨_, hmore.after hdrops herrors fun heq hgood =>
        Or.inr ⟨hparenthesis.2, Or.inr ⟨htype, ?_⟩⟩⟩
      exact Language.append_mem_mul (hcall (hread.good heq)) hgood
    · exact ⟨v ++ [c], hdrops, herrors, fun heq =>
        Or.inr ⟨hparenthesis.2, Or.inl ⟨rfl, hcall (hread.good heq)⟩⟩, by omega⟩
  · refine Ensures.bind (ungetc_ensures hfinec (by rw [ungetSize]; omega)
      fun u hcodes herrors' hunget' => Ensures.pure ?_)
    refine ⟨v, hback hcodes, by omega, fun heq => Or.inl ⟨rfl, hread.good (by omega)⟩, by omega⟩

def startPiece : Language ℤ := oneOf isStartIdentifier + anyEscape

theorem isStartIdentifier_ne_eof {c : ℤ} (h : isStartIdentifier c = true) : c ≠ eof := by
  rintro rfl
  exact absurd h (by decide)

/-- The character `c` is read already. -/
theorem identifierStart_ensures (fuel : ℕ) (type : NodeType) (name : Name) (c : ℤ)
    (hfuel : s.codes.length < fuel) (hfine : Fine throws (take c ++ s.codes))
    (hroom : s.fUngetc.length ≤ 2)
    (hstart : c = '\\' ∨ isStartIdentifier c = true ∨ type = .atKeyword ∨ throws .identifierStart) :
    Ensures (identifierStart fuel type name c) s throws fun tok t =>
      ∃ v, Reads (take c ++ s.codes) s.errors.length 3 t v t.codes
        (v ∈ startPiece * restText type tok.fType) ∧ (type ≠ .atKeyword → v ≠ []) := by
  have hfine' : Fine throws s.codes := hfine.right (Drops.refl _)
  rw [identifierStart]
  refine Ensures.ite (fun hslash => ?_) (fun hslash => ?_)
  · have hc : take c = [c] := take_of_ne (by rw [hslash]; decide)
    rw [hc] at hfine ⊢
    refine Ensures.bind ((escape_ensures hfine' (by omega)).mono fun d t ⟨v, hread⟩ => ?_)
    have hshort := hread.drops.length_le
    rw [List.length_append] at hshort
    have hroom' := hread.room
    have hread := hread.after (w := [c]) (Drops.refl _) (le_refl _) fun _ hgood =>
      (Or.inr ⟨d, by rw [hslash]; exact hgood⟩ : [c] ++ v ∈ startPiece)
    have hmore : ∀ {u : Lexer} (name : Name), u.codes = t.codes →
        t.errors.length ≤ u.errors.length → u.fUngetc.length = t.fUngetc.length →
        Ensures (identifierRest fuel type name) u throws fun tok x =>
          ∃ v, Reads ([c] ++ s.codes) s.errors.length 3 x v x.codes
            (v ∈ startPiece * restText type tok.fType) ∧ (type ≠ .atKeyword → v ≠ []) := by
      intro u name hcodes herrors hunget
      have hread' := hread.wctomb hcodes herrors hunget
      refine (identifierRest_ensures fuel type name (by rw [hcodes]; omega)
        (hfine.right hread'.drops) (by omega)).mono fun tok x ⟨w, hlast⟩ => ?_
      exact ⟨_, hlast.after hread'.drops hread'.errors fun heq hgood =>
        Language.append_mem_mul (hread'.good heq) hgood, fun _ => by simp⟩
    refine Ensures.ite (fun _ => ?_) (fun _ => ?_)
    · exact hmore name rfl (le_refl _) rfl
    · refine Ensures.bind (Name.add_ensures fun name' u hcodes herrors hunget => ?_)
      exact hmore name' hcodes herrors hunget
  refine Ensures.ite (fun hident => ?_) (fun hident => ?_)
  · rw [take_of_ne (isStartIdentifier_ne_eof hident)] at hfine ⊢
    refine Ensures.bind (Name.add_ensures fun name' u hcodes herrors hunget => ?_)
    refine (identifierRest_ensures fuel type name' (by rw [hcodes]; exact hfuel)
      (by rw [hcodes]; exact hfine') (by omega)).mono fun tok x ⟨w, hlast⟩ => ?_
    refine ⟨[c] ++ w, hlast.after (by rw [hcodes]; exact Drops.refl _) herrors fun _ hgood => ?_,
      fun _ => by simp⟩
    exact Language.append_mem_mul (Or.inl (mem_oneOf hident)) hgood
  refine Ensures.ite (fun htype => ?_) (fun htype => ?_)
  · have hfinec : Fine throws (take c) := hfine.left (Drops.refl _)
    refine Ensures.bind (ungetc_ensures hfinec.hand (by rw [ungetSize]; omega)
      fun u hcodes herrors hunget => ?_)
    have hback : Drops (take c ++ s.codes) u.codes := by
      rw [hcodes]
      exact drops_hand c _
    exact Ensures.bind (report_reads hback (by omega) (by omega) fun x hread _ =>
      Ensures.pure ⟨[], hread _, fun h => absurd htype h⟩)
  · refine Ensures.throw ?_
    rcases hstart with h | h | h | h
    · exact absurd h hslash
    · exact absurd h hident
    · exact absurd h htype
    · exact h

def markedText (type t : NodeType) : Language ℤ :=
  maybe (literal ['-']) * (startPiece * restText type t)

theorem identifierDash_ensures (fuel : ℕ) (type : NodeType) (c : ℤ)
    (hfuel : s.codes.length < fuel) (hfine : Fine throws (take c ++ s.codes))
    (hroom : s.fUngetc.length ≤ 3) (hroom' : c ≠ '-' → s.fUngetc.length ≤ 2)
    (hstart : c ≠ '-' → c = '\\' ∨ isStartIdentifier c = true ∨ type = .atKeyword)
    (hdash : c = '-' → type = .atKeyword ∨ throws .identifierStart ∨
      ∃ d r, s.codes = d :: r ∧ (d = '\\' ∨ isStartIdentifier d = true)) :
    Ensures (identifierDash fuel type c) s throws fun tok t =>
      ∃ v, Reads (take c ++ s.codes) s.errors.length 3 t v t.codes
        (v ∈ markedText type tok.fType) ∧ (type ≠ .atKeyword → v ≠ []) := by
  have hfine' : Fine throws s.codes := hfine.right (Drops.refl _)
  rw [identifierDash]
  refine Ensures.ite (fun hc => ?_) (fun hc => ?_)
  · refine read_then hfine' fun d t hgot hunget _ => ?_
    have hshort := hgot.drops.length_le
    rw [List.length_append] at hshort
    have hnext : d = '\\' ∨ isStartIdentifier d = true ∨ type = .atKeyword ∨
        throws .identifierStart := by
      rcases hdash hc with h | h | ⟨d', r, hcodes, h⟩
      · exact Or.inr (Or.inr (Or.inl h))
      · exact Or.inr (Or.inr (Or.inr h))
      · by_cases hd : d = eof
        · have hnil := hgot.codes
          rw [hd, take_eof, hgot.stop hd, hcodes] at hnil
          cases hnil
        · have hcons := hgot.codes
          rw [take_of_ne hd, hcodes] at hcons
          obtain ⟨rfl, -⟩ := List.cons.inj hcons
          rcases h with h | h
          · exact Or.inl h
          · exact Or.inr (Or.inl h)
    have hfined : Fine throws (take d ++ t.codes) := by
      rw [← hgot.codes]
      exact hfine'
    refine (identifierStart_ensures fuel type ⟨[45], [45]⟩ d (by omega) hfined (by omega)
      hnext).mono fun tok u ⟨v, hread, hne⟩ => ⟨take c ++ v, hread.after ?_ hgot.errors
        fun _ hgood => Language.append_mem_mul ?_ hgood, fun htype hnil => ?_⟩
    · rw [hgot.codes]
      exact Drops.refl _
    · rw [take_of_ne (by rw [hc]; decide), hc]
      exact mem_maybe (mem_literal '-')
    · exact hne htype (List.append_eq_nil_iff.mp hnil).2
  · refine (identifierStart_ensures fuel type ⟨[], []⟩ c hfuel hfine (hroom' hc) ?_).mono
      fun tok u ⟨v, hread, hne⟩ => ⟨v, hread.mono (le_refl 3) fun hgood => ?_, hne⟩
    · rcases hstart hc with h | h | h
      · exact Or.inl h
      · exact Or.inr (Or.inl h)
      · exact Or.inr (Or.inr (Or.inl h))
    · exact List.nil_append v ▸ Language.append_mem_mul (nil_mem_maybe _) hgood

theorem markedText_cases {type t : NodeType} {w : List ℤ} (h : w ∈ markedText type t) :
    t = type ∧ w ∈ nameText ∨ type ≠ .atKeyword ∧
      (t = .function ∧ w ∈ nameText * literal ['('] ∨
        t = .url ∧ w ∈ nameText * literal ['('] * urlRest) := by
  obtain ⟨dash, hdash, more, hmore, rfl⟩ := Language.mem_mul.mp h
  obtain ⟨first, hfirst, rest, hrest, rfl⟩ := Language.mem_mul.mp hmore
  have hname : ∀ v ∈ namePiece∗, dash ++ first ++ v ∈ nameText := fun v hv =>
    Language.append_mem_mul (Language.append_mem_mul hdash hfirst) hv
  rcases hrest with ⟨ht, hv⟩ | ⟨htype, ⟨ht, hv⟩ | ⟨ht, hv⟩⟩
  · refine Or.inl ⟨ht, ?_⟩
    rw [← List.append_assoc]
    exact hname _ hv
  · refine Or.inr ⟨htype, Or.inl ⟨ht, ?_⟩⟩
    obtain ⟨v, hpieces, last, hlast, rfl⟩ := Language.mem_mul.mp hv
    rw [← List.append_assoc, ← List.append_assoc]
    exact Language.append_mem_mul (hname v hpieces) hlast
  · refine Or.inr ⟨htype, Or.inr ⟨ht, ?_⟩⟩
    obtain ⟨call, hcall, last, hlast, rfl⟩ := Language.mem_mul.mp hv
    obtain ⟨v, hpieces, mark, hmark, rfl⟩ := Language.mem_mul.mp hcall
    rw [← List.append_assoc, ← List.append_assoc, ← List.append_assoc]
    exact Language.append_mem_mul (Language.append_mem_mul (hname v hpieces) hmark) hlast

theorem mem_lexeme {percent w : List ℤ} {type t : NodeType} (h : w ∈ markedText type t)
    (hpercent : percent ∈ maybe (literal ['%'])) (htype : type ≠ .atKeyword)
    (hname : w ∈ nameText → percent ++ w ∈ lexeme type) : percent ++ w ∈ lexeme t := by
  rcases markedText_cases h with ⟨rfl, hw⟩ | ⟨-, ⟨rfl, hw⟩ | ⟨rfl, hw⟩⟩
  · exact hname hw
  · obtain ⟨v, hv, mark, hmark, rfl⟩ := Language.mem_mul.mp hw
    rw [← List.append_assoc]
    exact Language.append_mem_mul (Language.append_mem_mul hpercent hv) hmark
  · obtain ⟨call, hcall, last, hlast, rfl⟩ := Language.mem_mul.mp hw
    obtain ⟨v, hv, mark, hmark, rfl⟩ := Language.mem_mul.mp hcall
    rw [← List.append_assoc, ← List.append_assoc]
    exact Language.append_mem_mul
      (Language.append_mem_mul (Language.append_mem_mul hpercent hv) hmark) hlast

/-- The characters that a name may start with, or that announce one. -/
structure Starts (throws : Throw → Prop) (s : Lexer) (c : ℤ) : Prop where
  first : c = '%' ∨ c = '@' ∨ c = '-' ∨ c = '\\' ∨ isStartIdentifier c = true
  placeholder : c = '%' → ∃ n r, s.codes = n :: r ∧ isStartIdentifier n = true
  dash : c = '-' → throws .identifierStart ∨
    ∃ d r, s.codes = d :: r ∧ (d = '\\' ∨ isStartIdentifier d = true)

theorem not_isStartIdentifier_dash : isStartIdentifier ('-' : ℤ) = false := by decide

theorem identifier_ensures (fuel : ℕ) (c : ℤ) (hfuel : s.codes.length < fuel)
    (hfine : Fine throws (take c ++ s.codes)) (hroom : s.fUngetc.length ≤ 3)
    (hroom' : c ≠ '-' → c ≠ '%' → s.fUngetc.length ≤ 2) (hstarts : Starts throws s c) :
    Ensures (identifier fuel c) s throws fun tok t =>
      ∃ v, Reads (take c ++ s.codes) s.errors.length 3 t v t.codes (v ∈ lexeme tok.fType) ∧
        v ≠ [] := by
  have hfine' : Fine throws s.codes := hfine.right (Drops.refl _)
  rw [identifier]
  refine Ensures.ite (fun hc => ?_) (fun hpercent => ?_)
  · obtain ⟨n, r, hcodes, hn⟩ := hstarts.placeholder hc
    refine read_then hfine' fun d t hgot hunget _ => ?_
    have hd : d = n := by
      by_cases hd : d = eof
      · have hnil := hgot.codes
        rw [hd, take_eof, hgot.stop hd, hcodes] at hnil
        cases hnil
      · have hcons := hgot.codes
        rw [take_of_ne hd, hcodes] at hcons
        exact (List.cons.inj hcons).1.symm
    have hdash : d ≠ '-' := by
      rintro rfl
      rw [← hd, not_isStartIdentifier_dash] at hn
      cases hn
    have hshort := hgot.drops.length_le
    rw [List.length_append] at hshort
    refine (identifierDash_ensures fuel .placeholder d (by omega)
      (by rw [← hgot.codes]; exact hfine')
      (by omega) (fun _ => by omega) (fun _ => Or.inr (Or.inl (hd ▸ hn)))
      (fun h => absurd h hdash)).mono fun tok u ⟨v, hread, hne⟩ =>
        ⟨take c ++ v, hread.after (by rw [hgot.codes]; exact Drops.refl _) hgot.errors
          fun _ hgood => ?_, fun hnil => hne (by decide) (List.append_eq_nil_iff.mp hnil).2⟩
    rw [take_of_ne (by rw [hc]; decide), hc]
    exact mem_lexeme hgood (mem_maybe (mem_literal '%')) (by decide)
      (Language.append_mem_mul (mem_literal '%'))
  refine Ensures.ite (fun hc => ?_) (fun hat => ?_)
  · refine read_then hfine' fun d t hgot hunget _ => ?_
    have hroom₂ := hroom' (by rw [hc]; decide) hpercent
    have hshort := hgot.drops.length_le
    rw [List.length_append] at hshort
    refine (identifierDash_ensures fuel .atKeyword d (by omega) (by rw [← hgot.codes]; exact hfine')
      (by omega) (fun _ => by omega) (fun _ => Or.inr (Or.inr rfl)) (fun _ => Or.inl rfl)).mono
        fun tok u ⟨v, hread, _⟩ =>
          ⟨take c ++ v, hread.after (by rw [hgot.codes]; exact Drops.refl _) hgot.errors
            fun _ hgood => ?_, by rw [take_of_ne (by rw [hc]; decide)]; simp⟩
    rw [take_of_ne (by rw [hc]; decide), hc]
    rcases markedText_cases hgood with ⟨ht, hv⟩ | ⟨h, -⟩
    · rw [ht]
      exact Language.append_mem_mul (mem_literal '@') hv
    · exact absurd rfl h
  · refine (identifierDash_ensures fuel .identifier c hfuel hfine hroom
      (fun h => hroom' h hpercent) (fun h => ?_) (fun h => Or.inr (hstarts.dash h))).mono
        fun tok t ⟨v, hread, hne⟩ =>
          ⟨v, hread.mono (le_refl 3) fun hgood => ?_, hne (by decide)⟩
    · rcases hstarts.first with h' | h' | h' | h' | h'
      · exact absurd h' hpercent
      · exact absurd h' hat
      · exact absurd h' h
      · exact Or.inl h'
      · exact Or.inr (Or.inl h')
    · exact mem_lexeme hgood (nil_mem_maybe _) (by decide) id

end SnapCpp.Css
