import SnapCpp.CssPrintedHashes

/-!
Strings and URLs that are printed and read again. A string is written between quotes, of which only
those in the string are escaped: a backslash or the end of a line in it is not read as it was
written. A URL is written as it is where no character is against it, spaces not being looked at.
-/
namespace SnapCpp.Css

variable {throws : Throw → Prop} {s t : Lexer} {room fuel : ℕ} {c quote : ℤ}
  {l m v w r out cs tail : List ℤ} {str : Bytes}

def IsQuote (quote : ℤ) : Prop := quote = '"' ∨ quote = '\''

def StringSurvives (cs : List ℤ) : Prop := ∀ c ∈ cs, c ≠ '\\' ∧ ¬ IsLine c

theorem IsQuote.isStop (h : IsQuote quote) : IsStop quote := by
  rcases h with rfl | rfl <;> exact ⟨by decide, by decide, by decide⟩

theorem IsQuote.not_line (h : IsQuote quote) : ¬ IsLine quote := by
  rcases h with rfl | rfl <;> decide

theorem IsQuote.ne_eof (h : IsQuote quote) : quote ≠ eof := by
  rcases h with rfl | rfl <;> decide

theorem IsQuote.ne_newline (h : IsQuote quote) : quote ≠ '\n' := by
  rcases h with rfl | rfl <;> decide

theorem IsQuote.range (h : IsQuote quote) : 0 < quote ∧ quote ≤ 0x10FFFF := by
  rcases h with rfl | rfl <;> decide

theorem IsQuote.isCode (h : IsQuote quote) : IsCode quote := by
  rcases h with rfl | rfl <;> decide

theorem quoted_cons (quote c : ℤ) (cs : List ℤ) :
    quoted quote (c :: cs) = (if c = quote then [('\\' : ℤ), quote] else [c]) ++ quoted quote cs :=
  rfl

theorem mem_quoted (h : c ∈ quoted quote cs) : c ∈ cs ∨ c = '\\' := by
  obtain ⟨d, hd, hc⟩ := List.mem_flatMap.mp h
  split_ifs at hc with heq
  · rcases List.mem_cons.mp hc with rfl | hc
    · exact Or.inr rfl
    · rw [List.mem_singleton.mp hc, ← heq]
      exact Or.inl hd
  · rw [List.mem_singleton.mp hc]
    exact Or.inl hd

theorem plain_quoted (h : Plain cs) : Plain (quoted quote cs) := by
  intro c hc
  rcases mem_quoted hc with hc | rfl
  · exact h c hc
  · exact ⟨by decide, by decide⟩

theorem countP_quoted (h : IsQuote quote) (cs : List ℤ) :
    (quoted quote cs).countP (asRead · ≠ quote) = cs.length := by
  have hslash : asRead '\\' ≠ quote := by
    rw [asRead_of_not_line (by decide)]
    exact h.isStop.notSlash.symm
  have hquote : asRead quote = quote := asRead_of_not_line h.not_line
  induction cs with
  | nil => rfl
  | cons c cs ih =>
    rw [quoted_cons, List.countP_append, ih, List.length_cons]
    split_ifs with hc
    · rw [List.countP_cons_of_pos (by simpa using hslash),
        List.countP_cons_of_neg (by simpa using hquote), List.countP_nil]
      omega
    · rw [List.countP_cons_of_pos (by simpa [asRead_eq_iff h.not_line] using hc), List.countP_nil]
      omega

/-- A character that is not part of the end of a line keeps apart what is around it. -/
theorem normalise_append_cons (h : ¬ IsLine c) (l m : List ℤ) :
    normalise (l ++ c :: m) = normalise l ++ c :: normalise m := by
  have hc := h
  rw [isLine_iff, not_or] at hc
  induction hlength : l.length using Nat.strong_induction_on generalizing l with
  | _ n ih =>
    cases l with
    | nil => rw [List.nil_append, normalise_cons h, normalise, List.nil_append]
    | cons d l =>
      rw [List.length_cons] at hlength
      have htail := List.length_tail (l := l)
      have hhead : (l ++ c :: m).head? = some ('\n' : ℤ) ↔ l.head? = some ('\n' : ℤ) := by
        cases l with
        | nil => simpa using hc.1
        | cons e l => rfl
      rw [List.cons_append, normalise, normalise, List.cons_append]
      by_cases hjoin : d = '\r' ∧ l.head? = some ('\n' : ℤ)
      · rw [if_pos hjoin, if_pos ⟨hjoin.1, hhead.mpr hjoin.2⟩]
        obtain ⟨l', rfl⟩ := List.head?_eq_some_iff.mp hjoin.2
        rw [List.length_cons] at hlength
        exact congrArg (List.cons (asRead d)) (ih _ (by omega) l' rfl)
      · rw [if_neg hjoin, if_neg fun hboth => hjoin ⟨hboth.1, hhead.mp hboth.2⟩]
        exact congrArg (List.cons (asRead d)) (ih _ (by omega) l rfl)

theorem normalise_append (h : ∀ c ∈ l, ¬ IsLine c) (m : List ℤ) :
    normalise (l ++ m) = l ++ normalise m := by
  induction l with
  | nil => rfl
  | cons c l ih =>
    rw [List.cons_append, normalise_cons (h c List.mem_cons_self),
      ih (List.forall_mem_cons.mp h).2, List.cons_append]

theorem asRead_ne (c : ℤ) : asRead c ≠ '\r' ∧ asRead c ≠ 12 := by
  rw [asRead]
  split_ifs with h
  · exact ⟨by decide, by decide⟩
  · exact not_or.mp h

theorem stringLoop_ahead (fuel : ℕ) (str : Bytes) (hplain : Plain cs) (hquote : IsQuote quote)
    (hgood : StringSurvives cs) (hlost : replacement ∉ cs)
    (h : Ahead s room (quoted quote cs ++ quote :: tail)) (hroom : room < ungetSize)
    (hfuel : (quoted quote cs ++ quote :: tail).length < fuel) :
    Ensures (stringLoop quote fuel str) s throws fun str' t =>
      str' = str ++ spell cs ∧ Ahead t room tail := by
  induction fuel generalizing s cs str with
  | zero => omega
  | succ fuel ih =>
    rw [stringLoop]
    cases cs with
    | nil =>
      rw [quoted, List.flatMap_nil, List.nil_append] at h
      refine Ensures.bind (h.getc fun t ht => ?_)
      rw [if_neg hquote.ne_eof, if_neg hquote.ne_newline, if_pos rfl]
      refine Ensures.pure ⟨?_, ht.less⟩
      rw [spell_nil, List.append_nil]
    | cons c cs =>
      have hsurvives := hgood c List.mem_cons_self
      have hne : c ≠ replacement := fun heq => hlost (heq ▸ List.mem_cons_self)
      have hpos := hplain.pos c List.mem_cons_self
      have hnewline : c ≠ '\n' := fun heq => hsurvives.2 ((isLine_iff c).mpr (Or.inl heq))
      have hmore : ∀ t, Ahead t room (quoted quote cs ++ quote :: tail) →
          (quoted quote cs ++ quote :: tail).length < fuel →
          Ensures (do let mb ← wctomb c; stringLoop quote fuel (str ++ mb)) t throws
            fun str' t => str' = str ++ spell (c :: cs) ∧ Ahead t room tail := by
        intro t ht hlength
        refine Ensures.bind (ht.wctomb (hplain c List.mem_cons_self).1 fun ht => ?_)
        refine (ih (str ++ spell [c]) hplain.tail (List.forall_mem_cons.mp hgood).2
          (fun hmem => hlost (List.mem_cons_of_mem c hmem)) ht hlength).mono
            fun str' u hread => ⟨?_, hread.2⟩
        rw [hread.1, List.append_assoc, ← spell_append, List.singleton_append]
      rw [quoted_cons] at h hfuel
      by_cases hc : c = quote
      · subst hc
        rw [if_pos rfl, List.append_assoc, List.cons_append, List.singleton_append] at h hfuel
        rw [List.length_cons, List.length_cons] at hfuel
        refine Ensures.bind (h.getc fun t ht => ?_)
        rw [if_neg (by decide), if_neg (by decide), if_neg hsurvives.1.symm, if_pos rfl]
        refine Ensures.bind (ht.getc fun u hu => ?_)
        rw [if_neg hnewline, if_neg hquote.ne_eof, if_neg hne]
        have hroom' : Ahead u room _ := hu.mono (by omega)
        refine Ensures.bind (hroom'.ungetc hpos hquote.range.2 hne hroom fun x hx => ?_)
        refine Ensures.bind (hx.escape hquote.isStop.notHex hnewline hne fun y hy => ?_)
        rw [if_neg hne]
        exact hmore y hy (by omega)
      · rw [if_neg hc, List.singleton_append, List.cons_append] at h hfuel
        rw [List.length_cons] at hfuel
        refine Ensures.bind (h.getc fun t ht => ?_)
        rw [if_neg (ne_eof_of_pos hpos), if_neg hnewline, if_neg hc, if_neg hsurvives.1,
          if_neg hne]
        exact hmore t ht.less (by omega)

theorem StringPiece.isCode (h : StringPiece quote w out) : ∀ c ∈ out, IsCode c := by
  cases h with
  | name h => exact h.isCode
  | line =>
    intro c hc
    rw [List.mem_singleton.mp hc]
    exact congrArg Prod.snd encoding_newline
  | lost _ => simp

/-- What is read as it was written is among the characters. -/
theorem Spelled.mem_of_exact {raw : ℤ → Bool} {x : ℤ} (h : Spelled (Exact raw x) v out) :
    ∀ c ∈ out, c ∈ v := by
  induction h with
  | nil => simp
  | cons hfirst _ ih =>
    intro c hc
    rcases List.mem_append.mp hc with hc | hc
    · refine List.mem_append_left _ ?_
      rcases hfirst with ⟨d, -, rfl, rfl⟩ | ⟨rfl, rfl⟩
      · exact hc
      · exact List.mem_cons_of_mem _ hc
    · exact List.mem_append_right _ (ih c hc)

theorem prefix_of_last {x : ℤ} (h : w ++ x :: r = l ++ x :: m) (hx : x ∉ m) :
    ∃ y, l = w ++ y := by
  rcases List.append_eq_append_iff.mp h with ⟨y, hl, -⟩ | ⟨y, hw, hm⟩
  · exact ⟨y, hl⟩
  · cases y with
    | nil => exact ⟨[], by rw [hw, List.append_nil, List.append_nil]⟩
    | cons z y =>
      obtain ⟨-, hm⟩ := List.cons.inj hm
      exact absurd (hm ▸ List.mem_append_right y List.mem_cons_self) hx

/-- A string that is read with as many codes as were written holds nothing that is lost. -/
theorem string_exact (hplain : Plain cs) (hquote : IsQuote quote) (hlost : replacement ∉ cs)
    (htail : ∀ c ∈ tail, c ≠ quote ∧ c ≠ replacement) (hread : StringEnd quote v out)
    (hout : spell out = spell cs)
    (hdrops : Drops (normalise (quoted quote cs ++ quote :: tail)) (v ++ r)) :
    StringSurvives cs := by
  obtain ⟨w, rfl, hspelled⟩ := hread
  have hsame : out = cs :=
    spell_injective (hspelled.forall_mem fun _ _ h => h.isCode) hplain.isCode hout
  have hreplacement : replacement ∉ normalise (quoted quote cs ++ quote :: tail) := by
    intro hmem
    rcases List.mem_append.mp (mem_of_normalise (by decide) hmem) with hmem | hmem
    · exact (mem_quoted hmem).elim hlost fun heq => absurd heq (by decide)
    · rcases List.mem_cons.mp hmem with heq | hmem
      · exact hquote.isStop.notReplacement heq.symm
      · exact (htail _ hmem).2 rfl
  have hcodes := hdrops.eq hreplacement
  rw [normalise_append_cons hquote.not_line, List.append_assoc, List.singleton_append] at hcodes
  obtain ⟨y, hy⟩ := prefix_of_last hcodes fun hmem =>
    (htail _ (mem_of_normalise hquote.not_line hmem)).1 rfl
  have hcount : w.countP (· ≠ quote) ≤ out.length := by
    have hall := countP_normalise quote (quoted quote cs)
    rw [countP_quoted hquote, hy, List.countP_append] at hall
    rw [hsame]
    omega
  obtain ⟨hle, hexact⟩ := hspelled.weight fun w o h => h.weight hquote.isStop hquote.ne_newline
  have hall := hexact (le_antisymm hle hcount)
  rw [← hsame]
  intro c hc
  have hmem : c ∈ normalise (quoted quote cs) :=
    hy ▸ List.mem_append_left y (hall.mem_of_exact c hc)
  obtain ⟨d, -, rfl⟩ := mem_normalise hmem
  have hraw : asRead d ≠ '\\' ∧ asRead d ≠ '\n' := by
    rcases hall.mem_exact _ hc with hraw | ⟨heq, -⟩
    · simp only [isStringChar, Bool.decide_and, Bool.and_eq_true, decide_eq_true_eq] at hraw
      exact ⟨hraw.2.2, hraw.2.1⟩
    · rw [heq]
      exact ⟨hquote.isStop.notSlash, hquote.ne_newline⟩
  refine ⟨hraw.1, fun hline => ?_⟩
  rcases (isLine_iff _).mp hline with heq | heq | heq
  · exact hraw.2 heq
  · exact (asRead_ne d).1 heq
  · exact (asRead_ne d).2 heq

theorem string_quoted {post : Bytes → Lexer → Prop} (hplain : Plain cs) (hquote : IsQuote quote)
    (hlost : replacement ∉ cs) (htail : ∀ c ∈ tail, c ≠ quote ∧ c ≠ replacement)
    (hfollow : Plain tail) (h : Ahead s 0 (normalise (quoted quote cs ++ quote :: tail)))
    (hfuel : s.codes.length < fuel)
    (hgood : StringSurvives cs → ∀ t, Ahead t 0 (normalise tail) → post (spell cs) t)
    (hbad : ¬ StringSurvives cs → ∀ str t, t.codes.length ≤ s.codes.length →
      Fine (fun _ => True) t.codes → t.fUngetc.length ≤ 3 →
      (t.errors = [] → str ≠ spell cs) → post str t) :
    Ensures (string fuel quote) s (fun _ => ¬ StringSurvives cs) post := by
  have hcodes := h.codes
  rw [string]
  by_cases hsurvives : StringSurvives cs
  · have hlines : ∀ c ∈ quoted quote cs, ¬ IsLine c := by
      intro c hc
      rcases mem_quoted hc with hc | rfl
      · exact (hsurvives c hc).2
      · decide
    rw [hcodes] at hfuel
    rw [normalise_append hlines, normalise_cons hquote.not_line] at h hfuel
    refine (stringLoop_ahead fuel [] hplain hquote hsurvives hlost h (by decide) hfuel).mono
      fun str t hread => ?_
    rw [hread.1, List.nil_append]
    exact hgood hsurvives t hread.2
  · have hall : Plain (quoted quote cs ++ quote :: tail) := by
      intro c hc
      rcases List.mem_append.mp hc with hc | hc
      · exact plain_quoted hplain c hc
      · rcases List.mem_cons.mp hc with rfl | hc
        · exact ⟨hquote.isCode, hquote.range.1.ne'⟩
        · exact hfollow c hc
    have hfine : Fine (fun _ => True) s.codes := h.fine fun c hc => (normalise_range hall c hc).2
    have hroom := h.room
    refine ((stringLoop_spells quote fuel [] hfuel hfine (by omega)).mono_throws
      fun _ _ => hsurvives).mono fun str t hspells => ?_
    obtain ⟨v, out, hstr, hread⟩ := hspells
    have hlength := hread.drops.length_le
    rw [List.length_append] at hlength
    refine hbad hsurvives str t (by omega) (hfine.right hread.drops) hread.room
      fun herrors hsame => hsurvives ?_
    refine string_exact hplain hquote hlost htail (hread.good ?_) ?_ (hcodes ▸ hread.drops)
    · rw [herrors, h.errors]
    · rw [← hsame, hstr, List.nil_append]

theorem turn_string (hplain : Plain cs) (hquote : IsQuote quote) (hlost : replacement ∉ cs)
    (h : Ahead s 0 (normalise (quote :: (quoted quote cs ++ [quote])))) :
    Ensures turn s (fun _ => ¬ StringSurvives cs)
      (TurnOutcome .string (spell cs) (StringSurvives cs)) := by
  have hturns := s.codes_lt_turns
  have hnil : Plain [] := fun c hc => by cases hc
  rw [normalise_cons hquote.not_line] at h
  rw [h.codes, List.length_cons] at hturns
  rw [turn]
  refine Ensures.bind (Ensures.bind (h.getc fun t ht => ?_))
  have htoken : tokenAt s.turns quote = stringToken s.turns quote := by
    rcases hquote with rfl | rfl <;> rfl
  rw [htoken]
  refine Ensures.bind (string_quoted hplain hquote hlost (fun c hc => by cases hc) hnil ht
    (by rw [ht.codes]; omega) (fun hgood u hu => Ensures.pure ?_)
    fun hbad str u _ _ _ hstr => Ensures.pure ?_)
  · exact Or.inl ⟨_, rfl, iff_of_true ⟨rfl, rfl, hu.errors⟩ hgood⟩
  · exact Or.inl ⟨_, rfl, iff_of_false (fun hsame => hstr hsame.2.2 hsame.2.1) hbad⟩

theorem readsBack_string (hplain : Plain cs) (hlost : replacement ∉ cs) :
    ReadsBack (outputString (spell cs)) .string (spell cs) ↔ StringSurvives cs := by
  obtain ⟨quote, hquote, htext⟩ := outputString_spell hplain
  have hall : Plain (quote :: (quoted quote cs ++ [quote])) := by
    have hcode : IsCode quote ∧ quote ≠ 0 := ⟨IsQuote.isCode hquote, (IsQuote.range hquote).1.ne'⟩
    refine List.forall_mem_cons.mpr ⟨hcode, fun c hc => ?_⟩
    rcases List.mem_append.mp hc with hc | hc
    · exact plain_quoted hplain c hc
    · rwa [List.mem_singleton.mp hc]
  rw [htext]
  exact readsBack_iff hall (turn_string hplain hquote hlost (Ahead.start hall))

theorem skipSpaces_ahead {post : ℤ → Lexer → Prop} (fuel : ℕ) (hspaces : ∀ d ∈ w, isSpace d = true)
    (hc : isSpace c = false) (h : Ahead s room (w ++ c :: l)) (hfuel : w.length < fuel)
    (hpost : ∀ t, Ahead t room l → post c t) : Ensures (skipSpaces fuel) s throws post := by
  induction fuel generalizing s w with
  | zero => omega
  | succ fuel ih =>
    rw [skipSpaces]
    cases w with
    | nil =>
      refine Ensures.bind (h.getc fun t ht => ?_)
      rw [if_neg (by simp [hc])]
      exact Ensures.pure (hpost t ht.less)
    | cons d w =>
      rw [List.length_cons] at hfuel
      refine Ensures.bind (h.getc fun t ht => ?_)
      rw [if_pos (hspaces d List.mem_cons_self)]
      exact ih (List.forall_mem_cons.mp hspaces).2 ht.less
        (by omega)

theorem closeUrl_ahead (fuel : ℕ) (hspaces : ∀ d ∈ w, isSpace d = true)
    (h : Ahead s room (w ++ [(')' : ℤ)])) (hfuel : w.length < fuel) :
    Ensures (closeUrl fuel) s throws fun _ t => t.errors = [] := by
  induction fuel generalizing s w with
  | zero => omega
  | succ fuel ih =>
    rw [closeUrl]
    cases w with
    | nil =>
      refine Ensures.bind (h.getc fun t ht => ?_)
      rw [if_pos rfl]
      exact Ensures.pure ht.errors
    | cons d w =>
      have hd := hspaces d List.mem_cons_self
      rw [List.length_cons] at hfuel
      refine Ensures.bind (h.getc fun t ht => ?_)
      rw [if_neg (by rintro rfl; exact absurd hd (by decide)), if_pos hd]
      exact ih (List.forall_mem_cons.mp hspaces).2 ht.less
        (by omega)

/-- The characters of a URL without quotes are read up to its end. -/
theorem urlLoop_ahead {e : ℤ} (fuel : ℕ) (url : Bytes) (hplain : Plain cs)
    (hcs : ∀ d ∈ cs, urlChar d = true) (he : e = ')' ∨ isSpace e = true)
    (h : Ahead s room (cs ++ e :: l)) (hfuel : cs.length < fuel) :
    Ensures (urlLoop fuel url) s throws fun p t => p = (e, url ++ spell cs) ∧ Ahead t room l := by
  induction fuel generalizing s cs url with
  | zero => omega
  | succ fuel ih =>
    rw [urlLoop]
    cases cs with
    | nil =>
      refine Ensures.bind (h.getc fun t ht => ?_)
      rw [if_pos he]
      refine Ensures.pure ⟨?_, ht.less⟩
      rw [spell_nil, List.append_nil]
    | cons c cs =>
      have hc := hcs c List.mem_cons_self
      have hpos := hplain.pos c List.mem_cons_self
      simp only [urlChar, Bool.and_eq_true, Bool.not_eq_true', decide_eq_true_eq, ne_eq] at hc
      obtain ⟨⟨⟨⟨⟨hspace, hclose⟩, hdouble⟩, hsingle⟩, hopen⟩, hprint⟩ := hc
      rw [List.length_cons] at hfuel
      refine Ensures.bind (h.getc fun t ht => ?_)
      rw [if_neg (not_or.mpr ⟨hclose, by simp [hspace]⟩),
        if_neg (by simp only [not_or]; exact ⟨ne_eof_of_pos hpos, hdouble, hsingle, hopen, by
          simp [hprint]⟩)]
      refine Ensures.bind (ht.wctomb (hplain c List.mem_cons_self).1 fun ht => ?_)
      refine (ih (url ++ spell [c]) hplain.tail (List.forall_mem_cons.mp hcs).2
        ht.less (by omega)).mono fun p u hp => ⟨?_, hp.2⟩
      rw [hp.1, List.append_assoc, ← spell_append, List.singleton_append]

def UrlSurvives (cs : List ℤ) : Prop :=
  if cs.any isIndirectCode then StringSurvives cs
  else cs ≠ [] ∧ ∀ c ∈ cs, isSpace c = false ∧ ¬ IsLine c

/-- The characters of a URL that is written as it is. -/
theorem urlChar_of_direct (hpos : 0 < c) (hne : c ≠ replacement) (hspace : isSpace c = false)
    (h : isIndirectCode c = false) : urlChar c = true := by
  have hlarge : ∀ d : ℤ, 0 < d → d < 0x80 → isIndirectCode d = false →
      d ≠ ')' ∧ d ≠ '"' ∧ d ≠ '\'' ∧ d ≠ '(' ∧ isNonPrintable d = false := by
    intro d _ hd hdirect
    simp only [isIndirectCode, decide_eq_true hd, Bool.true_and, Bool.or_eq_false_iff,
      decide_eq_false_iff_not] at hdirect
    obtain ⟨⟨⟨⟨hopen, hclose⟩, hsingle⟩, hdouble⟩, hprint⟩ := hdirect
    exact ⟨hclose, hdouble, hsingle, hopen, hprint⟩
  have hall : c ≠ ')' ∧ c ≠ '"' ∧ c ≠ '\'' ∧ c ≠ '(' ∧ isNonPrintable c = false := by
    by_cases hc : c < 0x80
    · exact hlarge c hpos hc h
    · refine ⟨?_, ?_, ?_, ?_, ?_⟩
      any_goals (rintro rfl; exact hc (by decide))
      rw [not_lt] at hc
      have hne' : c ≠ 0xFFFD := hne
      simp only [isNonPrintable, Bool.or_eq_false_iff, Bool.and_eq_false_iff,
        decide_eq_false_iff_not]
      omega
  simp only [urlChar, hspace, hall.2.2.2.2, Bool.not_false, Bool.true_and, Bool.and_true, ne_eq,
    Bool.and_eq_true, decide_eq_true_eq]
  exact ⟨⟨⟨hall.1, hall.2.1⟩, hall.2.2.1⟩, hall.2.2.2.1⟩

theorem urlArgument_quoted {space : List ℤ} (hspace : ∀ d ∈ space, d = ' ') (hplain : Plain cs)
    (hquote : IsQuote quote) (hlost : replacement ∉ cs)
    (h : Ahead s 0 (normalise (space ++ quote ::
      (quoted quote cs ++ quote :: (space ++ [(')' : ℤ)])))))
    (hfuel : s.codes.length < fuel) :
    Ensures (urlArgument fuel) s (fun _ => ¬ StringSurvives cs)
      (Outcome .url (spell cs) (StringSurvives cs)) := by
  have hspaces : ∀ d ∈ space, isSpace d = true := fun d hd => by rw [hspace d hd]; decide
  have hlines : ∀ d ∈ space, ¬ IsLine d := fun d hd => by rw [hspace d hd]; decide
  have hclose : ∀ d ∈ space ++ [(')' : ℤ)], d = ' ' ∨ d = ')' := fun d hd =>
    (List.mem_append.mp hd).imp (hspace d) List.mem_singleton.mp
  have htail : ∀ d ∈ space ++ [(')' : ℤ)], d ≠ quote ∧ d ≠ replacement := by
    intro d hd
    rcases hquote with rfl | rfl <;> rcases hclose d hd with rfl | rfl <;> decide
  have hfollow : Plain (space ++ [(')' : ℤ)]) := by
    intro d hd
    rcases hclose d hd with rfl | rfl <;> exact ⟨by decide, by decide⟩
  have hrest : normalise (space ++ [(')' : ℤ)]) = space ++ [(')' : ℤ)] := by
    rw [normalise_append hlines, normalise_singleton, asRead_of_not_line (by decide)]
  have hnotspace : isSpace quote = false := by rcases hquote with rfl | rfl <;> decide
  have hlength := congrArg List.length h.codes
  rw [normalise_append hlines, normalise_cons hquote.not_line] at h hlength
  rw [List.length_append, List.length_cons] at hlength
  rw [urlArgument]
  refine Ensures.bind (skipSpaces_ahead fuel hspaces hnotspace h (by omega) fun t ht => ?_)
  have ht' := congrArg List.length ht.codes
  rw [if_pos (show quote = '"' ∨ quote = '\'' from hquote)]
  refine Ensures.bind (string_quoted hplain hquote hlost htail hfollow ht (by omega)
    (fun hgood u hu => ?_) fun hbad str u hu hfine hroom hstr => ?_)
  · rw [hrest] at hu
    refine Ensures.bind ((closeUrl_ahead fuel hspaces hu (by omega)).mono fun _ x hx => ?_)
    exact Ensures.pure (iff_of_true ⟨rfl, rfl, hx⟩ hgood)
  · refine Ensures.bind (((closeUrl_ensures fuel (by omega) hfine hroom).mono_throws
      fun _ _ => hbad).mono fun _ x hclosed =>
        Ensures.pure (iff_of_false (fun hsame => ?_) hbad))
    obtain ⟨v, hread⟩ := hclosed
    have herrors := hread.errors
    rw [hsame.2.2, List.length_nil, Nat.le_zero, List.length_eq_zero_iff] at herrors
    exact hstr herrors hsame.2.1

/-- A URL that is read without quotes holds characters of the stream that are no spaces. -/
theorem urlArgument_bare (hfine : Fine (fun _ => True) s.codes) (hroom : s.fUngetc.length ≤ 3)
    (hfuel : s.codes.length < fuel)
    (hcodes : ∀ d ∈ s.codes, IsCode d ∧ d ≠ '\r' ∧ d ≠ 12 ∧ d ≠ '"' ∧ d ≠ '\'')
    (hplain : Plain cs) :
    Ensures (urlArgument fuel) s (fun _ => True) fun tok t =>
      tok.fString = spell cs ∧ t.errors.length = s.errors.length →
        cs ≠ [] ∧ ∀ d ∈ cs, isSpace d = false ∧ ¬ IsLine d := by
  rw [urlArgument]
  refine Ensures.bind ((skipSpaces_ensures fuel hfuel hfine hroom).mono
    fun c t hskip => ?_)
  obtain ⟨⟨spaces, hread⟩, hspace, hstop⟩ := hskip
  have herrors := hread.errors
  have hroom' := hread.room
  have hlength := hread.drops.length_le
  simp only [List.length_append] at hlength
  have hdrops := hread.drops
  rw [← List.append_assoc] at hdrops
  have hfine' := hfine.right hdrops
  have hmem : ∀ d, d ∈ take c ∨ d ∈ t.codes → d ∈ s.codes := fun d hd =>
    hread.drops.mem (List.mem_append_right spaces (List.mem_append.mpr hd))
  have hnot : ¬ (c = '"' ∨ c = '\'') := by
    intro hquote
    have hc : c ≠ eof := by rcases hquote with rfl | rfl <;> decide
    have hall := (hcodes c (hmem c (Or.inl (by simp [take_of_ne hc])))).2.2.2
    exact hquote.elim hall.1 hall.2
  rw [if_neg hnot]
  refine Ensures.bind (wctomb_spells fun u hsame herrors' hcode hunget => ?_)
  rw [← hsame] at hfine' hlength hmem
  refine Ensures.bind ((urlLoop_spells fuel (spell [c]) (by omega) hfine' (by omega)).mono
    fun p x hloop => ?_)
  obtain ⟨d, url⟩ := p
  obtain ⟨w, out, hurl, hout, hmore⟩ := hloop
  change url = spell [c] ++ spell out at hurl
  have herrors'' := hmore.errors
  have hgood : url = spell cs ∧ x.errors.length = s.errors.length →
      cs ≠ [] ∧ ∀ d ∈ cs, isSpace d = false ∧ ¬ IsLine d := by
    rintro ⟨hspelled, hnone⟩
    have hc : c ≠ eof := by
      rintro rfl
      exact absurd (hcode (by omega)) (by decide)
    have hall : ∀ d ∈ c :: out, d ∈ s.codes ∧ isSpace d = false := by
      refine List.forall_mem_cons.mpr ⟨⟨hmem c (Or.inl (by simp [take_of_ne hc])), hspace⟩, ?_⟩
      intro d hd
      refine ⟨hmem d (Or.inr (hout d hd).1), ?_⟩
      have hchar := (hout d hd).2
      simp only [urlChar, Bool.and_eq_true, Bool.not_eq_true'] at hchar
      exact hchar.1.1.1.1.1
    have hsame : c :: out = cs := by
      refine spell_injective (fun d hd => (hcodes d (hall d hd).1).1) hplain.isCode ?_
      rw [← hspelled, hurl, ← spell_append, List.singleton_append]
    rw [← hsame]
    refine ⟨by simp, fun d hd => ⟨(hall d hd).2, fun hline => ?_⟩⟩
    have hcode := (hcodes d (hall d hd).1).2
    rcases (isLine_iff d).mp hline with rfl | rfl | rfl
    · exact absurd (hall _ hd).2 (by decide)
    · exact hcode.1 rfl
    · exact hcode.2.1 rfl
  have hlength' := hmore.drops.length_le
  rw [List.length_append] at hlength'
  refine Ensures.ite (fun _ => Ensures.pure hgood) (fun _ => ?_)
  refine Ensures.bind ((closeUrl_ensures fuel (by omega) (hfine'.right hmore.drops)
    hmore.room).mono fun _ y hclosed => Ensures.pure fun hsame => hgood ⟨hsame.1, ?_⟩)
  obtain ⟨v, hlast⟩ := hclosed
  have hkept := hlast.errors
  have hnone := hsame.2
  omega

theorem isCode_asRead (h : IsCode c) : IsCode (asRead c) := by
  rw [asRead]
  split_ifs
  · decide
  · exact h

theorem not_quote_of_direct (h : isIndirectCode c = false) : c ≠ '"' ∧ c ≠ '\'' :=
  ⟨by rintro rfl; exact absurd h (by decide), by rintro rfl; exact absurd h (by decide)⟩

theorem urlArgument_direct {space : List ℤ} (hspace : ∀ d ∈ space, d = ' ') (hplain : Plain cs)
    (hany : cs.any isIndirectCode = false) (hlost : replacement ∉ cs.tail)
    (h : Ahead s 0 (normalise (space ++ (cs ++ (space ++ [(')' : ℤ)])))))
    (hfuel : s.codes.length < fuel) :
    Ensures (urlArgument fuel) s
      (fun _ => ¬ (cs ≠ [] ∧ ∀ d ∈ cs, isSpace d = false ∧ ¬ IsLine d))
      (Outcome .url (spell cs) (cs ≠ [] ∧ ∀ d ∈ cs, isSpace d = false ∧ ¬ IsLine d)) := by
  have hspaces : ∀ d ∈ space, isSpace d = true := fun d hd => by rw [hspace d hd]; decide
  have hlines : ∀ d ∈ space, ¬ IsLine d := fun d hd => by rw [hspace d hd]; decide
  have hindirect : ∀ d ∈ cs, isIndirectCode d = false := by simpa using hany
  by_cases hgood : cs ≠ [] ∧ ∀ d ∈ cs, isSpace d = false ∧ ¬ IsLine d
  · obtain ⟨c, ds, rfl⟩ := List.exists_cons_of_ne_nil hgood.1
    have hc := not_quote_of_direct (hindirect c List.mem_cons_self)
    have hchars : ∀ d ∈ ds, urlChar d = true := by
      intro d hd
      have hmem := List.mem_cons_of_mem c hd
      exact urlChar_of_direct (hplain.pos d hmem) (fun heq => hlost (heq ▸ hd))
        (hgood.2 d hmem).1 (hindirect d hmem)
    have hlength := congrArg List.length h.codes
    rw [normalise_append hlines, normalise_append fun d hd => (hgood.2 d hd).2,
      normalise_append hlines, normalise_singleton, asRead_of_not_line (by decide),
      List.cons_append] at h hlength
    simp only [List.length_append, List.length_cons, List.length_nil] at hlength
    have hpost : ∀ u : Lexer, u.errors = [] → Outcome .url (spell (c :: ds))
        (c :: ds ≠ [] ∧ ∀ d ∈ c :: ds, isSpace d = false ∧ ¬ IsLine d)
        (urlToken (spell [c] ++ spell ds)) u := by
      intro u hu
      refine iff_of_true ⟨rfl, ?_, hu⟩ hgood
      rw [← spell_append]
      rfl
    rw [urlArgument]
    refine Ensures.bind (skipSpaces_ahead fuel hspaces (hgood.2 c List.mem_cons_self).1 h (by omega)
      fun t ht => ?_)
    rw [if_neg (not_or.mpr hc)]
    refine Ensures.bind (ht.wctomb (hplain c List.mem_cons_self).1 fun ht => ?_)
    cases space with
    | nil =>
      refine Ensures.bind ((urlLoop_ahead fuel (spell [c]) hplain.tail hchars (Or.inl rfl) ht
        (by omega)).mono fun p u hp => ?_)
      obtain ⟨rfl, hu⟩ := hp
      refine Ensures.ite (fun _ => Ensures.pure (hpost u hu.errors)) (fun hne => absurd rfl hne)
    | cons e space =>
      have he := hspaces e List.mem_cons_self
      rw [List.cons_append] at ht
      refine Ensures.bind ((urlLoop_ahead fuel (spell [c]) hplain.tail hchars (Or.inr he) ht
        (by omega)).mono fun p u hp => ?_)
      obtain ⟨rfl, hu⟩ := hp
      rw [List.length_cons] at hlength
      refine Ensures.ite (fun heq => ?_) (fun _ => ?_)
      · change e = ')' at heq
        rw [heq] at he
        exact absurd he (by decide)
      · exact Ensures.bind ((closeUrl_ahead fuel (List.forall_mem_cons.mp hspaces).2
          hu (by omega)).mono fun _ x hx => Ensures.pure (hpost x hx))
  · have hwritten : ∀ d ∈ space ++ (cs ++ (space ++ [(')' : ℤ)])),
        IsCode d ∧ d ≠ 0 ∧ d ≠ '"' ∧ d ≠ '\'' := by
      intro d hd
      simp only [List.mem_append, List.mem_singleton] at hd
      have hblank : d ∈ space → IsCode d ∧ d ≠ 0 ∧ d ≠ '"' ∧ d ≠ '\'' := by
        intro hd
        rw [hspace d hd]
        decide
      rcases hd with hd | hd | hd | rfl
      · exact hblank hd
      · exact ⟨(hplain d hd).1, (hplain d hd).2, not_quote_of_direct (hindirect d hd)⟩
      · exact hblank hd
      · decide
    have hrange := normalise_range fun d hd => ⟨(hwritten d hd).1, (hwritten d hd).2.1⟩
    have hroom := h.room
    refine ((urlArgument_bare (h.fine fun d hd => (hrange d hd).2) (by omega) hfuel (fun d hd => ?_)
      hplain).mono_throws fun _ _ => hgood).mono fun tok t hsame => iff_of_false ?_ hgood
    · rw [h.codes] at hd
      obtain ⟨x, hx, rfl⟩ := mem_normalise hd
      have hall := hwritten x hx
      refine ⟨isCode_asRead hall.1, (asRead_ne x).1, (asRead_ne x).2, ?_, ?_⟩
      · exact fun heq => hall.2.2.1 ((asRead_eq_iff (by decide)).mp heq)
      · exact fun heq => hall.2.2.2 ((asRead_eq_iff (by decide)).mp heq)
    · rintro ⟨-, hstr, herrors⟩
      exact hgood (hsame ⟨hstr, by rw [herrors, h.errors]⟩)

theorem identifierLoop_char {name : Name} {post : ℤ × Name → Lexer → Prop}
    (hc : isIdentifier c = true) (hcode : IsCode c) (h : Ahead s room (c :: l))
    (hpost : ∀ t, Ahead t (room - 1) l → Ensures (identifierLoop fuel
      ⟨name.id ++ spell [c], name.lowercaseId ++ spell [toLower c]⟩) t throws post) :
    Ensures (identifierLoop (fuel + 1) name) s throws post := by
  rw [identifierLoop]
  refine Ensures.bind (h.getc fun t ht => ?_)
  rw [if_neg (by rintro rfl; exact absurd hc (by decide)), if_pos hc]
  refine Ensures.bind (Name.add_ahead ht hcode fun name' hadd ht => ?_)
  rw [hadd]
  exact hpost t ht

theorem identifierLoop_stop {e : ℤ} {name : Name} {post : ℤ × Name → Lexer → Prop}
    (he : EndsLoop e) (h : Ahead s room (e :: l))
    (hpost : ∀ t, Ahead t (room - 1) l → post (e, name) t) :
    Ensures (identifierLoop (fuel + 1) name) s throws post := by
  rw [identifierLoop]
  refine Ensures.bind (h.getc fun t ht => ?_)
  rw [if_neg he.notSlash, if_neg (by simp [he.notName])]
  exact Ensures.pure (hpost t ht)

theorem turn_url {good : Prop}
    (h : Ahead s 0 (('u' : ℤ) :: ('r' : ℤ) :: ('l' : ℤ) :: ('(' : ℤ) :: l))
    (hurl : ∀ fuel t, Ahead t 0 l → t.codes.length < fuel →
      Ensures (urlArgument fuel) t (fun _ => ¬ good) (Outcome .url str good)) :
    Ensures turn s (fun _ => ¬ good) (TurnOutcome .url str good) := by
  have hturns := s.codes_lt_turns
  rw [h.codes] at hturns
  simp only [List.length_cons] at hturns
  rw [turn]
  refine Ensures.bind (Ensures.bind (h.getc fun t ht => ?_))
  obtain ⟨fuel, hfuel⟩ : ∃ fuel, s.turns = fuel + 3 := ⟨s.turns - 3, by omega⟩
  rw [hfuel, tokenAt_start _ (by decide), if_pos (Or.inl rfl), letterU]
  refine Ensures.bind (ht.getc fun u hu => ?_)
  rw [if_neg (by decide)]
  refine Ensures.bind (hu.ungetc (by decide) (by decide) (by decide) (by decide) fun v hv => ?_)
  refine tokenOf_outcome ?_
  rw [identifier_start _ (by decide)]
  refine Ensures.bind (Name.add_ahead hv (by decide) fun name hadd hv => ?_)
  rw [hadd, identifierRest]
  refine Ensures.bind (identifierLoop_char (by decide) (by decide) hv fun w hw => ?_)
  refine identifierLoop_char (by decide) (by decide) hw fun x hx => ?_
  refine identifierLoop_stop ⟨by decide, by decide⟩ hx fun y hy => ?_
  dsimp only
  rw [if_neg (by decide), if_pos ⟨rfl, by decide⟩, if_pos (by decide)]
  refine hurl _ y hy ?_
  rw [hy.codes]
  omega

theorem UrlArgument.plain {argument : List ℤ} (h : UrlArgument cs argument) (hplain : Plain cs) :
    Plain argument := by
  cases h with
  | direct _ => exact hplain
  | quoted quote _ hquote =>
    have hcode : IsCode quote ∧ quote ≠ 0 :=
      ⟨IsQuote.isCode hquote, (IsQuote.range hquote).1.ne'⟩
    refine List.forall_mem_cons.mpr ⟨hcode, fun c hc => ?_⟩
    rcases List.mem_append.mp hc with hc | hc
    · exact plain_quoted hplain c hc
    · rwa [List.mem_singleton.mp hc]

theorem Plain.append (h : Plain l) (h' : Plain m) : Plain (l ++ m) := fun c hc =>
  (List.mem_append.mp hc).elim (h c) (h' c)

theorem plain_urlText (hplain : Plain l) :
    Plain (('u' : ℤ) :: ('r' : ℤ) :: ('l' : ℤ) :: ('(' : ℤ) :: l) := by
  have hname : Plain [('u' : ℤ), ('r' : ℤ), ('l' : ℤ), ('(' : ℤ)] := by
    intro d hd
    simp only [List.mem_cons, List.not_mem_nil, or_false] at hd
    rcases hd with rfl | rfl | rfl | rfl <;> exact ⟨by decide, by decide⟩
  exact hname.append hplain

/-- What is written for a URL, with the codes `l` behind its opening parenthesis. -/
theorem readsBack_urlText {good : Prop} (hplain : Plain l)
    (hurl : ∀ fuel t, Ahead t 0 (normalise l) → t.codes.length < fuel →
      Ensures (urlArgument fuel) t (fun _ => ¬ good) (Outcome .url str good)) :
    ReadsBack (spell (('u' : ℤ) :: ('r' : ℤ) :: ('l' : ℤ) :: ('(' : ℤ) :: l)) .url str ↔ good := by
  have hall := plain_urlText hplain
  have hstart := Ahead.start hall
  rw [normalise_cons (by decide), normalise_cons (by decide), normalise_cons (by decide),
    normalise_cons (by decide)] at hstart
  -- The lexer would be run on the letters that are known.
  generalize ('u' : ℤ) :: ('r' : ℤ) :: ('l' : ℤ) :: ('(' : ℤ) :: l = m at hall hstart ⊢
  exact readsBack_iff hall (turn_url hstart hurl)

theorem readsBack_url (mode : OutputMode) (hplain : Plain cs)
    (hlost : replacement ∉ cs.tail)
    (hdirect : replacement ∈ cs → cs.any isIndirectCode = false) :
    ReadsBack (outputUrl mode (spell cs)) .url (spell cs) ↔ UrlSurvives cs := by
  obtain ⟨space, argument, hspace, hargument, htext⟩ := outputUrl_spell mode hplain
  have hspaces : ∀ d ∈ space, d = ' ' := by
    rcases hspace with rfl | rfl
    · simp
    · exact fun d hd => List.mem_singleton.mp hd
  have hblank : Plain space := fun d hd => by
    rw [hspaces d hd]
    exact ⟨by decide, by decide⟩
  have hclose : Plain [(')' : ℤ)] := fun d hd => by
    rw [List.mem_singleton.mp hd]
    exact ⟨by decide, by decide⟩
  rw [htext, List.append_assoc, List.append_assoc, List.append_assoc]
  refine readsBack_urlText (hblank.append ((hargument.plain hplain).append (hblank.append hclose)))
    fun fuel t ht hfuel => ?_
  cases hargument with
  | direct hany =>
    rw [UrlSurvives, if_neg (by simp [hany])]
    exact urlArgument_direct hspaces hplain hany hlost ht hfuel
  | quoted quote hany hquote =>
    have hnone : replacement ∉ cs := by
      intro hmem
      rw [hdirect hmem] at hany
      cases hany
    rw [UrlSurvives, if_pos hany]
    rw [List.cons_append, List.append_assoc, List.singleton_append] at ht
    exact urlArgument_quoted hspaces hplain hquote hnone ht hfuel

/-- The strings and URLs that are printed and read again, of those that the lexer returns. -/
theorem strings_printedBack {n : Token} (hnext : nextToken s = .ok (n, t))
    (htype : n.fType = .string ∨ n.fType = .url) :
    ∃ cs, Plain cs ∧ n.fString = spell cs ∧
      (n.fType = .string →
        (ReadsBack (outputString n.fString) .string n.fString ↔ StringSurvives cs)) ∧
      (n.fType = .url → ∀ mode,
        (ReadsBack (outputUrl mode n.fString) .url n.fString ↔ UrlSurvives cs)) := by
  have hcodes := (nextToken_returns s).of_ok hnext
  rcases htype with htype | htype
  · obtain ⟨cs, hplain, hne, hstr⟩ := hcodes.string htype
    refine ⟨cs, hplain, hstr, fun _ => ?_, fun hurl => ?_⟩
    · rw [hstr]
      exact readsBack_string hplain fun hmem => hne _ hmem rfl
    · rw [htype] at hurl
      cases hurl
  · have hnot : n.fType ≠ .string := by
      rw [htype]
      decide
    rcases hcodes.url htype with ⟨cs, hplain, hne, hstr⟩ | ⟨rest, ⟨cs, hplain, hchars, rfl⟩, hstr⟩
    · refine ⟨cs, hplain, hstr, fun h => absurd h hnot, fun _ mode => ?_⟩
      rw [hstr]
      exact readsBack_url mode hplain (fun hmem => hne _ (List.mem_of_mem_tail hmem) rfl)
        fun hmem => absurd rfl (hne _ hmem)
    · rw [← spell_append, List.singleton_append] at hstr
      refine ⟨replacement :: cs, List.forall_mem_cons.mpr ⟨⟨by decide, by decide⟩, hplain⟩, hstr,
        fun h => absurd h hnot, fun _ mode => ?_⟩
      rw [hstr]
      refine readsBack_url mode (List.forall_mem_cons.mpr ⟨⟨by decide, by decide⟩, hplain⟩)
        (fun hmem => urlChar_ne_replacement (hchars _ hmem) rfl) fun _ => ?_
      rw [List.any_cons, Bool.or_eq_false_iff, List.any_eq_false]
      refine ⟨by decide, fun c hc => ?_⟩
      have hchar := hchars c hc
      simp only [urlChar, Bool.and_eq_true, Bool.not_eq_true', decide_eq_true_eq, ne_eq] at hchar
      obtain ⟨⟨⟨⟨⟨-, hclose⟩, hdouble⟩, hsingle⟩, hopen⟩, hprint⟩ := hchar
      simp only [isIndirectCode, decide_eq_false hclose, decide_eq_false hdouble,
        decide_eq_false hsingle, decide_eq_false hopen, hprint, Bool.or_false, Bool.and_false]
      simp

/-- A string with a letter in it. -/
theorem letter_printedBack : ∃ n t, nextToken (.start [34, 97, 34]) = .ok (n, t) ∧
    ∃ cs, Plain cs ∧ n.fString = spell cs ∧
      (n.fType = .string →
        (ReadsBack (outputString n.fString) .string n.fString ↔ StringSurvives cs)) ∧
      (n.fType = .url → ∀ mode,
        (ReadsBack (outputUrl mode n.fString) .url n.fString ↔ UrlSurvives cs)) :=
  ⟨{ fType := .string, fString := [97] }, .start [], by rfl,
    strings_printedBack (s := .start [34, 97, 34]) (t := .start []) (by rfl) (Or.inl rfl)⟩

/-- A backslash in a string is written as it is, and escapes the quote behind it. -/
theorem string_loses_backslash :
    ¬ ∀ bytes n t, nextToken (.start bytes) = .ok (n, t) →
      (n.fType = .string → ReadsBack (outputString n.fString) .string n.fString) ∧
      (n.fType = .url → ∀ mode, ReadsBack (outputUrl mode n.fString) .url n.fString) := by
  intro h
  obtain ⟨tok, t, hread, -, hstr, -⟩ := (h [34, 92, 92, 34]
    { fType := .string, fString := [92] } (.start []) (by rfl)).1 rfl
  have hrun : (nextToken (.start [34, 92, 34])).map (fun p => p.1.fString) = .ok [34] := by rfl
  have hsame : (nextToken (.start [34, 92, 34])).map (fun p => p.1.fString) =
      .ok tok.fString := by
    change nextToken (.start [34, 92, 34]) = .ok (tok, t) at hread
    rw [hread]
    rfl
  rw [hrun, hstr] at hsame
  cases hsame

end SnapCpp.Css
