import SnapCpp.CssAhead
import SnapCpp.CssAssembler

/-!
Names that are printed and read again. An identifier is escaped character by character, and is lost
where an escape is not read as it is written: a newline, a character U+FFFD that is put back, or a
name in front of a parenthesis. A hash is written as it is.
-/
namespace SnapCpp.Css

variable {throws : Throw → Prop} {s t : Lexer} {room : ℕ} {c e f : ℤ} {l cs tail : List ℤ}

def IsLine (c : ℤ) : Prop := asRead c = '\n'

instance : DecidablePred IsLine := fun c => inferInstanceAs (Decidable (asRead c = '\n'))

structure EndsName (f : ℤ) : Prop where
  code : IsCode f
  ne : f ≠ 0
  notName : isIdentifier f = false
  notSlash : f ≠ '\\'

theorem isLine_iff (c : ℤ) : IsLine c ↔ c = '\n' ∨ c = '\r' ∨ c = 12 := by
  rw [IsLine, asRead]
  split_ifs with h
  · exact iff_of_true rfl (Or.inr h)
  · exact ⟨Or.inl, fun hc => hc.resolve_right h⟩

theorem asRead_of_not_line (h : ¬ IsLine c) : asRead c = c := by
  rw [isLine_iff, not_or] at h
  rw [asRead, if_neg h.2]

theorem normalise_cons (h : ¬ IsLine c) (l : List ℤ) : normalise (c :: l) = c :: normalise l := by
  have hc := h
  rw [isLine_iff, not_or, not_or] at hc
  rw [normalise, asRead_of_not_line h, if_neg (fun hnext => hc.2.1 hnext.1)]

theorem normalise_line (h : IsLine c) (l : List ℤ) : ∃ r, normalise (c :: l) = ('\n' : ℤ) :: r := by
  rw [normalise, show asRead c = '\n' from h]
  exact ⟨_, rfl⟩

theorem normalise_singleton (c : ℤ) : normalise [c] = [asRead c] := by
  rw [normalise, if_neg (by simp), normalise]

theorem isIdentifier_not_line (h : isIdentifier c = true) : ¬ IsLine c := by
  rw [isLine_iff]
  rintro (rfl | rfl | rfl) <;> exact absurd h (by decide)

structure EndsLoop (e : ℤ) : Prop where
  notName : isIdentifier e = false
  notSlash : e ≠ '\\'

theorem endsLoop_eof : EndsLoop eof := ⟨by decide, by decide⟩

theorem EndsLoop.ne_replacement (h : EndsLoop e) : e ≠ replacement := by
  rintro rfl
  exact absurd h.notName (by decide)

/-- The character behind a name is read as itself or as a newline. -/
theorem EndsName.endsLoop (h : EndsName f) : EndsLoop (asRead f) := by
  by_cases hline : IsLine f
  · rw [show asRead f = '\n' from hline]
    exact ⟨by decide, by decide⟩
  · rw [asRead_of_not_line hline]
    exact ⟨h.notName, h.notSlash⟩

theorem asRead_eq_iff {c d : ℤ} (hd : ¬ IsLine d) : asRead c = d ↔ c = d := by
  by_cases hline : IsLine c
  · rw [show asRead c = '\n' from hline]
    refine iff_of_false ?_ ?_
    · rintro rfl
      exact hd (by decide)
    · rintro rfl
      exact hd hline
  · rw [asRead_of_not_line hline]

theorem isHex_isIdentifier (h : isHex c = true) : isIdentifier c = true := by
  simp only [isHex, isIdentifier, isLetter, isDigit, Bool.or_eq_true, Bool.and_eq_true,
    decide_eq_true_eq, Char.reduceToNat, Nat.cast_ofNat] at h ⊢
  omega

theorem isCode_toLower (h : IsCode c) : IsCode (toLower c) := by
  unfold toLower
  split_ifs with hupper
  · rw [IsCode, encoding]
    simp only [Char.reduceToNat, Nat.cast_ofNat] at hupper
    rw [if_neg (by omega), if_pos (by omega)]
  · exact h

theorem Name.add_ahead {name : Name} {post : Name → Lexer → Prop} (h : Ahead s room l)
    (hc : IsCode c) (hpost : ∀ name' : Name,
      name' = ⟨name.id ++ spell [c], name.lowercaseId ++ spell [toLower c]⟩ →
        Ahead s room l → post name' s) : Ensures (name.add c) s throws post :=
  Ensures.bind (h.wctomb hc fun h => Ensures.bind (h.wctomb (isCode_toLower hc) fun h =>
    Ensures.pure (hpost _ rfl h)))

/-- An escaped character that is no digit. -/
theorem Ahead.escape {post : ℤ → Lexer → Prop} (h : Ahead s room (c :: l))
    (hhex : isHex c = false) (hnewline : c ≠ '\n') (hreplacement : c ≠ replacement)
    (hpost : ∀ t, Ahead t (room - 1) l → post c t) : Ensures Css.escape s throws post := by
  have hpos := h.pos c List.mem_cons_self
  rw [Css.escape]
  refine Ensures.bind (h.getc fun t ht => ?_)
  rw [if_neg hnewline, if_neg hreplacement, if_neg (by rintro rfl; exact absurd hpos (by decide)),
    if_neg (by simp [hhex])]
  exact Ensures.pure (hpost t ht)

/-- A newline or U+FFFD is not escaped. -/
theorem Ahead.escape_error {post : ℤ → Lexer → Prop} (h : Ahead s room (c :: l))
    (hc : c = '\n' ∨ c = replacement)
    (hpost : ∀ t, t.errors ≠ [] → t.codes = l → t.fUngetc.length ≤ room → post replacement t) :
    Ensures Css.escape s throws post := by
  rw [Css.escape]
  refine Ensures.bind (h.getc fun t ht => ?_)
  have hroom := ht.room
  have hwrong : ∀ e : Error, Ensures (do report e; pure replacement) t throws post := fun e =>
    Ensures.bind (report_ensures fun u hcodes herrors hunget => Ensures.pure
      (hpost u (List.ne_nil_of_length_pos (by omega)) (hcodes.trans ht.codes) (by omega)))
  refine Ensures.ite (fun _ => hwrong _) (fun hnewline => ?_)
  exact Ensures.ite (fun _ => hwrong _)
    (fun hreplacement => absurd hc (not_or.mpr ⟨hnewline, hreplacement⟩))

theorem escapedCode_false (c : ℤ) (rest : List ℤ) :
    escapedCode false c rest = if isIdentifier c then [c] else [('\\' : ℤ), c] := by
  rw [escapedCode]
  by_cases hc : isIdentifier c = true
  · simp [hc]
  · have hdigit : isDigit c = false := by
      rw [Bool.eq_false_iff]
      intro hdigit
      exact hc (by simp [isIdentifier, hdigit])
    simp [hc, hdigit]

structure LoopEnd (cs : List ℤ) (e : ℤ) (room : ℕ) (name : Name) (p : ℤ × Name) (t : Lexer) :
    Prop where
  good : (∀ c ∈ cs, ¬ IsLine c) → p.1 = e ∧ p.2.id = name.id ++ spell cs ∧ Ahead t room []
  bad : (∃ c ∈ cs, IsLine c) → p.1 = replacement ∧ t.errors ≠ [] ∧ p.2.id ≠ []
  room : t.fUngetc.length ≤ room

theorem identifierLoop_ahead (fuel : ℕ) (hcs : Plain cs) (he : EndsLoop e)
    (htail : normalise tail = take e) {name : Name} (hname : name.id ≠ [])
    (h : Ahead s room (normalise (escapedCodes false cs ++ tail)))
    (hfuel : (normalise (escapedCodes false cs ++ tail)).length < fuel) :
    Ensures (identifierLoop fuel name) s (fun _ => False) (LoopEnd cs e room name) := by
  induction fuel generalizing s cs name room with
  | zero => omega
  | succ fuel ih =>
    rw [identifierLoop]
    cases cs with
    | nil =>
      rw [escapedCodes, List.nil_append, htail] at h
      have hend : ∀ t, Ahead t room [] → Ensures (if e = '\\' then do
            let c ← escape
            if c = replacement then pure (c, name)
            else do
              let name ← name.add c
              identifierLoop fuel name
          else if isIdentifier e then do
            let name ← name.add e
            identifierLoop fuel name
          else pure (e, name)) t (fun _ => False) (LoopEnd [] e room name) := by
        intro t ht
        rw [if_neg he.notSlash, if_neg (by simp [he.notName])]
        refine Ensures.pure ⟨fun _ => ⟨rfl, ?_, ht⟩, fun hline => ?_, ht.room⟩
        · rw [spell_nil, List.append_nil]
        · simp at hline
      by_cases heof : e = eof
      · rw [heof] at h hend ⊢
        rw [take_eof] at h
        exact Ensures.bind (h.getc_end (hend s h))
      · rw [take_of_ne heof] at h
        exact Ensures.bind (h.getc fun t ht => hend t ht.less)
    | cons c cs =>
      have hcode := (hcs c List.mem_cons_self).1
      rw [escapedCodes, escapedCode_false] at h hfuel
      -- The loop goes on after the character.
      have hmore : ∀ t, Ahead t room (normalise (escapedCodes false cs ++ tail)) → ¬ IsLine c →
          (normalise (escapedCodes false cs ++ tail)).length < fuel →
          Ensures (do let name ← name.add c; identifierLoop fuel name) t (fun _ => False)
            (LoopEnd (c :: cs) e room name) := by
        intro t ht hline hlength
        refine Ensures.bind (Name.add_ahead ht hcode fun name' hadd ht => ?_)
        have hid : name'.id = name.id ++ spell [c] := congrArg Name.id hadd
        have hne : name'.id ≠ [] := by
          rw [hid]
          exact fun hnil => hname (List.append_eq_nil_iff.mp hnil).1
        refine (ih hcs.tail hne ht hlength).mono fun p u hend => ⟨fun hgood => ?_, ?_, hend.room⟩
        · obtain ⟨hp, hstr, hu⟩ := hend.good (List.forall_mem_cons.mp hgood).2
          refine ⟨hp, ?_, hu⟩
          rw [hstr, hid, List.append_assoc, ← spell_append]
          rfl
        · rintro ⟨d, hd, hdline⟩
          rcases List.mem_cons.mp hd with rfl | hd
          · exact absurd hdline hline
          · exact hend.bad ⟨d, hd, hdline⟩
      by_cases hident : isIdentifier c = true
      · have hline := isIdentifier_not_line hident
        rw [if_pos hident, List.singleton_append, List.cons_append, normalise_cons hline] at h hfuel
        rw [List.length_cons] at hfuel
        refine Ensures.bind (h.getc fun t ht => ?_)
        rw [if_neg (by rintro rfl; exact absurd hident (by decide)), if_pos hident]
        exact hmore t ht.less hline (by omega)
      · have hslash : ¬ IsLine '\\' := by decide
        rw [if_neg hident, List.cons_append, List.cons_append, normalise_cons hslash,
          List.singleton_append, List.cons_append] at h hfuel
        rw [List.length_cons] at hfuel
        refine Ensures.bind (h.getc fun t ht => ?_)
        rw [if_pos rfl]
        by_cases hline : IsLine c
        · obtain ⟨r, hr⟩ := normalise_line hline (escapedCodes false cs ++ tail)
          rw [hr] at ht
          refine Ensures.bind (ht.escape_error (Or.inl rfl) fun u herrors _ hunget => ?_)
          rw [if_pos rfl]
          exact Ensures.pure ⟨fun hgood => absurd hline (hgood c List.mem_cons_self),
            fun _ => ⟨rfl, herrors, hname⟩, by omega⟩
        · rw [normalise_cons hline] at ht hfuel
          rw [List.length_cons] at hfuel
          have hnot : c ≠ replacement := by
            rintro rfl
            exact hident (by decide)
          refine Ensures.bind (ht.escape ?_ (fun h => hline ((isLine_iff c).mpr (Or.inl h))) hnot
            fun u hu => ?_)
          · rw [Bool.eq_false_iff]
            exact fun hhex => hident (isHex_isIdentifier hhex)
          rw [if_neg hnot]
          exact hmore u (hu.mono (by omega)) hline (by omega)

/-- A name is read with the string `str` where `good` holds, and only there. -/
structure NameRead (good : Prop) (str : Bytes) (tok : Token) (t : Lexer) : Prop where
  iff : tok.fType = .identifier ∧ t.errors = [] ↔ good
  string : good → tok.fString = str
  type : tok.fType ≠ .eofToken

theorem identifierRest_ahead (fuel : ℕ) (hcs : Plain cs) (he : EndsLoop e)
    (htail : normalise tail = take e) (hle : e = eof ∨ 0 < e ∧ e ≤ 0x10FFFF) {name : Name}
    (hname : name.id ≠ []) (h : Ahead s room (normalise (escapedCodes false cs ++ tail)))
    (hroom : room < ungetSize)
    (hfuel : (normalise (escapedCodes false cs ++ tail)).length < fuel) :
    Ensures (identifierRest fuel .identifier name) s
      (fun _ => ¬ ((∀ c ∈ cs, ¬ IsLine c) ∧ e ≠ '('))
      (NameRead ((∀ c ∈ cs, ¬ IsLine c) ∧ e ≠ '(') (name.id ++ spell cs)) := by
  rw [identifierRest]
  refine Ensures.bind (((identifierLoop_ahead fuel hcs he htail hname h hfuel).mono_throws
    fun _ hfalse => hfalse.elim).mono fun p t hend => ?_)
  obtain ⟨c, name'⟩ := p
  dsimp only
  by_cases hlines : ∃ c ∈ cs, IsLine c
  · obtain ⟨hc, herrors, hne⟩ := hend.bad hlines
    change c = replacement at hc
    change name'.id ≠ [] at hne
    have hbad : ¬ ((∀ c ∈ cs, ¬ IsLine c) ∧ e ≠ '(') := by
      obtain ⟨d, hd, hline⟩ := hlines
      exact fun hgood => hgood.1 d hd hline
    rw [if_neg hne, hc, if_neg (fun hparen => absurd hparen.1 (by decide))]
    refine Ensures.bind (ungetc_lost (Or.inr rfl) (Ensures.pure ⟨?_, fun hgood => ?_, by simp⟩))
    · exact iff_of_false (fun hsame => herrors hsame.2) hbad
    · exact absurd hgood hbad
  · have hall : ∀ c ∈ cs, ¬ IsLine c := by
      intro d hd hline
      exact hlines ⟨d, hd, hline⟩
    obtain ⟨hc, hstr, ht⟩ := hend.good hall
    change c = e at hc
    change name'.id = name.id ++ spell cs at hstr
    have hne : name'.id ≠ [] := by
      rw [hstr]
      exact fun hnil => hname (List.append_eq_nil_iff.mp hnil).1
    rw [if_neg hne, hc]
    by_cases hparen : e = '('
    · have hbad : ¬ ((∀ c ∈ cs, ¬ IsLine c) ∧ e ≠ '(') := fun hgood => hgood.2 hparen
      rw [if_pos ⟨hparen, by decide⟩]
      refine Ensures.ite (fun _ => ?_)
        (fun _ => Ensures.pure ⟨?_, fun hgood => absurd hgood hbad, ?_⟩)
      · refine ((urlArgument_returns fuel t).mono_throws fun _ _ => hbad).mono
          fun tok u hurl => ⟨?_, fun hgood => absurd hgood hbad, ?_⟩
        · refine iff_of_false (fun hsame => ?_) hbad
          rw [hurl.1] at hsame
          cases hsame.1
        · rw [hurl.1]
          decide
      · exact iff_of_false (fun hsame => by cases hsame.1) hbad
      · simp
    · rw [if_neg (fun hboth => hparen hboth.1)]
      have hnode : ∀ u : Lexer, u.errors = [] → NameRead ((∀ c ∈ cs, ¬ IsLine c) ∧ e ≠ '(')
          (name.id ++ spell cs) ⟨.identifier, name'.id, name'.lowercaseId, 0, false, none⟩ u :=
        fun u hu => ⟨iff_of_true ⟨rfl, hu⟩ ⟨hall, hparen⟩, fun _ => hstr, by simp⟩
      rcases hle with heof | ⟨hpos, hle⟩
      · exact Ensures.bind (ungetc_lost (Or.inl heof) (Ensures.pure (hnode t ht.errors)))
      · exact Ensures.bind (ht.ungetc hpos hle he.ne_replacement hroom fun u hu =>
          Ensures.pure (hnode u hu.errors))

def dropLost (cs : List ℤ) : List ℤ := if cs.head? = some replacement then cs.tail else cs

/-- The first character of the rest of a name. -/
structure First (cs : List ℤ) (f x : ℤ) (l : List ℤ) : Prop where
  range : 0 < x ∧ x ≤ 0x10FFFF
  hex : isHex x = true → cs.head? = some x
  space : isSpace x = true → cs = [] ∧ l = []
  plus : x = '+' → l = []
  back : normalise (escapedCodes false (dropLost cs) ++ [f]) = hand x ++ l

theorem asRead_range (h : 0 < c ∧ c ≤ 0x10FFFF) : 0 < asRead c ∧ asRead c ≤ 0x10FFFF := by
  rw [asRead]
  split_ifs
  · decide
  · exact h

theorem EndsName.range (h : EndsName f) : 0 < f ∧ f ≤ 0x10FFFF :=
  ⟨lt_of_le_of_ne h.code.range.1 h.ne.symm, h.code.range.2⟩

theorem ne_eof_of_pos (h : 0 < c) : c ≠ eof := by
  rintro rfl
  exact absurd h (by decide)

theorem exists_first (hcs : Plain cs) (hf : EndsName f) :
    ∃ x l, normalise (escapedCodes false cs ++ [f]) = x :: l ∧ First cs f x l := by
  cases cs with
  | nil =>
    have hend := hf.endsLoop
    have hrange := asRead_range hf.range
    refine ⟨asRead f, [], normalise_singleton f, hrange, fun hhex => ?_, fun _ => ⟨rfl, rfl⟩,
      fun _ => rfl, ?_⟩
    · have hname := isHex_isIdentifier hhex
      rw [hend.notName] at hname
      cases hname
    · rw [hand_of_ne (ne_eof_of_pos hrange.1) hend.ne_replacement]
      exact normalise_singleton f
  | cons c cs =>
    have hpos := hcs.pos c List.mem_cons_self
    by_cases hident : isIdentifier c = true
    · have hline := isIdentifier_not_line hident
      refine ⟨c, normalise (escapedCodes false cs ++ [f]), ?_,
        ⟨hpos, (hcs c List.mem_cons_self).1.range.2⟩, fun _ => rfl, fun hspace => ?_,
        fun hplus => ?_, ?_⟩
      · rw [escapedCodes, escapedCode_false, if_pos hident, List.singleton_append,
          List.cons_append, normalise_cons hline]
      · simp only [isSpace, Bool.or_eq_true, decide_eq_true_eq] at hspace
        rcases hspace with (rfl | rfl) | rfl <;> exact absurd hident (by decide)
      · rw [hplus] at hident
        exact absurd hident (by decide)
      · by_cases hlost : c = replacement
        · rw [hlost, hand_replacement, dropLost, if_pos (by rfl), List.tail_cons, List.nil_append]
        · rw [hand_of_ne (ne_eof_of_pos hpos) hlost, dropLost, if_neg (by simpa using hlost),
            escapedCodes, escapedCode_false, if_pos hident, List.singleton_append,
            List.cons_append, normalise_cons hline, List.singleton_append]
    · have hlost : c ≠ replacement := by
        rintro rfl
        exact hident (by decide)
      have hcodes : normalise (escapedCodes false (c :: cs) ++ [f]) =
          ('\\' : ℤ) :: normalise (c :: (escapedCodes false cs ++ [f])) := by
        rw [escapedCodes, escapedCode_false, if_neg hident, List.cons_append, List.cons_append,
          normalise_cons (by decide), List.singleton_append, List.cons_append]
      refine ⟨'\\', _, hcodes, by decide, fun h => absurd h (by decide),
        fun h => absurd h (by decide), fun h => absurd h (by decide), ?_⟩
      rw [dropLost, if_neg (by simpa using hlost), hcodes]
      rfl

theorem length_hand (c : ℤ) (l : List ℤ) : (hand c ++ l).length ≤ l.length + 1 := by
  rw [List.length_append, hand]
  split_ifs
  · rw [List.length_nil]
    omega
  · rw [List.length_singleton]
    omega

theorem Ahead.ungetc_hand {post : Unit → Lexer → Prop} (h : Ahead s room l)
    (hc : 0 < c ∧ c ≤ 0x10FFFF) (hroom : room < ungetSize)
    (hpost : ∀ t, Ahead t (room + 1) (hand c ++ l) → post () t) :
    Ensures (Css.ungetc c) s throws post := by
  by_cases hlost : c = replacement
  · refine ungetc_lost (Or.inr hlost) (hpost s ?_)
    rw [hlost, hand_replacement]
    exact h.mono (Nat.le_succ room)
  · rw [hand_of_ne (ne_eof_of_pos hc.1) hlost] at hpost
    exact h.ungetc hc.1 hc.2 hlost hroom hpost

/-- A code after which the lexer looks at the next one, and puts it back. -/
def peeks (c : ℤ) : Bool := isDigit c || c = 'u' || c = 'U'

/-- The identifiers that are printed and read again, with the character behind them. -/
structure Survives (cs : List ℤ) (f : ℤ) : Prop where
  lines : ∀ c ∈ cs, ¬ IsLine c
  first : cs.head? ≠ some replacement
  second : ∀ c rest, cs = c :: replacement :: rest → peeks c = false
  follower : f ≠ '('

/-- What is read after the first character decides. -/
theorem NameRead.outcome {read : List ℤ} {tok : Token} (hplain : Plain (c :: cs))
    (hline : ¬ IsLine c) (hne : c ≠ replacement) (hparen : e = '(' ↔ f = '(')
    (hread : NameRead ((∀ d ∈ read, ¬ IsLine d) ∧ e ≠ '(') (spell [c] ++ spell read) tok t)
    (hsame : read = if peeks c then dropLost cs else cs) :
    Outcome .identifier (spell (c :: cs)) (Survives (c :: cs) f) tok t := by
  by_cases hlost : peeks c = true ∧ cs.head? = some replacement
  · obtain ⟨rest, rfl⟩ := List.head?_eq_some_iff.mp hlost.2
    rw [if_pos hlost.1, dropLost, if_pos hlost.2, List.tail_cons] at hsame
    subst hsame
    refine iff_of_false (fun ⟨htype, hstr, herrors⟩ => ?_) (fun hgood => ?_)
    · rw [hread.string (hread.iff.mp ⟨htype, herrors⟩), ← spell_append] at hstr
      have hcs := spell_injective (fun d hd => ?_) hplain.isCode hstr
      · exact absurd (congrArg List.length hcs) (by simp)
      · rcases List.mem_cons.mp hd with rfl | hd
        · exact hplain.isCode _ List.mem_cons_self
        · exact hplain.isCode d (List.mem_cons_of_mem _ (List.mem_cons_of_mem _ hd))
    · have hsecond := hgood.second c _ rfl
      rw [hlost.1] at hsecond
      cases hsecond
  · have hread' : read = cs := by
      rw [hsame]
      split_ifs with hpeeks
      · rw [dropLost, if_neg (fun hhead => hlost ⟨hpeeks, hhead⟩)]
      · rfl
    subst hread'
    rw [← spell_append, List.singleton_append] at hread
    have hiff : (∀ d ∈ read, ¬ IsLine d) ∧ e ≠ '(' ↔ Survives (c :: read) f := by
      constructor
      · rintro ⟨hlines, hnot⟩
        refine ⟨List.forall_mem_cons.mpr ⟨hline, hlines⟩, by simpa using hne, ?_,
          fun hf => hnot (hparen.mpr hf)⟩
        rintro d rest heq
        obtain ⟨rfl, rfl⟩ := List.cons.inj heq
        rw [Bool.eq_false_iff]
        exact fun hpeeks => hlost ⟨hpeeks, rfl⟩
      · exact fun hgood => ⟨(List.forall_mem_cons.mp hgood.lines).2,
          fun he => hgood.follower (hparen.mp he)⟩
    rw [Outcome, ← hiff, ← hread.iff]
    exact ⟨fun h => ⟨h.1, h.2.2⟩, fun h => ⟨h.1, hread.string (hread.iff.mp h), h.2⟩⟩

theorem mem_of_mem_dropLost {d : ℤ} (h : d ∈ dropLost cs) : d ∈ cs := by
  rw [dropLost] at h
  split_ifs at h
  · exact List.mem_of_mem_tail h
  · exact h

theorem Survives.good {read : List ℤ} (h : Survives (c :: cs) f) (hparen : e = '(' ↔ f = '(')
    (hread : ∀ d ∈ read, d ∈ cs) : (∀ d ∈ read, ¬ IsLine d) ∧ e ≠ '(' :=
  ⟨fun d hd => h.lines d (List.mem_cons_of_mem c (hread d hd)),
    fun he => h.follower (hparen.mp he)⟩

theorem plain_escapedCodes (h : Plain cs) (firstChar : Bool) :
    Plain (escapedCodes firstChar cs) := by
  induction cs generalizing firstChar with
  | nil => simp [escapedCodes, Plain]
  | cons c cs ih =>
    have hslash : IsCode ('\\' : ℤ) ∧ ('\\' : ℤ) ≠ 0 := by decide
    have hthree : IsCode ('3' : ℤ) ∧ ('3' : ℤ) ≠ 0 := by decide
    have hspace : IsCode (' ' : ℤ) ∧ (' ' : ℤ) ≠ 0 := by decide
    have hc := h c List.mem_cons_self
    intro d hd
    rw [escapedCodes] at hd
    rcases List.mem_append.mp hd with hd | hd
    · rw [escapedCode] at hd
      split_ifs at hd <;>
        simp only [List.mem_cons, List.mem_append, List.not_mem_nil, or_false] at hd
      · rw [hd]
        exact hc
      · rcases hd with (rfl | rfl | rfl) | rfl
        · exact hslash
        · exact hthree
        · exact hc
        · exact hspace
      · rcases hd with rfl | rfl | rfl
        · exact hslash
        · exact hthree
        · exact hc
      · rcases hd with rfl | rfl
        · exact hslash
        · exact hc
    · exact ih h.tail false d hd

section Turns

variable {type : NodeType} {str : Bytes} {good : Prop} {m : Lex Token} {fuel : ℕ}

theorem tokenOf_outcome (h : Ensures m s throws (Outcome type str good)) :
    Ensures (tokenOf m) s throws (TurnOutcome type str good) :=
  Ensures.bind (h.mono fun tok _ htok => Ensures.pure (Or.inl ⟨tok, rfl, htok⟩))

theorem markedIdentifier_outcome (h : Ensures (identifier fuel c) s throws fun tok t =>
      Outcome type str good tok t ∧ (tok.fType = .eofToken → t.errors ≠ [] ∧ ¬ good)) :
    Ensures (markedIdentifier fuel c) s throws (TurnOutcome type str good) := by
  refine Ensures.bind (h.mono fun tok t ⟨htok, hnone⟩ => ?_)
  refine Ensures.ite (fun heof => Ensures.pure (Or.inr ⟨rfl, hnone heof⟩)) (fun _ => ?_)
  exact Ensures.pure (Or.inl ⟨tok, rfl, htok⟩)

/-- The rest of a name whose first character is known. -/
theorem nameRest_outcome {read : List ℤ} (hplain : Plain (c :: cs)) (hline : ¬ IsLine c)
    (hne : c ≠ replacement) (hread : Plain read) (hsub : ∀ d ∈ read, d ∈ cs)
    (hsame : read = if peeks c then dropLost cs else cs) (he : EndsLoop e)
    (htail : normalise tail = take e) (hle : e = eof ∨ 0 < e ∧ e ≤ 0x10FFFF)
    (hparen : e = '(' ↔ f = '(') (h : Ahead s room (normalise (escapedCodes false read ++ tail)))
    (hroom : room < ungetSize) (hfuel : s.codes.length < fuel) :
    Ensures (do let name ← (⟨[], []⟩ : Name).add c; identifierRest fuel .identifier name) s
      (fun _ => ¬ Survives (c :: cs) f) fun tok t =>
        Outcome .identifier (spell (c :: cs)) (Survives (c :: cs) f) tok t ∧
          tok.fType ≠ .eofToken := by
  obtain ⟨b, bs, hc⟩ := exists_encodes (hplain.isCode c List.mem_cons_self)
  refine Ensures.bind (Name.add_ahead h (hplain.isCode c List.mem_cons_self) fun name hadd h => ?_)
  have hid : name.id = spell [c] := congrArg Name.id hadd
  have hname : name.id ≠ [] := by
    rw [hid, hc.spell]
    simp
  rw [h.codes] at hfuel
  refine ((identifierRest_ahead fuel hread he htail hle hname h hroom hfuel).mono_throws
    fun _ hbad hgood => hbad (hgood.good hparen hsub)).mono fun tok t hnamed => ?_
  rw [hid] at hnamed
  exact ⟨hnamed.outcome hplain hline hne hparen hsame, hnamed.type⟩

/-- The name is followed by the character `f`. -/
theorem nameRest_follower {read : List ℤ} (hplain : Plain (c :: cs)) (hf : EndsName f)
    (hline : ¬ IsLine c) (hne : c ≠ replacement) (hsub : ∀ d ∈ read, d ∈ cs)
    (hsame : read = if peeks c then dropLost cs else cs)
    (h : Ahead s room (normalise (escapedCodes false read ++ [f]))) (hroom : room < ungetSize)
    (hfuel : s.codes.length < fuel) :
    Ensures (do let name ← (⟨[], []⟩ : Name).add c; identifierRest fuel .identifier name) s
      (fun _ => ¬ Survives (c :: cs) f) fun tok t =>
        Outcome .identifier (spell (c :: cs)) (Survives (c :: cs) f) tok t ∧
          tok.fType ≠ .eofToken := by
  have hrange := asRead_range hf.range
  refine nameRest_outcome hplain hline hne (fun d hd => hplain.tail d (hsub d hd)) hsub hsame
    hf.endsLoop ?_ (Or.inr hrange) (asRead_eq_iff (by decide)) h hroom hfuel
  rw [take_of_ne (ne_eof_of_pos hrange.1), normalise_singleton]

theorem isStartIdentifier_not_digit (h : isStartIdentifier c = true) : isDigit c = false := by
  rw [Bool.eq_false_iff]
  intro hc
  simp only [isDigit, Bool.and_eq_true, decide_eq_true_eq, Char.reduceToNat,
    Nat.cast_ofNat] at hc
  simp only [isStartIdentifier, isLetter, Bool.or_eq_true, Bool.and_eq_true, decide_eq_true_eq,
    Char.reduceToNat, Nat.cast_ofNat] at h
  omega

/-- A code that is escaped by a backslash alone is not a hexadecimal digit. -/
theorem not_isHex (hstart : ¬ isStartIdentifier c = true) (hdigit : ¬ isDigit c = true) :
    isHex c = false := by
  rw [Bool.eq_false_iff]
  intro hhex
  rw [Bool.not_eq_true] at hdigit
  simp only [isHex, Bool.or_eq_true, hdigit, Bool.false_eq_true, false_or, Bool.and_eq_true,
    decide_eq_true_eq, Char.reduceToNat, Nat.cast_ofNat] at hhex
  refine hstart ?_
  simp only [isStartIdentifier, isLetter, Bool.or_eq_true, Bool.and_eq_true, decide_eq_true_eq,
    Char.reduceToNat, Nat.cast_ofNat]
  omega

/-- The first character of a name is not special to the lexer, unless it is a letter `u`. -/
theorem tokenAt_start (fuel : ℕ) (h : isStartIdentifier c = true) :
    tokenAt fuel c = if c = 'u' ∨ c = 'U' then letterU fuel c else tokenOf (identifier fuel c) := by
  have hne : ∀ d : ℤ, isStartIdentifier d = false → c ≠ d := by
    rintro d hd rfl
    rw [h] at hd
    cases hd
  have hspace : ¬ (isSpace c = true ∨ c = 12) := by
    rintro (hc | rfl)
    · simp only [isSpace, Bool.or_eq_true, decide_eq_true_eq] at hc
      rcases hc with (rfl | rfl) | rfl <;> exact absurd h (by decide)
    · exact absurd h (by decide)
  have hsingle : singleToken c = none := by
    unfold singleToken
    rw [if_neg (hne _ (by decide)), if_neg (hne _ (by decide)), if_neg (hne _ (by decide)),
      if_neg (hne _ (by decide)), if_neg (hne _ (by decide)), if_neg (hne _ (by decide)),
      if_neg (hne _ (by decide)), if_neg (hne _ (by decide)), if_neg (hne _ (by decide))]
  have hor : ∀ d d' : ℤ, isStartIdentifier d = false → isStartIdentifier d' = false →
      ¬ (c = d ∨ c = d') := fun d d' hd hd' => not_or.mpr ⟨hne d hd, hne d' hd'⟩
  unfold tokenAt
  rw [if_neg (hne _ (by decide)), if_neg (hne _ (by decide)), if_neg (hne _ (by decide)),
    if_neg (hne _ (by decide)), if_neg (hne _ (by decide)), if_neg (hne _ (by decide)),
    if_neg (hne _ (by decide)), if_neg (hne _ (by decide)),
    if_neg (hor _ _ (by decide) (by decide)),
    if_neg (hne _ (by decide)), if_neg (hne _ (by decide)), if_neg (hne _ (by decide)),
    if_neg (hne _ (by decide)), if_neg (hne _ (by decide)),
    if_neg (hor _ _ (by decide) (by decide)),
    if_neg (hne _ (by decide)), if_neg hspace,
    if_neg (by simp [isStartIdentifier_not_digit h]), if_neg (hne _ (by decide)),
    if_neg (hne _ (by decide)), if_neg (hor _ _ (by decide) (by decide)), hsingle]
  simp only [h, if_true]

theorem identifier_start (fuel : ℕ) (h : isStartIdentifier c = true) :
    identifier fuel c =
      (do let name ← (⟨[], []⟩ : Name).add c; identifierRest fuel .identifier name) := by
  have hne : ∀ d : ℤ, isStartIdentifier d = false → c ≠ d := by
    rintro d hd rfl
    rw [h] at hd
    cases hd
  rw [identifier, if_neg (hne _ (by decide)), if_neg (hne _ (by decide)), identifierDash,
    if_neg (hne _ (by decide)), identifierStart, if_neg (hne _ (by decide)), if_pos h]

theorem identifier_escape (fuel : ℕ) : identifier fuel '\\' = (do
    let c ← escape
    if c = replacement then identifierRest fuel .identifier ⟨[], []⟩
    else do
      let name ← (⟨[], []⟩ : Name).add c
      identifierRest fuel .identifier name) := by
  rw [identifier, if_neg (by decide), if_neg (by decide), identifierDash, if_neg (by decide),
    identifierStart, if_pos rfl]

theorem tokenAt_escape (fuel : ℕ) : tokenAt fuel '\\' = markedIdentifier fuel '\\' := rfl

/-- A name that starts with a letter `u`, of which the next character is looked at. -/
theorem letterU_outcome (hplain : Plain (c :: cs)) (hf : EndsName f) (hc : c = 'u' ∨ c = 'U')
    (h : Ahead s 0 (normalise (escapedCodes false cs ++ [f]))) (hfuel : s.codes.length < fuel) :
    Ensures (letterU fuel c) s (fun _ => ¬ Survives (c :: cs) f)
      (TurnOutcome .identifier (spell (c :: cs)) (Survives (c :: cs) f)) := by
  have hstart : isStartIdentifier c = true := by rcases hc with rfl | rfl <;> decide
  have hline : ¬ IsLine c := by rcases hc with rfl | rfl <;> decide
  have hne : c ≠ replacement := by rcases hc with rfl | rfl <;> decide
  have hpeeks : peeks c = true := by rcases hc with rfl | rfl <;> decide
  obtain ⟨x, l, hcodes, hfirst⟩ := exists_first hplain.tail hf
  rw [h.codes, hcodes, List.length_cons] at hfuel
  rw [hcodes] at h
  -- The character is put back, and the name is read.
  have hname : ∀ u : Lexer, Ahead u 1 (hand x ++ l) →
      Ensures (tokenOf (identifier fuel c)) u (fun _ => ¬ Survives (c :: cs) f)
        (TurnOutcome .identifier (spell (c :: cs)) (Survives (c :: cs) f)) := by
    intro u hu
    have hlength : u.codes.length < fuel := by
      have hhand := length_hand x l
      rw [hu.codes]
      omega
    rw [← hfirst.back] at hu
    refine tokenOf_outcome ?_
    rw [identifier_start fuel hstart]
    exact (nameRest_follower hplain hf hline hne (fun d hd => mem_of_mem_dropLost hd)
      (by rw [if_pos hpeeks]) hu (by decide) hlength).mono fun tok t h => h.1
  rw [letterU]
  refine Ensures.bind (h.getc fun t ht => ?_)
  refine Ensures.ite (fun hplus => ?_) (fun _ => ?_)
  · have hnil := hfirst.plus hplus
    subst hnil
    refine Ensures.bind (ht.getc_end ?_)
    rw [if_neg (by decide)]
    refine Ensures.bind (ungetc_lost (Or.inl rfl) (Ensures.bind ?_))
    exact ht.ungetc_hand hfirst.range (by decide) hname
  · exact Ensures.bind (ht.ungetc_hand hfirst.range (by decide) hname)

theorem digitName_outcome (hplain : Plain (c :: cs)) (hf : EndsName f) (hdigit : isDigit c = true)
    (h : Ahead s 0 (('3' : ℤ) :: c :: normalise ((if isHex (cs.headD 0) then [(' ' : ℤ)] else []) ++
      (escapedCodes false cs ++ [f])))) (hfuel : s.codes.length < fuel) :
    Ensures (identifier fuel '\\') s (fun _ => ¬ Survives (c :: cs) f) fun tok t =>
      Outcome .identifier (spell (c :: cs)) (Survives (c :: cs) f) tok t ∧
        tok.fType ≠ .eofToken := by
  have hrange : 48 ≤ c ∧ c ≤ 57 := by simpa [isDigit] using hdigit
  have hhex : isHex c = true := by simp [isHex, hdigit]
  have hline : ¬ IsLine c := isIdentifier_not_line (isHex_isIdentifier hhex)
  have hne : c ≠ replacement := by
    rintro rfl
    exact absurd hdigit (by decide)
  have hpeeks : peeks c = true := by simp [peeks, hdigit]
  have hzero : c ≠ 0 := by omega
  rw [h.codes, List.length_cons, List.length_cons] at hfuel
  rw [identifier_escape, escape]
  refine Ensures.bind (Ensures.bind (h.getc fun t ht => ?_))
  rw [if_neg (by decide), if_neg (by decide), if_neg (by decide), if_pos (by decide)]
  refine Ensures.bind (hexToDec_ensures (by decide) ?_)
  rw [escapeDigits]
  refine Ensures.bind (ht.getc fun u hu => ?_)
  rw [if_pos hhex]
  refine Ensures.bind (hexToDec_ensures hhex ?_)
  have hvalue : (if isDigit ('3' : ℤ) = true then ('3' : ℤ) - '0'
      else toLower '3' - 'a' + 10) * 16 +
      (if isDigit c = true then c - '0' else toLower c - 'a' + 10) = c := by
    rw [if_pos (by decide), if_pos hdigit]
    simp only [Char.reduceToNat, Nat.cast_ofNat]
    omega
  rw [hvalue, if_neg (by omega), escapeDigits]
  -- The name goes on after the escape.
  have hend : ∀ {v : Lexer} {post : Token → Lexer → Prop},
      Ensures (do let name ← (⟨[], []⟩ : Name).add c; identifierRest fuel .identifier name) v
        (fun _ => ¬ Survives (c :: cs) f) post →
      Ensures (escapeEnd c) v (fun _ => ¬ Survives (c :: cs) f) fun a w =>
        Ensures (if a = replacement then identifierRest fuel .identifier ⟨[], []⟩
          else do
            let name ← (⟨[], []⟩ : Name).add a
            identifierRest fuel .identifier name) w (fun _ => ¬ Survives (c :: cs) f) post := by
    intro v post hrest
    rw [escapeEnd, if_neg hzero]
    refine Ensures.pure ?_
    rwa [if_neg hne]
  by_cases hsep : isHex (cs.headD 0) = true
  · rw [if_pos hsep, List.singleton_append, normalise_cons (by decide)] at hu hfuel
    rw [List.length_cons] at hfuel
    refine Ensures.bind (hu.getc fun v hv => ?_)
    rw [if_neg (by decide), if_pos (by decide)]
    refine hend (nameRest_follower hplain hf hline hne (fun d hd => hd) ?_ hv (by decide)
      (by rw [hv.codes]; omega))
    have hhead : cs.head? ≠ some replacement := by
      intro hhead
      rw [List.headD_eq_head?_getD, hhead] at hsep
      exact absurd hsep (by decide)
    rw [if_pos hpeeks, dropLost, if_neg hhead]
  · obtain ⟨x, l, hcodes, hfirst⟩ := exists_first hplain.tail hf
    rw [if_neg hsep, List.nil_append, hcodes] at hu hfuel
    rw [List.length_cons] at hfuel
    have hxhex : ¬ isHex x = true := by
      intro hx
      rw [List.headD_eq_head?_getD, hfirst.hex hx] at hsep
      exact hsep hx
    refine Ensures.bind (hu.getc fun v hv => ?_)
    rw [if_neg hxhex]
    by_cases hspace : isSpace x = true
    · obtain ⟨rfl, rfl⟩ := hfirst.space hspace
      rw [if_pos hspace]
      have hx : asRead f = x := by
        rw [escapedCodes, List.nil_append, normalise_singleton] at hcodes
        exact (List.cons.inj hcodes).1
      have hparen : eof = '(' ↔ f = '(' := by
        refine iff_of_false (by decide) ?_
        rintro rfl
        rw [← hx] at hspace
        exact absurd hspace (by decide)
      have hnil : Ahead v 0 (normalise (escapedCodes false [] ++ [])) := by
        rw [escapedCodes, List.nil_append, normalise]
        exact hv
      refine hend (nameRest_outcome hplain hline hne hplain.tail (fun d hd => hd) ?_ endsLoop_eof ?_
        (Or.inl rfl) hparen hnil (by decide) (by rw [hv.codes, List.length_nil]; omega))
      · rw [dropLost]
        simp
      · rw [normalise, take_eof]
    · rw [if_neg hspace]
      refine Ensures.bind (hv.ungetc_hand hfirst.range (by decide) fun w hw => ?_)
      have hlength : w.codes.length < fuel := by
        have hhand := length_hand x l
        rw [hw.codes]
        omega
      rw [← hfirst.back] at hw
      exact hend (nameRest_follower hplain hf hline hne (fun d hd => mem_of_mem_dropLost hd)
        (by rw [if_pos hpeeks]) hw (by decide) hlength)

/-- A name whose first character is not read from its escape. -/
theorem brokenName_outcome (hplain : Plain l) (hbad : ¬ good)
    (h : Ahead s 0 (c :: normalise l)) (hc : c = '\n' ∨ c = replacement)
    (hfuel : s.codes.length < fuel) :
    Ensures (identifier fuel '\\') s (fun _ => ¬ good) fun tok t =>
      Outcome type str good tok t ∧ (tok.fType = .eofToken → t.errors ≠ [] ∧ ¬ good) := by
  rw [identifier_escape]
  refine Ensures.bind (h.escape_error hc fun t herrors hcodes hroom => ?_)
  rw [if_pos rfl]
  have hfine : Fine (fun _ => True) t.codes := by
    rw [hcodes]
    exact fun d hd => ⟨(normalise_range hplain d hd).1, fun _ => trivial⟩
  rw [h.codes, List.length_cons] at hfuel
  refine ((identifierRest_ensures fuel .identifier ⟨[], []⟩ (by rw [hcodes]; omega) hfine
    (by omega)).mono_throws fun _ _ => hbad).mono fun tok u ⟨v, hread⟩ => ?_
  have hpos := List.length_pos_iff.mpr herrors
  have hkept := hread.errors
  have herrors' : u.errors ≠ [] := List.ne_nil_of_length_pos (by omega)
  exact ⟨iff_of_false (fun hsame => herrors' hsame.2.2) hbad, fun _ => ⟨herrors', hbad⟩⟩

theorem turn_identifier (hplain : Plain (c :: cs)) (hf : EndsName f)
    (h : Ahead s 0 (normalise (escapedCodes true (c :: cs) ++ [f]))) :
    Ensures turn s (fun _ => ¬ Survives (c :: cs) f)
      (TurnOutcome .identifier (spell (c :: cs)) (Survives (c :: cs) f)) := by
  have hturns := s.codes_lt_turns
  rw [turn]
  rw [escapedCodes, escapedCode] at h
  simp only [Bool.true_and, Bool.not_true, Bool.false_and, Bool.or_false] at h
  by_cases hstart : isStartIdentifier c = true
  · have hident : isIdentifier c = true := by
      simp only [isStartIdentifier, isIdentifier, Bool.or_eq_true, Bool.and_eq_true] at hstart ⊢
      rcases hstart with (hletter | hlarge) | hunder
      · exact Or.inl (Or.inl (Or.inl (Or.inr hletter)))
      · exact Or.inr hlarge.1
      · exact Or.inl (Or.inr hunder)
    have hline := isIdentifier_not_line hident
    have hne : c ≠ replacement := by
      rintro rfl
      exact absurd hstart (by decide)
    rw [if_pos hstart, List.singleton_append, List.cons_append, normalise_cons hline] at h
    rw [h.codes, List.length_cons] at hturns
    refine Ensures.bind (Ensures.bind (h.getc fun t ht => ?_))
    have hfuel : t.codes.length < s.turns := by
      rw [ht.codes]
      omega
    rw [tokenAt_start _ hstart]
    refine Ensures.ite (fun hc => letterU_outcome hplain hf hc ht hfuel) (fun hc => ?_)
    have hpeeks : peeks c = false := by
      rw [not_or] at hc
      rw [peeks, isStartIdentifier_not_digit hstart, decide_eq_false hc.1, decide_eq_false hc.2]
      rfl
    refine tokenOf_outcome ?_
    rw [identifier_start _ hstart]
    exact (nameRest_follower hplain hf hline hne (fun d hd => hd) (by rw [hpeeks]; rfl) ht
      (by decide) hfuel).mono fun tok t h => h.1
  rw [if_neg hstart] at h
  have hbackslash : ¬ IsLine '\\' := by decide
  by_cases hdigit : isDigit c = true
  · have hline : ¬ IsLine c :=
      isIdentifier_not_line (isHex_isIdentifier (by simp [isHex, hdigit]))
    rw [if_pos hdigit, List.append_assoc, List.append_assoc, List.cons_append, List.cons_append,
      List.cons_append, normalise_cons hbackslash, normalise_cons (by decide), normalise_cons hline,
      List.nil_append] at h
    rw [h.codes, List.length_cons] at hturns
    refine Ensures.bind (Ensures.bind (h.getc fun t ht => ?_))
    rw [tokenAt_escape]
    refine markedIdentifier_outcome ?_
    exact (digitName_outcome hplain hf hdigit ht (by rw [ht.codes]; omega)).mono
      fun tok u houtcome => ⟨houtcome.1, fun heof => absurd heof houtcome.2⟩
  rw [if_neg hdigit, List.append_assoc, List.cons_append, normalise_cons hbackslash,
    List.singleton_append] at h
  rw [h.codes, List.length_cons] at hturns
  refine Ensures.bind (Ensures.bind (h.getc fun t ht => ?_))
  have hfuel : t.codes.length < s.turns := by
    rw [ht.codes]
    omega
  rw [tokenAt_escape]
  refine markedIdentifier_outcome ?_
  by_cases hbroken : IsLine c ∨ c = replacement
  · have hbad : ¬ Survives (c :: cs) f := by
      rcases hbroken with hline | rfl
      · exact fun hgood => hgood.lines c List.mem_cons_self hline
      · exact fun hgood => hgood.first rfl
    have hrest : Plain (escapedCodes false cs ++ [f]) := by
      intro d hd
      rcases List.mem_append.mp hd with hd | hd
      · exact plain_escapedCodes hplain.tail false d hd
      · rw [List.mem_singleton.mp hd]
        exact ⟨hf.code, hf.ne⟩
    rw [normalise] at ht
    refine brokenName_outcome ?_ hbad ht ?_ hfuel
    · split_ifs
      · exact fun d hd => hrest d (List.mem_of_mem_tail hd)
      · exact hrest
    · rcases hbroken with hline | rfl
      · exact Or.inl hline
      · exact Or.inr rfl
  · rw [not_or] at hbroken
    rw [normalise_cons hbroken.1] at ht
    have hpeeks : peeks c = false := by
      rw [peeks, Bool.eq_false_iff.mpr hdigit, Bool.false_or, Bool.or_eq_false_iff]
      constructor
      · exact decide_eq_false fun hu => hstart (by rw [hu]; decide)
      · exact decide_eq_false fun hu => hstart (by rw [hu]; decide)
    rw [identifier_escape]
    refine Ensures.bind (ht.escape (not_isHex hstart hdigit)
      (fun hline => hbroken.1 ((isLine_iff c).mpr (Or.inl hline))) hbroken.2 fun u hu => ?_)
    rw [if_neg hbroken.2]
    rw [ht.codes, List.length_cons] at hfuel
    exact (nameRest_follower hplain hf hbroken.1 hbroken.2 (fun d hd => hd) (by rw [hpeeks]; rfl) hu
      (by decide) (by rw [hu.codes]; omega)).mono
        fun tok v houtcome => ⟨houtcome.1, fun heof => absurd heof houtcome.2⟩

end Turns

end SnapCpp.Css
