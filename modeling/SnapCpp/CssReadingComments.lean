import SnapCpp.CssReadingNumbers

/-!
What the lexer reads of hashes, comments, ranges of characters and variables. Where a look-ahead
that is dropped would change what a text is, the text is known without the character U+FFFD only.
-/
namespace SnapCpp.Css

open Computability

variable {throws : Throw → Prop} {s : Lexer} {c d stop : ℤ} {v w ds ms l : List ℤ} {r : RangeStart}
  {e : ℕ} {good : Prop}

theorem isHashCharacter_ne_eof (h : isHashCharacter c = true) : c ≠ eof := by
  rintro rfl
  exact absurd h (by decide)

theorem hashLoop_spells (fuel : ℕ) (str : Bytes) (hfuel : s.codes.length < fuel)
    (hfine : Fine throws s.codes) (hroom : s.fUngetc.length ≤ 3) :
    Ensures (hashLoop fuel str) s throws fun str' t =>
      ∃ v out, str' = str ++ spell out ∧ (out ≠ [] → v ≠ []) ∧
        Reads s.codes s.errors.length 3 t v t.codes
          (Spelled (NamePiece isHashCharacter) v out) := by
  induction fuel generalizing s str with
  | zero => omega
  | succ fuel ih =>
    -- A piece was read, and more of the name follows it.
    have hmore : ∀ {t : Lexer} {w : List ℤ} (d : ℤ), Reads s.codes s.errors.length 2 t w
        t.codes (NamePiece isHashCharacter w [d]) → 1 ≤ w.length →
        Ensures (hashLoop fuel (str ++ spell [d])) t throws fun str' u =>
          ∃ v out, str' = str ++ spell out ∧ (out ≠ [] → v ≠ []) ∧
            Reads s.codes s.errors.length 3 u v u.codes
              (Spelled (NamePiece isHashCharacter) v out) := by
      intro t w d hread hpos
      have hroom' := hread.room
      have hshort := hread.drops.length_le
      rw [List.length_append] at hshort
      refine (ih _ (by omega) (hfine.right hread.drops) (by omega)).mono
        fun str' u ⟨v, out, hstr, _, hlast⟩ => ⟨w ++ v, [d] ++ out, ?_, fun _ hnil => ?_, ?_⟩
      · rw [hstr, spell_append, List.append_assoc]
      · rw [(List.append_eq_nil_iff.mp hnil).1] at hpos
        cases hpos
      · exact hlast.after hread.drops hread.errors fun heq hgood =>
          .cons (hread.good heq) hgood
    have hstop : str = str ++ spell [] := by rw [spell_nil, List.append_nil]
    rw [hashLoop]
    refine read_then hfine fun c t hgot hunget _ => ?_
    refine Ensures.ite (fun hslash => ?_) (fun _ => ?_)
    · have hc : c ≠ eof := by
        rw [hslash]
        decide
      refine Ensures.bind ((escape_ensures hgot.fine (by omega)).mono fun d u ⟨v, hread⟩ => ?_)
      have hread := hread.after (hgot.drops_of_ne hc) hgot.errors fun _ hgood =>
        (by rw [hslash]; exact hgood : [c] ++ v ∈ escapeText d)
      refine Ensures.ite (fun hd => Ensures.pure ?_) (fun hd => ?_)
      · refine ⟨[c] ++ v, [], hstop, fun h => absurd rfl h,
          hread.mono (by omega) fun hgood => ?_⟩
        rw [hd] at hgood
        exact List.append_nil ([c] ++ v) ▸ Spelled.cons (NamePiece.dropped hgood) .nil
      · refine Ensures.bind (wctomb_spells fun x hcodes herrors hcode hunget' => ?_)
        exact hmore _ ((hread.spelled hcodes herrors hcode hunget'
          fun hgood hcode => .escape hgood hd hcode).mono (by omega) id) (by simp)
    · refine Ensures.ite (fun hhash => ?_) (fun _ => ?_)
      · have hc := isHashCharacter_ne_eof hhash
        have hread : Reads s.codes s.errors.length 2 t [c] t.codes True :=
          ⟨hgot.drops_of_ne hc, hgot.errors, fun _ => trivial, by omega⟩
        refine Ensures.bind (wctomb_spells fun x hcodes herrors hcode hunget' => ?_)
        exact hmore _ (hread.spelled hcodes herrors hcode hunget'
          fun _ hgood => .char hhash hgood) (by simp)
      · exact Ensures.bind (hgot.putBack hfine (by omega) fun u _ hback herrors hunget' =>
          Ensures.pure ⟨[], [], hstop, fun h => absurd rfl h, hback, herrors, fun _ => .nil,
            by omega⟩)

theorem hashLoop_ensures (fuel : ℕ) (str : Bytes) (hfuel : s.codes.length < fuel)
    (hfine : Fine throws s.codes) (hroom : s.fUngetc.length ≤ 3) :
    Ensures (hashLoop fuel str) s throws fun str' t =>
      ∃ v, Reads s.codes s.errors.length 3 t v t.codes (v ∈ hashPiece∗) ∧
        (str' ≠ str → v ≠ []) := by
  refine (hashLoop_spells fuel str hfuel hfine hroom).mono
    fun str' t ⟨v, out, hstr, hne, hread⟩ => ⟨v, hread.mono (le_refl 3) fun hgood => ?_,
      fun hstr' => hne fun hnil => hstr' ?_⟩
  · exact hgood.mem_kstar fun _ _ h => h.mem
  · rw [hstr, hnil, spell_nil, List.append_nil]

/-- What is read after the `#`. -/
theorem hash_ensures (fuel : ℕ) (hfuel : s.codes.length < fuel) (hfine : Fine throws s.codes)
    (hroom : s.fUngetc.length ≤ 3) :
    Ensures (hash fuel) s throws fun result t =>
      ∃ v, Reads s.codes s.errors.length 3 t v t.codes
        (('#' : ℤ) :: v ∈ turnText result) := by
  rw [hash]
  refine Ensures.bind ((hashLoop_ensures fuel [] hfuel hfine hroom).mono
    fun str t ⟨v, hread, hne⟩ => ?_)
  refine Ensures.ite (fun _ => ?_) (fun hstr => Ensures.pure
    ⟨v, hread.mono (le_refl 3) fun hv => ?_⟩)
  · exact Ensures.bind (report_reads hread.drops hread.errors hread.room fun u hread _ =>
      Ensures.pure ⟨v, hread _⟩)
  · exact Language.append_mem_mul (mem_literal '#') (mem_many_of_ne_nil hv (hne hstr))

theorem skipCommentSpaces_ensures {blank : ℤ → Bool} (heof : blank eof = false) (fuel : ℕ)
    (hfuel : s.codes.length < fuel) (hfine : Fine throws s.codes) (hroom : s.fUngetc.length ≤ 3) :
    Ensures (skipCommentSpaces blank fuel) s throws fun _ t =>
      ∃ v, Reads s.codes s.errors.length 3 t v t.codes (v ∈ (oneOf blank)∗) := by
  induction fuel generalizing s with
  | zero => omega
  | succ fuel ih =>
    rw [skipCommentSpaces]
    refine read_then hfine fun c t hgot hunget herrors => ?_
    refine Ensures.ite (fun hblank => ?_) (fun _ => ?_)
    · have hc : c ≠ eof := by
        rintro rfl
        rw [heof] at hblank
        cases hblank
      have hlength := hgot.length hc
      refine (ih (by omega) hgot.fine (by omega)).mono fun _ u ⟨v, hread⟩ =>
        ⟨[c] ++ v, hread.after (hgot.drops_of_ne hc) herrors fun _ hgood => ?_⟩
      exact cons_mem_kstar (mem_oneOf hblank) hgood
    · exact hgot.putBack hfine (by omega) fun u _ hback herrors' hunget' =>
        ⟨[], hback, herrors', fun _ => Language.nil_mem_kstar _, by omega⟩

theorem whitespaceLoop_eq (fuel : ℕ) : whitespaceLoop fuel = skipCommentSpaces isSpace fuel := by
  induction fuel with
  | zero => rfl
  | succ fuel ih => rw [whitespaceLoop, skipCommentSpaces, ih]

theorem ClosesFirst.cons {c : ℤ} {w : List ℤ} (h : ClosesFirst w)
    (hc : c = '*' → w.head? ≠ some ('/' : ℤ)) : ClosesFirst (c :: w) := by
  rw [ClosesFirst, if_neg fun hend => hc hend.1 hend.2]
  exact h

/-- Spaces may stand in front of the text of a comment. -/
theorem ClosesFirst.after_spaces (hv : v ∈ (oneOf isSpace)∗) (h : ClosesFirst w) :
    ClosesFirst (v ++ w) := by
  obtain ⟨pieces, rfl, hpieces⟩ := Language.mem_kstar.mp hv
  induction pieces with
  | nil => exact h
  | cons piece pieces ih =>
    obtain ⟨c, hc, hpiece⟩ := hpieces piece List.mem_cons_self
    have hrest := (List.forall_mem_cons.mp hpieces).2
    rw [hpiece, List.flatten_cons, List.append_assoc]
    refine (ih hrest (Language.join_mem_kstar hrest)).cons fun hstar => ?_
    rw [hstar] at hc
    exact absurd hc (by decide)

theorem cCommentLoop_ensures (fuel : ℕ) (str : Bytes) (hfuel : s.codes.length < fuel)
    (hfine : Fine throws s.codes) (hroom : s.fUngetc.length ≤ 3) :
    Ensures (cCommentLoop fuel str) s throws fun _ t =>
      ∃ v, Reads s.codes s.errors.length 3 t v t.codes
        (replacement ∉ s.codes → ClosesFirst v) := by
  induction fuel generalizing s str with
  | zero => omega
  | succ fuel ih =>
    rw [cCommentLoop]
    refine read_then hfine fun c t hgot hunget herrors => ?_
    refine Ensures.ite (fun _ => ?_) (fun heof => ?_)
    · exact Ensures.bind (report_reads hgot.drops herrors (by omega) fun u hread _ =>
        Ensures.pure ⟨take c, hread _⟩)
    have hdrops := hgot.drops_of_ne heof
    have hlength := hgot.length heof
    refine Ensures.ite (fun hstar => ?_) (fun hstar => ?_)
    · refine read_then hgot.fine fun d u hgot' hunget' herrors' => ?_
      refine Ensures.ite (fun hslash => Ensures.pure ?_) (fun hslash => ?_)
      · refine ⟨[c] ++ [d], ?_, by omega, fun _ _ => ?_, by omega⟩
        · rw [List.append_assoc]
          exact hdrops.trans (Drops.append_left [c]
            (hgot'.drops_of_ne (by rw [hslash]; decide)))
        · rw [hstar, hslash]
          change ClosesFirst [('*' : ℤ), ('/' : ℤ)]
          rw [ClosesFirst, if_pos ⟨rfl, rfl⟩]
      · refine Ensures.bind (hgot'.putBack hgot.fine (by omega)
          fun x hx hback herrors'' hunget'' => ?_)
        refine Ensures.bind (wctomb_ensures fun mb y hcodes herrors₃ hunget₃ => ?_)
        have hall : Drops s.codes ([c] ++ y.codes) := by
          rw [hcodes]
          exact hdrops.trans (Drops.append_left [c] hback)
        have hshort := hall.length_le
        rw [List.length_append, List.length_singleton] at hshort
        refine (ih (str ++ mb) (by omega) (hfine.right hall) (by omega)).mono
          fun _ z ⟨w, hread⟩ => ⟨[c] ++ w, hread.after hall (by omega) fun _ hgood hnone => ?_⟩
        have hnone' : replacement ∉ y.codes := fun hmem =>
          hnone (hall.mem (List.mem_append_right [c] hmem))
        refine (hgood hnone').cons fun _ hhead => ?_
        have hcodes' := hread.drops.eq hnone'
        cases w with
        | nil => cases hhead
        | cons b w =>
          obtain rfl := Option.some.inj hhead
          rw [hcodes, hx, List.cons_append] at hcodes'
          by_cases hd : d = eof
          · rw [hd, hgot'.stop hd] at hcodes'
            cases hcodes'
          · have hdne : d ≠ replacement := by
              rintro rfl
              refine hnone (hdrops.mem (List.mem_append_right [c] ?_))
              rw [hgot'.codes]
              exact List.mem_append_left u.codes (by rw [take_of_ne hd]; simp)
            rw [hand_of_ne hd hdne] at hcodes'
            exact hslash (List.cons.inj hcodes').1.symm
    · refine Ensures.bind (wctomb_ensures fun mb y hcodes herrors' hunget' => ?_)
      have hall : Drops s.codes ([c] ++ y.codes) := by
        rw [hcodes]
        exact hdrops
      refine (ih (str ++ mb) (by rw [hcodes]; omega) (hfine.right hall) (by omega)).mono
        fun _ z ⟨w, hread⟩ => ⟨[c] ++ w, hread.after hall (by omega) fun _ hgood hnone => ?_⟩
      refine (hgood fun hmem => hnone (hall.mem (List.mem_append_right [c] hmem))).cons
        fun h => absurd h hstar

/-- The lines of C++ comments, after the slashes of the first one. -/
def cppLines : Language ℤ :=
  (oneOf (· ≠ '\n'))∗ * (literal ['\n', '/', '/'] * (oneOf (· ≠ '\n'))∗)∗

theorem cppLines_cons (hc : c ≠ '\n') (hw : w ∈ cppLines) :
    [c] ++ w ∈ cppLines := by
  obtain ⟨a, ha, b, hb, rfl⟩ := Language.mem_mul.mp hw
  rw [← List.append_assoc]
  exact Language.append_mem_mul (cons_mem_kstar (mem_oneOf (decide_eq_true hc)) ha) hb

theorem cppLines_line (hw : w ∈ cppLines) :
    [('\n' : ℤ), ('/' : ℤ), ('/' : ℤ)] ++ w ∈ cppLines := by
  obtain ⟨a, ha, b, hb, rfl⟩ := Language.mem_mul.mp hw
  have hslashes : [('\n' : ℤ), ('/' : ℤ), ('/' : ℤ)] ∈ literal ['\n', '/', '/'] := rfl
  have hline := Language.append_mem_mul hslashes ha
  have hall := Language.append_mem_mul (Language.nil_mem_kstar (oneOf (· ≠ ('\n' : ℤ))))
    (cons_mem_kstar hline hb)
  rwa [List.nil_append, List.append_assoc] at hall

theorem nil_mem_cppLines : [] ∈ cppLines := by
  have h := Language.append_mem_mul (Language.nil_mem_kstar (oneOf (· ≠ ('\n' : ℤ))))
    (Language.nil_mem_kstar (literal ['\n', '/', '/'] * (oneOf (· ≠ ('\n' : ℤ)))∗))
  rwa [List.append_nil] at h

theorem isBlank_ne_newline (h : isBlank c = true) : c ≠ '\n' := by
  rintro rfl
  exact absurd h (by decide)

theorem isBlank_ne_eof (h : isBlank c = true) : c ≠ eof := by
  rintro rfl
  exact absurd h (by decide)

theorem cppCommentLoop_ensures (fuel : ℕ) (str : Bytes) (hfuel : s.codes.length < fuel)
    (hfine : Fine throws s.codes) (hroom : s.fUngetc.length ≤ 3) :
    Ensures (cppCommentLoop fuel str) s throws fun _ t =>
      ∃ v, Reads s.codes s.errors.length 3 t v t.codes (v ∈ cppLines) := by
  induction fuel generalizing s str with
  | zero => omega
  | succ fuel ih =>
    rw [cppCommentLoop]
    refine read_then hfine fun c t hgot hunget herrors => ?_
    refine Ensures.ite (fun heof => Ensures.pure ?_) (fun heof => ?_)
    · exact ⟨take c, hgot.drops, herrors, fun _ => by rw [heof]; exact nil_mem_cppLines, by omega⟩
    have hdrops := hgot.drops_of_ne heof
    have hlength := hgot.length heof
    refine Ensures.ite (fun hnewline => ?_) (fun hnewline => ?_)
    · subst hnewline
      refine read_then hgot.fine fun d u hgot' hunget' herrors' => ?_
      refine Ensures.ite (fun hslash => ?_) (fun hslash => ?_)
      · subst hslash
        have hdrops' : Drops s.codes ([('\n' : ℤ)] ++ [('/' : ℤ)] ++ u.codes) := by
          rw [List.append_assoc]
          exact hdrops.trans (Drops.append_left _ (hgot'.drops_of_ne (by decide)))
        refine read_then hgot'.fine fun g x hgot'' hunget'' herrors'' => ?_
        refine Ensures.ite (fun hsecond => ?_) (fun hsecond => ?_)
        · subst hsecond
          have hdrops'' : Drops s.codes ([('\n' : ℤ), ('/' : ℤ), ('/' : ℤ)] ++ x.codes) :=
            hdrops'.trans (Drops.append_left _ (hgot''.drops_of_ne (by decide)))
          refine read_then hgot''.fine fun b y hgot₃ hunget₃ herrors₃ => ?_
          refine Ensures.ite (fun hblank => ?_) (fun hblank => ?_)
          · have hall : Drops s.codes ([('\n' : ℤ), ('/' : ℤ), ('/' : ℤ)] ++ [b] ++ y.codes) := by
              rw [List.append_assoc]
              exact hdrops''.trans (Drops.append_left _ (hgot₃.drops_of_ne (isBlank_ne_eof hblank)))
            have hshort := hall.length_le
            simp only [List.length_append, List.length_cons] at hshort
            refine (ih (str ++ [10]) (by omega) hgot₃.fine (by omega)).mono fun _ z ⟨w, hread⟩ =>
              ⟨_, hread.after hall (by omega) fun _ hgood => ?_⟩
            rw [List.append_assoc]
            exact cppLines_line (cppLines_cons (isBlank_ne_newline hblank) hgood)
          · refine Ensures.bind (hgot₃.putBack hgot''.fine (by omega)
              fun z _ hback herrors₄ hunget₄ => ?_)
            have hall := hdrops''.trans (Drops.append_left _ hback)
            have hshort := hall.length_le
            simp only [List.length_append, List.length_cons] at hshort
            refine (ih (str ++ [10]) (by omega) (hfine.right hall) (by omega)).mono
              fun _ z' ⟨w, hread⟩ => ⟨_, hread.after hall (by omega) fun _ hgood => ?_⟩
            exact cppLines_line hgood
        · refine hgot'.putBackBoth hgot'' hgot.fine (by omega) fun z _ hback he hunget₃ => ?_
          refine Ensures.bind (ungetc_ensures (hfine.left hgot.drops_hand)
            (by rw [ungetSize]; omega)
            fun z' hback' herrors₄ hunget₄ => Ensures.pure ?_)
          refine ⟨[], ?_, by omega, fun _ => nil_mem_cppLines, by omega⟩
          rw [hback']
          exact hgot.drops_hand.trans (Drops.append_left _ hback)
      · exact hgot.putBackBoth hgot' hfine (by omega) fun z _ hback he hunget₃ =>
          Ensures.pure ⟨[], hback, he, fun _ => nil_mem_cppLines, by omega⟩
    · refine Ensures.bind (wctomb_ensures fun mb y hcodes herrors' hunget' => ?_)
      have hall : Drops s.codes ([c] ++ y.codes) := by
        rw [hcodes]
        exact hdrops
      refine (ih (str ++ mb) (by rw [hcodes]; omega) (hfine.right hall) (by omega)).mono
        fun _ z ⟨w, hread⟩ => ⟨[c] ++ w, hread.after hall (by omega) fun _ hgood => ?_⟩
      exact cppLines_cons hnewline hgood

theorem mem_cppLines_of_blanks (hv : v ∈ (oneOf isBlank)∗) (hw : w ∈ cppLines) :
    v ++ w ∈ cppLines := by
  obtain ⟨pieces, rfl, hpieces⟩ := Language.mem_kstar.mp hv
  induction pieces with
  | nil => exact hw
  | cons piece pieces ih =>
    obtain ⟨c, hc, hpiece⟩ := hpieces piece List.mem_cons_self
    rw [hpiece, List.flatten_cons, List.append_assoc]
    have hrest := (List.forall_mem_cons.mp hpieces).2
    exact cppLines_cons (isBlank_ne_newline hc) (ih hrest (Language.join_mem_kstar hrest))

theorem turnText_commentNode (str : Bytes) (cComment : Bool) :
    turnText (commentNode str cComment) = commentText := by
  unfold commentNode
  by_cases hpreserve : preserve <:+: str
  · rw [if_pos hpreserve]
    rfl
  · rw [if_neg hpreserve]
    rfl

def commentStart (cComment : Bool) : List ℤ := [('/' : ℤ), if cComment then '*' else '/']

theorem comment_ensures (fuel : ℕ) (cComment : Bool) (hfuel : s.codes.length < fuel)
    (hfine : Fine throws s.codes) (hroom : s.fUngetc.length ≤ 3) :
    Ensures (comment fuel cComment) s throws fun result t =>
      ∃ v, Reads s.codes s.errors.length 3 t v t.codes
        (replacement ∉ s.codes → commentStart cComment ++ v ∈ turnText result) := by
  have hnext : ∀ {t : Lexer} {v : List ℤ} {good : Prop},
      Reads s.codes s.errors.length 3 t v t.codes good → t.codes.length < fuel := by
    intro t v good hread
    have hshort := hread.drops.length_le
    rw [List.length_append] at hshort
    omega
  rw [comment]
  refine Ensures.ite (fun hkind => ?_) (fun hkind => ?_)
  · refine Ensures.bind ((skipCommentSpaces_ensures (by decide) fuel hfuel hfine hroom).mono
      fun _ t ⟨v, hread⟩ => ?_)
    refine Ensures.bind ((cCommentLoop_ensures fuel [] (hnext hread) (hfine.right hread.drops)
      hread.room).mono fun str u ⟨w, hlast⟩ => Ensures.pure ⟨v ++ w, ?_⟩)
    refine hlast.after hread.drops hread.errors fun heq hgood hnone => ?_
    rw [turnText_commentNode, hkind]
    refine Or.inl (Language.append_mem_mul rfl ?_)
    exact (hgood fun hmem => hnone (hread.drops.mem (List.mem_append_right v hmem))).after_spaces
      (hread.good heq)
  · refine Ensures.bind ((skipCommentSpaces_ensures (by decide) fuel hfuel hfine hroom).mono
      fun _ t ⟨v, hread⟩ => ?_)
    refine Ensures.bind ((cppCommentLoop_ensures fuel [] (hnext hread) (hfine.right hread.drops)
      hread.room).mono fun str u ⟨w, hlast⟩ => Ensures.pure ⟨v ++ w, ?_⟩)
    refine hlast.after hread.drops hread.errors fun heq hgood _ => ?_
    rw [turnText_commentNode, Bool.eq_false_iff.mpr hkind]
    refine Or.inr ?_
    rw [cppCommentText, mul_assoc]
    exact Language.append_mem_mul rfl (mem_cppLines_of_blanks (hread.good heq) hgood)

structure RangeText (ds ms : List ℤ) (r : RangeStart) : Prop where
  digits : ∀ d ∈ ds, isHex d = true
  mask : ∀ d ∈ ms, d = '?'
  hasMask : r.hasMask = true ↔ ms ≠ []
  start : r.hasMask = false → r.start = hexValue ds
  length : ds.length + ms.length ≤ 6

theorem RangeText.addMask (h : RangeText ds ms r)
    (start stop : ℤ) (hlength : ds.length + ms.length < 6) :
    RangeText ds (ms ++ [('?' : ℤ)]) ⟨start, stop, true⟩ where
  digits := h.digits
  mask d hd := by
    rcases List.mem_append.mp hd with hd | hd
    · exact h.mask d hd
    · exact List.mem_singleton.mp hd
  hasMask := by simp
  start hmask := by cases hmask
  length := by
    rw [List.length_append, List.length_singleton]
    omega

theorem RangeText.addDigit (h : RangeText ds [] r)
    (hc : isHex c = true) (hlength : ds.length < 6) :
    RangeText (ds ++ [c]) []
      { r with start := r.start * 16 + if isDigit c then c - '0' else toLower c - 'a' + 10 } where
  digits d hd := by
    rcases List.mem_append.mp hd with hd | hd
    · exact h.digits d hd
    · rwa [List.mem_singleton.mp hd]
  mask d hd := by cases hd
  hasMask := h.hasMask
  start hmask := by
    rw [hexValue_concat, ← h.start hmask]
  length := by
    rw [List.length_append, List.length_singleton, List.length_nil]
    omega

/-- Whether `rangeDigits` takes the character. -/
def RangeTakes (d : ℤ) (r : RangeStart) : Prop := d = '?' ∨ isHex d = true ∧ r.hasMask = false

theorem rangeDigits_ensures (count : ℕ) (htext : RangeText ds ms r)
    (hcount : ds.length + ms.length + count = 6)
    (hfine : Fine throws s.codes) (hroom : s.fUngetc.length ≤ 2) (hstop : d = eof → s.codes = []) :
    Ensures (rangeDigits count d r) s throws fun p t =>
      ∃ v ds' ms', Reads (take d ++ s.codes) s.errors.length 2 t v (take p.1 ++ t.codes) True ∧
        RangeText ds' ms' p.2 ∧ ds' ++ ms' = ds ++ ms ++ v ∧ (p.1 = eof → t.codes = []) ∧
        (RangeTakes d r → 0 < count → v ≠ []) := by
  induction count generalizing s d ds ms r with
  | zero =>
    rw [rangeDigits]
    refine Ensures.pure ⟨[], ds, ms, ⟨Drops.refl _, le_refl _, fun _ => trivial, hroom⟩, htext,
      by simp, hstop, fun _ h => absurd h (lt_irrefl 0)⟩
  | succ count ih =>
    -- The next character is read after one that belongs to the range.
    have hmore : ∀ {ds' ms' : List ℤ} {r' : RangeStart}, d ≠ eof → RangeText ds' ms' r' →
        ds' ++ ms' = ds ++ ms ++ [d] →
        Ensures (do let g ← getc; rangeDigits count g r') s throws fun p t =>
          ∃ v ds'' ms'', Reads (take d ++ s.codes) s.errors.length 2 t v (take p.1 ++ t.codes)
            True ∧ RangeText ds'' ms'' p.2 ∧ ds'' ++ ms'' = ds ++ ms ++ v ∧
            (p.1 = eof → t.codes = []) ∧ (RangeTakes d r → 0 < count + 1 → v ≠ []) := by
      intro ds' ms' r' hd htext' happend
      have hlength := congrArg List.length happend
      simp only [List.length_append, List.length_singleton] at hlength
      refine read_then hfine fun g t hgot hunget _ => ?_
      refine (ih htext' (by omega) hgot.fine (by omega) hgot.stop).mono
        fun p u ⟨v, ds'', ms'', hread, htext'', happend', hstop', _⟩ =>
          ⟨[d] ++ v, ds'', ms'', hread.after ?_ hgot.errors fun _ _ => trivial, htext'', ?_,
            hstop', fun _ _ => by simp⟩
      · rw [← hgot.codes, take_of_ne hd]
        exact Drops.refl _
      · rw [happend', happend, List.append_assoc (ds ++ ms)]
    rw [rangeDigits]
    refine Ensures.ite (fun hmask => ?_) (fun hmask => ?_)
    · have hd : d ≠ eof := by
        rw [hmask]
        decide
      refine hmore hd (htext.addMask _ _ (by omega)) ?_
      rw [hmask, List.append_assoc]
    refine Ensures.ite (fun hdigit => ?_) (fun hdigit => Ensures.pure ?_)
    · have hnone : ms = [] := by
        by_contra hne
        have hmask' := htext.hasMask.mpr hne
        rw [hmask'] at hdigit
        exact absurd hdigit.2 (by decide)
      subst hnone
      refine Ensures.bind (hexToDec_ensures hdigit.1 ?_)
      rw [List.length_nil] at hcount
      refine hmore (isHex_ne_eof hdigit.1) (htext.addDigit hdigit.1 (by omega)) ?_
      rw [List.append_nil, List.append_nil]
    · refine ⟨[], ds, ms, ⟨Drops.refl _, le_refl _, fun _ => trivial, hroom⟩, htext,
        by simp, hstop, fun htakes => ?_⟩
      rcases htakes with h | ⟨h, hnone⟩
      · exact absurd h hmask
      · exact absurd ⟨h, by rw [hnone]; rfl⟩ hdigit

theorem rangeStop_ensures (count : ℕ) (hfine : Fine throws s.codes)
    (hroom : s.fUngetc.length ≤ 2) (hstop : d = eof → s.codes = []) :
    Ensures (rangeStop count d stop) s throws fun p t =>
      ∃ v, Reads (take d ++ s.codes) s.errors.length 2 t v (take p.1 ++ t.codes) True ∧
        (∀ c ∈ v, isHex c = true) ∧ v.length ≤ count ∧ (p.1 = eof → t.codes = []) ∧
        (v = [] → p.2 = stop ∧ (0 < count → isHex p.1 = false)) := by
  induction count generalizing s d stop with
  | zero =>
    rw [rangeStop]
    exact Ensures.pure ⟨[], ⟨Drops.refl _, le_refl _, fun _ => trivial, hroom⟩,
      fun c hc => (by cases hc), le_refl _, hstop, fun _ => ⟨rfl, fun h => absurd h (lt_irrefl 0)⟩⟩
  | succ count ih =>
    rw [rangeStop]
    refine Ensures.ite (fun hhex => ?_) (fun hhex => Ensures.pure ?_)
    · refine Ensures.bind (hexToDec_ensures hhex ?_)
      refine read_then hfine fun g t hgot hunget _ => ?_
      refine (ih hgot.fine (by omega) hgot.stop).mono
        fun p u ⟨v, hread, hall, hlength, hstop', _⟩ =>
          ⟨[d] ++ v, hread.after ?_ hgot.errors fun _ _ => trivial, fun c hc => ?_, ?_, hstop',
            fun h => absurd h (by simp)⟩
      · rw [← hgot.codes, take_of_ne (isHex_ne_eof hhex)]
        exact Drops.refl _
      · rcases List.mem_append.mp hc with hc | hc
        · rwa [List.mem_singleton.mp hc]
        · exact hall c hc
      · rw [List.length_append, List.length_singleton]
        omega
    · exact ⟨[], ⟨Drops.refl _, le_refl _, fun _ => trivial, hroom⟩,
        fun c hc => (by cases hc), Nat.zero_le _, hstop, fun _ =>
          ⟨rfl, fun _ => by simpa using hhex⟩⟩

theorem Reads.reported {x : Error} {p : List ℤ → Lexer → Prop}
    (h : Reads l e 2 s v (take d ++ s.codes) good) :
    Ensures (do report x; pure (rangeNode 0)) s throws fun tok t => tok.fType = .unicodeRange ∧
      ∃ w, Reads l e 3 t w t.codes (p w t) := by
  have hdrops : Drops l (v ++ take d ++ s.codes) := by
    rw [List.append_assoc]
    exact h.drops
  exact Ensures.bind (report_reads hdrops h.errors (h.room.trans (by decide)) fun t hread _ =>
    Ensures.pure ⟨rfl, v ++ take d, hread _⟩)

theorem rangeEnd_ensures {start : ℤ} (h : Reads l e 2 s v (take d ++ s.codes) good)
    (hfine : Fine throws l) :
    Ensures (rangeEnd d start stop) s throws fun tok t => tok.fType = .unicodeRange ∧
      ∃ w, Reads l e 3 t w t.codes (good ∧ w = v ∧ start ≤ stop ∧
        t.codes = hand d ++ s.codes) := by
  rw [rangeEnd]
  refine Ensures.ite (fun _ => h.reported) (fun horder => ?_)
  exact Ensures.bind (h.putBack hfine (by decide) fun t hcodes hread => Ensures.pure
    ⟨rfl, v, hread.mono (le_refl 3) fun hgood => ⟨hgood, rfl, not_lt.mp horder, hcodes⟩⟩)

theorem rangeCheck_ensures {start : ℤ} (h : Reads l e 2 s v (take d ++ s.codes) good)
    (hfine : Fine throws l) :
    Ensures (rangeCheck d start stop) s throws fun tok t => tok.fType = .unicodeRange ∧
      ∃ w, Reads l e 3 t w t.codes (good ∧ w = v ∧ start ≤ stop ∧
        t.codes = hand d ++ s.codes) := by
  rw [rangeCheck]
  exact Ensures.ite (fun _ => h.reported) (fun _ => rangeEnd_ensures h hfine)

theorem hexValue_nonneg (h : ∀ d ∈ ds, isHex d = true) : 0 ≤ hexValue ds := by
  induction ds using List.reverseRecOn with
  | nil => exact le_refl _
  | append_singleton ds d ih =>
    have hd := h d (List.mem_append_right ds (List.mem_singleton_self d))
    have hrest := ih fun c hc => h c (List.mem_append_left [d] hc)
    rw [hexValue_concat]
    simp only [isHex, isDigit, Bool.or_eq_true, Bool.and_eq_true, decide_eq_true_eq,
      Char.reduceToNat, Nat.cast_ofNat] at hd
    simp only [isDigit, toLower, Bool.and_eq_true, decide_eq_true_eq, Char.reduceToNat,
      Nat.cast_ofNat]
    split_ifs
    all_goals omega

/-- The dash after the digits of a range is taken though no digit follows it. -/
def LostDash (v r : List ℤ) : Prop :=
  ∃ ds, v = ds ++ [('-' : ℤ)] ∧ ds ∈ limitText ∧ hexValue ds = 0 ∧
    ∀ c r', r = c :: r' → isHex c = false

theorem RangeText.mem_maskText (h : RangeText ds ms r)
    (hv : ds ++ ms = v) (hne : v ≠ []) : v ∈ maskText :=
  ⟨ds, ms, hv.symm, h.digits, h.mask, hne, by
    rw [← hv, List.length_append]
    exact h.length⟩

theorem unicodeRange_ensures (d : ℤ) (hfine : Fine throws (take d ++ s.codes))
    (hroom : s.fUngetc.length ≤ 2) (hd : isHex d = true ∨ d = '?') :
    Ensures (unicodeRange d) s throws fun tok t => tok.fType = .unicodeRange ∧
      ∃ v, Reads (take d ++ s.codes) s.errors.length 3 t v t.codes
        (replacement ∉ take d ++ s.codes →
          v ∈ maskText + limitText * literal ['-'] * limitText ∨ LostDash v t.codes) := by
  have heof : d ≠ eof := by
    rcases hd with hd | rfl
    · exact isHex_ne_eof hd
    · decide
  have hempty : RangeText [] [] {} :=
    ⟨fun d hd => (by cases hd), fun d hd => (by cases hd), by simp, fun _ => rfl, Nat.zero_le _⟩
  have htakes : RangeTakes d {} := hd.symm.imp_right fun hd => ⟨hd, rfl⟩
  rw [unicodeRange]
  refine Ensures.bind ((rangeDigits_ensures 6 hempty rfl (hfine.right (Drops.refl _)) hroom
    fun h => absurd h heof).mono
      fun ⟨g, r⟩ t ⟨v, ds, ms, hread, htext, happend, hstop, hne⟩ => ?_)
  dsimp only at hread htext hstop ⊢
  have hv := hne htakes (by decide)
  rw [List.nil_append, List.nil_append] at happend
  -- A range that ends here is the digits and the mask.
  have hends : ∀ {u : Lexer} {tok : Token} {more : Prop}, (tok.fType = .unicodeRange ∧ ∃ w,
      Reads (take d ++ s.codes) s.errors.length 3 u w u.codes (True ∧ w = v ∧ more)) →
      tok.fType = .unicodeRange ∧ ∃ w, Reads (take d ++ s.codes) s.errors.length 3 u w u.codes
        (replacement ∉ take d ++ s.codes →
          w ∈ maskText + limitText * literal ['-'] * limitText ∨ LostDash w u.codes) := by
    rintro u tok more ⟨htype, w, hlast⟩
    refine ⟨htype, w, hlast.mono (le_refl 3) fun ⟨_, hw, _⟩ _ => Or.inl (Or.inl ?_)⟩
    rw [hw]
    exact htext.mem_maskText happend hv
  refine Ensures.ite (fun hmask => ?_) (fun hmask => ?_)
  · refine Ensures.ite (fun _ => ?_) (fun _ => ?_)
    · refine Ensures.bind (report_ensures fun u hcodes herrors hunget => ?_)
      have herrors' := hread.errors
      have hroom' := hread.room
      have hread' : Reads (take d ++ s.codes) s.errors.length 2 u v (take g ++ u.codes) True :=
        ⟨by rw [hcodes]; exact hread.drops, by omega, fun _ => trivial, by omega⟩
      exact (rangeEnd_ensures hread' hfine).mono fun tok x h => hends h
    · exact (rangeEnd_ensures hread hfine).mono fun tok x h => hends h
  refine Ensures.ite (fun hdash => ?_) (fun _ => ?_)
  · have hg : take g = [g] := take_of_ne (by rw [hdash]; decide)
    have hfine' := (hfine.right hread.drops).right (Drops.refl _)
    have hms : ms = [] := by
      by_contra h
      exact hmask (htext.hasMask.mpr h)
    rw [hms, List.append_nil] at happend
    have hlimit : v ∈ limitText := by
      rw [← happend] at hv ⊢
      have hlength := htext.length
      exact ⟨htext.digits, hv, by omega⟩
    refine read_then hfine' fun b u hgot hunget _ => ?_
    have hroom' := hread.room
    refine Ensures.bind ((rangeStop_ensures 6 hgot.fine (by omega) hgot.stop).mono
      fun ⟨b', stop⟩ x ⟨w, hmore, hhex, hlength, hstop', hnone⟩ => ?_)
    dsimp only at hmore hstop' hnone ⊢
    have hdrops : Drops (take d ++ s.codes) (v ++ [g] ++ (take b ++ u.codes)) := by
      rw [← hgot.codes, ← hg, List.append_assoc]
      exact hread.drops
    have hall : Reads (take d ++ s.codes) s.errors.length 2 x (v ++ [g] ++ w)
        (take b' ++ x.codes) True :=
      hmore.after hdrops (hread.errors.trans hgot.errors) fun _ _ => trivial
    refine (rangeCheck_ensures hall hfine).mono fun tok y ⟨htype, z, hlast⟩ =>
      ⟨htype, z, hlast.mono (le_refl 3) fun ⟨_, hz, horder, hcodes⟩ hclean => ?_⟩
    rw [hz]
    by_cases hw : w = []
    · obtain ⟨hstop0, hnext⟩ := hnone hw
      rw [hw, List.append_nil]
      refine Or.inr ⟨v, by rw [hdash], hlimit, ?_, fun c r' hcons => ?_⟩
      · rw [hstop0, htext.start (by simpa using hmask), happend] at horder
        exact le_antisymm horder (hexValue_nonneg hlimit.1)
      · rw [hcodes] at hcons
        by_cases hb : b' = eof
        · rw [hb, hstop' hb] at hcons
          cases hcons
        · have hb' : b' ≠ replacement := by
            rintro rfl
            refine hclean (hall.drops.mem (List.mem_append_right _ ?_))
            exact List.mem_append_left _ (by rw [take_of_ne hb]; simp)
          rw [hand_of_ne hb hb'] at hcons
          rw [← (List.cons.inj hcons).1]
          exact hnext (by decide)
    · refine Or.inl (Or.inr (Language.append_mem_mul (Language.append_mem_mul hlimit ?_)
        ⟨hhex, hw, hlength⟩))
      rw [hdash]
      exact mem_literal '-'
  · exact (rangeCheck_ensures hread hfine).mono fun tok x h => hends h

theorem isVariable_ne_eof (h : isVariable c = true) : c ≠ eof := by
  rintro rfl
  exact absurd h (by decide)

theorem variableLoop_ensures (fuel : ℕ) (c : ℤ) (var : Bytes) (hc : isVariable c = true)
    (hfuel : s.codes.length < fuel) (hfine : Fine throws s.codes) (hroom : s.fUngetc.length ≤ 2) :
    Ensures (variableLoop fuel c var) s throws fun p t =>
      ∃ v, Reads (take c ++ s.codes) s.errors.length 2 t v (take p.1 ++ t.codes)
        (v ∈ (oneOf isVariable)∗) ∧ v ≠ [] := by
  induction fuel generalizing s c var with
  | zero => omega
  | succ fuel ih =>
    rw [variableLoop]
    refine Ensures.bind (wctomb_ensures fun mb t hcodes herrors hunget => ?_)
    refine read_then (by rw [hcodes]; exact hfine) fun d u hgot hunget' herrors' => ?_
    have hpiece : Drops (take c ++ s.codes) ([c] ++ (take d ++ u.codes)) := by
      rw [← hgot.codes, hcodes, take_of_ne (isVariable_ne_eof hc)]
      exact Drops.refl _
    refine Ensures.ite (fun hd => ?_) (fun _ => Ensures.pure ?_)
    · have hlength := hgot.length (isVariable_ne_eof hd)
      rw [hcodes] at hlength
      refine (ih d (var ++ mb) hd (by omega) hgot.fine (by omega)).mono fun p x ⟨v, hread, _⟩ =>
        ⟨[c] ++ v, hread.after hpiece (by omega) fun _ hgood => ?_, by simp⟩
      exact cons_mem_kstar (mem_oneOf hc) hgood
    · refine ⟨[c], ⟨hpiece, by omega, fun _ => ?_, by omega⟩, by simp⟩
      exact List.append_nil [c] ▸ cons_mem_kstar (mem_oneOf hc) (Language.nil_mem_kstar _)

/-- What is read of a variable after the `$`. -/
theorem variableToken_ensures (fuel : ℕ) (c : ℤ) (hc : isVariable c = true)
    (hfuel : s.codes.length < fuel) (hfine : Fine throws (take c ++ s.codes))
    (hroom : s.fUngetc.length ≤ 2) :
    Ensures (variableToken fuel c) s throws fun tok t =>
      ∃ v, Reads (take c ++ s.codes) s.errors.length 3 t v t.codes
        (('$' : ℤ) :: v ∈ lexeme tok.fType) := by
  rw [variableToken]
  refine Ensures.bind ((variableLoop_ensures fuel c [] hc hfuel (hfine.right (Drops.refl _))
    hroom).mono fun ⟨d, var⟩ t ⟨v, hread, hne⟩ => ?_)
  dsimp only at hread ⊢
  have hroom' := hread.room
  have htext : v ∈ (oneOf isVariable)∗ → ('$' : ℤ) :: v ∈ variableText := fun hv =>
    Language.append_mem_mul (mem_literal '$') (mem_many_of_ne_nil hv hne)
  refine Ensures.ite (fun hd => Ensures.pure ?_) (fun _ => ?_)
  · refine ⟨v ++ [d], ⟨?_, hread.errors, fun heq => ?_, by omega⟩⟩
    · rw [List.append_assoc, ← take_of_ne (by rw [hd]; decide : d ≠ eof)]
      exact hread.drops
    · rw [hd]
      exact Language.append_mem_mul (htext (hread.good heq)) (mem_literal '(')
  · exact Ensures.bind (hread.putBack hfine (by decide) fun u _ hlast =>
      Ensures.pure ⟨v, hlast.mono (le_refl 3) htext⟩)

end SnapCpp.Css
