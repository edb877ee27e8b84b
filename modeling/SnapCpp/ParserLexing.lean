import SnapCpp.ParserLexer

/-!
The lines, the positions and the strings of the lexer of the parser. Where no line end is inside
a C comment or a string, where the input does not end with the digits of a number, and where it
does not end inside `\u` or `\U`, the line number counts the line ends that were passed, nothing
behind the input is read, and a string is returned exactly if its quote closes it on its line.
-/
namespace SnapCpp.ParserLexer

/-- The line ends `\n`, `\r` and `\r\n`. -/
def lineEnds : QString → ℕ
  | [] => 0
  | c :: rest =>
      (if c = newline ∨ c = carriageReturn ∧ rest.head? ≠ some newline then 1 else 0) +
        lineEnds rest

/-- The position between two texts is not inside `\r\n`. -/
def Aligned (before rest : QString) : Prop :=
  ¬ (before.getLast? = some carriageReturn ∧ rest.head? = some newline)

def OneLine (text : QString) : Prop := ∀ c ∈ text, isLineEnd c = false

instance (text : QString) : Decidable (OneLine text) := List.decidableBAll _ text

variable {rest s : QString} {c : UInt16}

theorem lineEnds_append {before : QString} (h : Aligned before rest) :
    lineEnds (before ++ rest) = lineEnds before + lineEnds rest := by
  induction before with
  | nil => exact (Nat.zero_add _).symm
  | cons c more ih =>
    cases more with
    | nil =>
      have hc : (c = carriageReturn ∧ rest.head? ≠ some newline) ↔ c = carriageReturn := by
        refine and_iff_left_of_imp fun hreturn hnewline => h ⟨?_, hnewline⟩
        rw [hreturn, List.getLast?_singleton]
      simp only [List.cons_append, List.nil_append, lineEnds, hc, List.head?_nil, ne_eq,
        reduceCtorEq, not_false_eq_true, and_true, Nat.add_zero]
    | cons d left =>
      have haligned : Aligned (d :: left) rest := by
        rwa [Aligned, ← List.getLast?_cons_cons (a := c)]
      rw [List.cons_append, lineEnds, ih haligned, ← Nat.add_assoc]
      rfl

theorem isLineEnd_eq_false :
    isLineEnd c = false ↔ c ≠ newline ∧ c ≠ carriageReturn := by
  rw [isLineEnd, Bool.or_eq_false_iff, beq_eq_false_iff_ne, beq_eq_false_iff_ne]

theorem lineEnds_of_oneLine {text : QString} (h : OneLine text) : lineEnds text = 0 := by
  induction text with
  | nil => rfl
  | cons c rest ih =>
    obtain ⟨hc, hrest⟩ := List.forall_mem_cons.mp h
    obtain ⟨hnewline, hreturn⟩ := isLineEnd_eq_false.mp hc
    rw [lineEnds, ih hrest, if_neg (fun hend => hend.elim hnewline fun h => hreturn h.1)]

def Passes (input rest : QString) (lines : ℕ) : Prop :=
  ∃ passed, input = passed ++ rest ∧ ∀ before, Aligned before input →
    lineEnds (before ++ passed) = lineEnds before + lines ∧ Aligned (before ++ passed) rest

namespace Passes

theorem refl (input : QString) : Passes input input 0 :=
  ⟨[], rfl, fun before h => by rw [List.append_nil]; exact ⟨rfl, h⟩⟩

variable {rest : QString}

theorem trans {input middle : QString} {m n : ℕ} (h : Passes input middle m)
    (h' : Passes middle rest n) : Passes input rest (m + n) := by
  obtain ⟨passed, hinput, hlines⟩ := h
  obtain ⟨passed', hmiddle, hlines'⟩ := h'
  refine ⟨passed ++ passed', by rw [hinput, hmiddle, List.append_assoc], fun before hbefore => ?_⟩
  obtain ⟨hcount, haligned⟩ := hlines before hbefore
  obtain ⟨hcount', haligned'⟩ := hlines' (before ++ passed) haligned
  rw [← List.append_assoc]
  exact ⟨by rw [hcount', hcount, Nat.add_assoc], haligned'⟩

theorem of_aligned (passed : QString) (hne : passed ≠ []) (h : Aligned passed rest) :
    Passes (passed ++ rest) rest (lineEnds passed) := by
  refine ⟨passed, rfl, fun before hbefore => ?_⟩
  rw [Aligned, List.head?_append_of_ne_nil passed hne] at hbefore
  refine ⟨lineEnds_append hbefore, ?_⟩
  rwa [Aligned, List.getLast?_append_of_ne_nil before hne]

theorem of_oneLine (passed : QString) (h : OneLine passed) :
    Passes (passed ++ rest) rest 0 := by
  by_cases hne : passed = []
  · rw [hne]
    exact refl rest
  · rw [← lineEnds_of_oneLine h]
    refine of_aligned passed hne fun hsplit => ?_
    have hreturn := h _ (List.mem_of_getLast? hsplit.1)
    exact absurd hreturn (by decide)

end Passes

def plainComment : QString → Bool
  | [] => true
  | [c] => !isLineEnd c
  | c :: d :: rest =>
      if c = star ∧ d = slash then true else !isLineEnd c && plainComment (d :: rest)

theorem afterComment_oneLine (hplain : plainComment s = true)
    (h : afterComment s = some rest) : ∃ passed, s = passed ++ rest ∧ OneLine passed := by
  induction s using afterComment.induct with
  | case1 => cases h
  | case2 => cases h
  | case3 c d more hend =>
    rw [afterComment, if_pos hend] at h
    cases h
    refine ⟨[c, d], rfl, ?_⟩
    rw [hend.1, hend.2]
    exact List.forall_iff_forall_mem.mp (by decide)
  | case4 c d more hend ih =>
    rw [afterComment, if_neg hend] at h
    rw [plainComment, if_neg hend, Bool.and_eq_true, Bool.not_eq_true'] at hplain
    obtain ⟨passed, hs, hpassed⟩ := ih hplain.2 h
    exact ⟨c :: passed, congrArg (List.cons c) hs, List.forall_mem_cons.mpr ⟨hplain.1, hpassed⟩⟩

theorem oneLine_of_unterminated (hplain : plainComment s = true)
    (h : afterComment s = none) : OneLine s := by
  induction s using afterComment.induct with
  | case1 => exact List.forall_mem_nil _
  | case2 c =>
    rw [plainComment, Bool.not_eq_true'] at hplain
    exact List.forall_mem_singleton.mpr hplain
  | case3 c d more hend =>
    rw [afterComment, if_pos hend] at h
    cases h
  | case4 c d more hend ih =>
    rw [afterComment, if_neg hend] at h
    rw [plainComment, if_neg hend, Bool.and_eq_true, Bool.not_eq_true'] at hplain
    exact List.forall_mem_cons.mpr ⟨hplain.1, ih hplain.2 h⟩

def CommentOnOneLine (input : QString) : Prop :=
  ∀ rest, input = slash :: star :: rest → plainComment rest = true

theorem eq_cons_of_head? (h : s.head? = some c) : s = c :: s.tail := by
  cases s with
  | nil => cases h
  | cons d rest =>
    cases h
    rfl

theorem oneLine_pair {d : UInt16} (hc : isLineEnd c = false) (hd : isLineEnd d = false)
    {text : QString} (h : OneLine text) : OneLine (c :: d :: text) :=
  List.forall_mem_cons.mpr ⟨hc, List.forall_mem_cons.mpr ⟨hd, h⟩⟩

/-- What is deleted from the input has as many line ends as are counted. -/
theorem skip_passes {input : QString} {lines : ℕ} (hcomment : CommentOnOneLine input)
    (h : skip input = some (rest, lines)) : Passes input rest lines := by
  cases input with
  | nil => cases h
  | cons c more =>
    rw [skip] at h
    split_ifs at h with hnewline hreturn hpair hblank hline hblock
    · cases h
      rw [hnewline]
      exact Passes.of_aligned [newline] (List.cons_ne_nil _ _)
        fun hsplit => absurd hsplit.1 (by decide)
    · cases h
      rw [hreturn, eq_cons_of_head? hpair]
      exact Passes.of_aligned [carriageReturn, newline] (List.cons_ne_nil _ _)
        fun hsplit => absurd hsplit.1 (by decide)
    · cases h
      rw [hreturn]
      exact Passes.of_aligned [carriageReturn] (List.cons_ne_nil _ _)
        fun hsplit => hpair hsplit.2
    · cases h
      refine Passes.of_oneLine [c] (List.forall_mem_singleton.mpr ?_)
      rcases hblank with rfl | rfl <;> decide
    · split at h
      · cases h
      · rename_i d left hdrop
        cases h
        have hmore : more = slash :: more.tail.takeWhile (fun d => !isLineEnd d) ++ d :: left := by
          rw [List.cons_append, ← hdrop, List.takeWhile_append_dropWhile]
          exact eq_cons_of_head? hline.2
        rw [hline.1, hmore]
        refine Passes.of_oneLine (slash :: slash :: _) (oneLine_pair rfl rfl ?_)
        intro e he
        have hnot := List.mem_takeWhile_imp he
        rwa [Bool.not_eq_true'] at hnot
    · obtain ⟨left, hafter, hsome⟩ := Option.map_eq_some_iff.mp h
      cases hsome
      have hmore := eq_cons_of_head? hblock.2
      have hplain := hcomment more.tail (by rw [hblock.1, ← hmore])
      obtain ⟨passed, htail, hpassed⟩ := afterComment_oneLine hplain hafter
      rw [hblock.1, hmore, htail]
      exact Passes.of_oneLine (slash :: star :: passed) (oneLine_pair rfl rfl hpassed)

theorem of_skip_none (h : skip (c :: rest) = none) :
    isLineEnd c = false ∧
      (c = slash → rest.head? = some slash →
        rest.tail.dropWhile (fun d => !isLineEnd d) = []) ∧
      (c = slash → rest.head? = some star → afterComment rest.tail = none) := by
  rw [skip] at h
  split_ifs at h with hnewline hreturn hblank hline hblock
  · refine ⟨isLineEnd_eq_false.mpr ⟨hnewline, hreturn⟩, fun _ _ => ?_, fun _ hstar => ?_⟩
    · split at h
      · assumption
      · cases h
    · exact absurd (hline.2.symm.trans hstar) (by decide)
  · exact ⟨isLineEnd_eq_false.mpr ⟨hnewline, hreturn⟩, fun hc hslash => absurd ⟨hc, hslash⟩ hline,
      fun _ _ => Option.map_eq_none_iff.mp h⟩
  · exact ⟨isLineEnd_eq_false.mpr ⟨hnewline, hreturn⟩, fun hc hslash => absurd ⟨hc, hslash⟩ hline,
      fun hc hstar => absurd ⟨hc, hstar⟩ hblock⟩

section Strings

def stringEnd : QString → QString
  | [] => []
  | c :: rest =>
      if c = quote ∨ isLineEnd c then c :: rest
      else if c = backslash then
        match rest with
        | [] => []
        | d :: more => if isLineEnd d then d :: more else stringEnd more
      else stringEnd rest

inductive Closes : QString → QString → Prop
  | quote (after : QString) : Closes (quote :: after) after
  | escaped {d : UInt16} {rest after : QString} : isLineEnd d = false → Closes rest after →
      Closes (backslash :: d :: rest) after
  | plain {c : UInt16} {rest after : QString} : c ≠ quote → c ≠ backslash →
      isLineEnd c = false → Closes rest after → Closes (c :: rest) after

variable (p : Platform) {c : UInt16} {rest : QString}

/-- The input ends inside a string, in the digits of `\u` or `\U`. -/
def cutShort : QString → Bool
  | [] => false
  | c :: rest =>
      if c = quote ∨ isLineEnd c then false
      else if c = backslash then
        match rest with
        | [] => false
        | d :: more =>
            (d == unit 'u' && more.length < 4 || d == unit 'U' && more.length < 8) &&
              more.all p.isxdigit || cutShort more
      else cutShort rest

theorem stringEnd_stop (h : c = quote ∨ isLineEnd c = true) :
    stringEnd (c :: rest) = c :: rest := by
  rw [stringEnd.eq_def]
  exact if_pos h

theorem stringEnd_escaped (d : UInt16) (rest : QString) :
    stringEnd (backslash :: d :: rest) = if isLineEnd d then d :: rest else stringEnd rest := by
  rw [stringEnd.eq_def]
  rfl

theorem stringEnd_plain (hquote : c ≠ quote)
    (hline : isLineEnd c = false) (hbackslash : c ≠ backslash) :
    stringEnd (c :: rest) = stringEnd rest := by
  rw [stringEnd.eq_def]
  dsimp only
  rw [if_neg (by simp only [hquote, hline, Bool.false_eq_true, or_self, not_false_eq_true]),
    if_neg hbackslash]

theorem cutShort_escaped (d : UInt16) (rest : QString) :
    cutShort p (backslash :: d :: rest) =
      ((d == unit 'u' && rest.length < 4 || d == unit 'U' && rest.length < 8) &&
        rest.all p.isxdigit || cutShort p rest) := by
  rw [cutShort.eq_def]
  rfl

theorem cutShort_plain (hquote : c ≠ quote)
    (hline : isLineEnd c = false) (hbackslash : c ≠ backslash) :
    cutShort p (c :: rest) = cutShort p rest := by
  rw [cutShort.eq_def]
  dsimp only
  rw [if_neg (by simp only [hquote, hline, Bool.false_eq_true, or_self, not_false_eq_true]),
    if_neg hbackslash]

theorem closes_iff {s after : QString} : Closes s after ↔ stringEnd s = quote :: after := by
  constructor
  · intro h
    induction h with
    | quote after => exact stringEnd_stop (Or.inl rfl)
    | escaped hd _ ih => rw [stringEnd_escaped, if_neg (by rw [hd]; exact Bool.false_ne_true), ih]
    | plain hquote hbackslash hline _ ih => rw [stringEnd_plain hquote hline hbackslash, ih]
  · intro h
    induction s using stringEnd.induct with
    | case1 => cases h
    | case2 c rest hstop =>
      rw [stringEnd_stop hstop] at h
      cases h
      exact Closes.quote after
    | case3 => cases h
    | case4 d more hd _ =>
      rw [stringEnd_escaped, if_pos hd] at h
      cases h
      exact absurd hd (by decide)
    | case5 d more hd _ ih =>
      rw [stringEnd_escaped, if_neg hd] at h
      exact Closes.escaped (Bool.not_eq_true _ ▸ hd) (ih h)
    | case6 c rest hstop hbackslash ih =>
      obtain ⟨hquote, hline⟩ := not_or.mp hstop
      rw [Bool.not_eq_true] at hline
      rw [stringEnd_plain hquote hline hbackslash] at h
      exact Closes.plain hquote hbackslash hline (ih h)

theorem isxdigit_ne {d : UInt16} (h : p.isxdigit d = true) :
    d ≠ quote ∧ isLineEnd d = false ∧ d ≠ backslash := by
  have hnot : ∀ c : UInt16, c.toNat < 256 → isHexDigit c = false → d ≠ c := by
    rintro c hbyte hc rfl
    rw [p.isxdigit_byte d hbyte, hc] at h
    cases h
  exact ⟨hnot quote (by decide) (by decide),
    isLineEnd_eq_false.mpr ⟨hnot newline (by decide) (by decide),
      hnot carriageReturn (by decide) (by decide)⟩,
    hnot backslash (by decide) (by decide)⟩

/-- The digits of an escape are characters of the string like others. -/
theorem digits_append {ds : QString} (h : Digits p ds) (rest : QString) :
    stringEnd (ds ++ rest) = stringEnd rest ∧ cutShort p (ds ++ rest) = cutShort p rest := by
  induction ds with
  | nil => exact ⟨rfl, rfl⟩
  | cons d more ih =>
    obtain ⟨hd, hmore⟩ := List.forall_mem_cons.mp h
    obtain ⟨hquote, hline, hbackslash⟩ := isxdigit_ne p hd
    rw [List.cons_append, stringEnd_plain hquote hline hbackslash,
      cutShort_plain p hquote hline hbackslash]
    exact ih hmore

def EndsOnLine (s : QString) : Prop := ∀ c ∈ (stringEnd s).head?, isLineEnd c = false

/-- Where the digits of `\u` and `\U` are not cut short, no position behind the input is read. -/
theorem escape_inside {d : UInt16} (h : cutShort p (backslash :: d :: rest) = false) :
    (escape p d rest).2.2 = false ∧ stringEnd (escape p d rest).2.1 = stringEnd rest ∧
      cutShort p (escape p d rest).2.1 = false := by
  rw [cutShort_escaped, Bool.or_eq_false_iff] at h
  obtain ⟨ds, hescape⟩ := escape_spec p d rest
  have happend := digits_append p hescape.digits (escape p d rest).2.1
  rw [← hescape.passed] at happend
  refine ⟨?_, happend.1.symm, happend.2.symm.trans h.2⟩
  refine Bool.eq_false_iff.mpr fun houtside => ?_
  obtain ⟨hleft, hshort⟩ := hescape.outside houtside
  have hrest : rest = ds := by
    rw [hescape.passed, hleft, List.append_nil]
  have hall : rest.all p.isxdigit = true := List.all_eq_true.mpr (hrest ▸ hescape.digits)
  rw [hall, Bool.and_true, Bool.or_eq_false_iff, hrest] at h
  rcases hshort with ⟨rfl, hlength⟩ | ⟨rfl, hlength⟩
  · rw [beq_self_eq_true, Bool.true_and, decide_eq_false_iff_not] at h
    exact h.1.1 hlength
  · rw [beq_self_eq_true, Bool.true_and, decide_eq_false_iff_not] at h
    exact h.1.2 hlength

theorem readString_spec (s str : QString) (outside : Bool) (hline : EndsOnLine s)
    (hcut : cutShort p s = false) : (readString p s str outside).2 = (stringEnd s, outside) := by
  induction s, str, outside using readString.induct p with
  | case1 str outside => rw [readString_nil, stringEnd]
  | case2 str outside rest =>
    rw [readString_stop p rest str outside (Or.inl rfl), stringEnd_stop (Or.inl rfl)]
  | case3 str outside c rest _ hend =>
    rw [readString_stop p rest str outside (Or.inr hend), stringEnd_stop (Or.inr hend)]
  | case4 str outside => rw [readString_backslash, stringEnd.eq_def]; rfl
  | case5 str outside d rest _ _ ih =>
    have hd : ¬ isLineEnd d = true := by
      intro hd
      have hstop := hline d
      rw [stringEnd_escaped, if_pos hd] at hstop
      exact Bool.noConfusion (hd.symm.trans (hstop rfl))
    obtain ⟨hinside, hend, hcut'⟩ := escape_inside p hcut
    rw [EndsOnLine, stringEnd_escaped, if_neg hd, ← hend] at hline
    rw [readString_escaped, ih hline hcut', stringEnd_escaped, if_neg hd, hend, hinside,
      Bool.or_false]
  | case6 str outside c rest hquote hend hbackslash ih =>
    have hend' := (Bool.not_eq_true _).mp hend
    rw [EndsOnLine, stringEnd_plain hquote hend' hbackslash] at hline
    rw [cutShort_plain p hquote hend' hbackslash] at hcut
    rw [readString_plain p rest str outside hquote hend' hbackslash, ih hline hcut,
      stringEnd_plain hquote hend' hbackslash]

theorem stringEnd_oneLine (s : QString) : ∃ passed, s = passed ++ stringEnd s ∧ OneLine passed := by
  induction s using stringEnd.induct with
  | case1 => exact ⟨[], rfl, List.forall_mem_nil _⟩
  | case2 c rest hstop =>
    rw [stringEnd_stop hstop]
    exact ⟨[], rfl, List.forall_mem_nil _⟩
  | case3 =>
    refine ⟨[backslash], ?_, List.forall_mem_singleton.mpr (by decide)⟩
    rw [stringEnd.eq_def]
    rfl
  | case4 d more hd _ =>
    rw [stringEnd_escaped, if_pos hd]
    exact ⟨[backslash], rfl, List.forall_mem_singleton.mpr (by decide)⟩
  | case5 d more hd _ ih =>
    obtain ⟨passed, hmore, hpassed⟩ := ih
    rw [stringEnd_escaped, if_neg hd]
    refine ⟨backslash :: d :: passed, ?_, oneLine_pair rfl ((Bool.not_eq_true _).mp hd) hpassed⟩
    rw [List.cons_append, List.cons_append, ← hmore]
  | case6 c rest hstop hbackslash ih =>
    obtain ⟨passed, hrest, hpassed⟩ := ih
    obtain ⟨hquote, hline⟩ := not_or.mp hstop
    have hline' := (Bool.not_eq_true _).mp hline
    rw [stringEnd_plain hquote hline' hbackslash]
    exact ⟨c :: passed, congrArg (List.cons c) hrest, List.forall_mem_cons.mpr ⟨hline', hpassed⟩⟩

end Strings

section Tokens

structure Reads (input : QString) (t : Scanned) : Prop where
  inside : t.outside = false
  oneLine : ∃ passed, input = passed ++ t.rest ∧ OneLine passed

theorem oneLine_takeWhile {test : UInt16 → Bool} (hnewline : test newline = false)
    (hreturn : test carriageReturn = false) (s : QString) : OneLine (s.takeWhile test) := by
  intro c hc
  have htest := List.mem_takeWhile_imp hc
  refine isLineEnd_eq_false.mpr ⟨?_, ?_⟩
  · rintro rfl
    exact Bool.noConfusion (hnewline.symm.trans htest)
  · rintro rfl
    exact Bool.noConfusion (hreturn.symm.trans htest)

theorem operators_oneLine : ∀ o ∈ operators, OneLine o :=
  List.forall_iff_forall_mem.mp (by decide)

theorem extend_oneLine (text rest : QString) :
    ∃ passed, rest = passed ++ (extend text rest).2 ∧ OneLine passed := by
  induction rest generalizing text with
  | nil => exact ⟨[], rfl, List.forall_mem_nil _⟩
  | cons c more ih =>
    rw [extend]
    by_cases hc : text ++ [c] ∈ operators
    · obtain ⟨passed, hmore, hpassed⟩ := ih (text ++ [c])
      have hline :=
        operators_oneLine _ hc c (List.mem_append_right text (List.mem_singleton_self c))
      rw [if_pos hc]
      exact ⟨c :: passed, congrArg (List.cons c) hmore, List.forall_mem_cons.mpr ⟨hline, hpassed⟩⟩
    · rw [if_neg hc]
      exact ⟨[], rfl, List.forall_mem_nil _⟩

variable {c : UInt16} {rest s : QString}

theorem literal_reads (rest : QString) (hc : isLineEnd c = false) :
    Reads (c :: rest) (literal c rest) := by
  obtain ⟨passed, hrest, hpassed⟩ := extend_oneLine [c] rest
  exact ⟨rfl, c :: passed, congrArg (List.cons c) hrest, List.forall_mem_cons.mpr ⟨hc, hpassed⟩⟩

theorem integer_spec (value : ℕ) (rest : QString) (outside : Bool) :
    (integer value rest outside).rest = rest ∧ (integer value rest outside).outside = outside := by
  unfold integer
  split_ifs <;> exact ⟨rfl, rfl⟩

theorem hexadecimal_reads (h : isHexadecimal c rest = true) :
    Reads (c :: rest) (hexadecimal rest.tail) := by
  rw [isHexadecimal, Bool.and_eq_true, Bool.and_eq_true, Bool.or_eq_true, beq_iff_eq, beq_iff_eq,
    beq_iff_eq] at h
  obtain ⟨⟨rfl, hx⟩, _⟩ := h
  have hdigits : OneLine (rest.tail.takeWhile isHexDigit) :=
    oneLine_takeWhile (by decide) (by decide) _
  have hsplit : rest.tail = rest.tail.takeWhile isHexDigit ++ rest.tail.dropWhile isHexDigit :=
    List.takeWhile_append_dropWhile.symm
  refine ⟨(integer_spec _ _ _).2, ?_⟩
  rw [hexadecimal, (integer_spec _ _ _).1]
  rcases hx with hx | hx
  · refine ⟨unit '0' :: unit 'x' :: _, ?_, oneLine_pair rfl rfl hdigits⟩
    rw [List.cons_append, List.cons_append, ← hsplit]
    exact congrArg _ (eq_cons_of_head? hx)
  · refine ⟨unit '0' :: unit 'X' :: _, ?_, oneLine_pair rfl rfl hdigits⟩
    rw [List.cons_append, List.cons_append, ← hsplit]
    exact congrArg _ (eq_cons_of_head? hx)

variable (p : Platform)

/-- The comparison with the decimal point is inside the input when something follows the
digits. -/
theorem decimal_reads {input : QString} (h : input.dropWhile QString.isDigit ≠ []) :
    Reads input (decimal p input) := by
  have hdigits : ∀ s : QString, OneLine (s.takeWhile QString.isDigit) :=
    oneLine_takeWhile (by decide) (by decide)
  have hsplit : input = input.takeWhile QString.isDigit ++ input.dropWhile QString.isDigit :=
    List.takeWhile_append_dropWhile.symm
  unfold decimal
  split
  · rename_i hnil
    exact absurd hnil h
  · rename_i c rest hcons
    rw [hcons] at hsplit
    by_cases hpoint : c = unit '.'
    · have hfraction : ∃ passed, input = passed ++ rest.dropWhile QString.isDigit ∧
          OneLine passed := by
        refine ⟨input.takeWhile QString.isDigit ++ c :: rest.takeWhile QString.isDigit, ?_, ?_⟩
        · rw [List.append_assoc, List.cons_append, List.takeWhile_append_dropWhile]
          exact hsplit
        · refine List.forall_mem_append.mpr ⟨hdigits input, List.forall_mem_cons.mpr ⟨?_, ?_⟩⟩
          · rw [hpoint]
            rfl
          · exact hdigits rest
      rw [if_pos hpoint]
      dsimp only
      split_ifs
      · exact ⟨rfl, hfraction⟩
      · exact ⟨rfl, hfraction⟩
    · rw [if_neg hpoint]
      refine ⟨(integer_spec _ _ _).2, _, ?_, hdigits input⟩
      rw [(integer_spec _ _ _).1]
      exact hsplit

theorem name_reads (keywords : Keywords) (input : QString) : Reads input (name keywords input) :=
  ⟨rfl, input.takeWhile isNameCharacter, List.takeWhile_append_dropWhile.symm,
    oneLine_takeWhile (by decide) (by decide) input⟩

theorem stringEnd_head (h : stringEnd s = c :: rest) :
    c = quote ∨ isLineEnd c = true := by
  induction s using stringEnd.induct with
  | case1 => cases h
  | case2 d more hstop =>
    rw [stringEnd_stop hstop] at h
    cases h
    exact hstop
  | case3 => cases h
  | case4 d more hd _ =>
    rw [stringEnd_escaped, if_pos hd] at h
    cases h
    exact Or.inr hd
  | case5 d more hd _ ih =>
    rw [stringEnd_escaped, if_neg hd] at h
    exact ih h
  | case6 d more hstop hbackslash ih =>
    obtain ⟨hquote, hline⟩ := not_or.mp hstop
    rw [stringEnd_plain hquote ((Bool.not_eq_true _).mp hline) hbackslash] at h
    exact ih h

theorem stringEnd_cases (hline : EndsOnLine s) :
    stringEnd s = [] ∨ ∃ rest, stringEnd s = quote :: rest := by
  cases hend : stringEnd s with
  | nil => exact Or.inl rfl
  | cons c rest =>
    have hc : isLineEnd c = false := hline c (by rw [hend]; rfl)
    have hquote : c = quote := (stringEnd_head hend).resolve_right
      (by rw [hc]; exact Bool.false_ne_true)
    exact Or.inr ⟨rest, by rw [hquote]⟩

theorem string_open (hcut : cutShort p s = false) (h : stringEnd s = []) :
    (string p s).outcome = .error ∧ (string p s).rest = [] ∧ (string p s).outside = false := by
  have hread := readString_spec p s [] false (by rw [EndsOnLine, h]; exact nofun) hcut
  unfold string
  generalize readString p s [] false = read at hread ⊢
  obtain ⟨str, left, outside⟩ := read
  obtain ⟨rfl, rfl⟩ := Prod.mk.inj hread
  rw [h]
  exact ⟨rfl, rfl, rfl⟩

theorem string_closed (hcut : cutShort p s = false)
    (h : stringEnd s = quote :: rest) :
    (∃ text, (string p s).outcome = .token (.string text)) ∧ (string p s).rest = rest ∧
      (string p s).outside = false := by
  have hline : EndsOnLine s := by
    rw [EndsOnLine, h]
    rintro c ⟨⟩
    rfl
  have hread := readString_spec p s [] false hline hcut
  unfold string
  generalize readString p s [] false = read at hread ⊢
  obtain ⟨str, left, outside⟩ := read
  obtain ⟨rfl, rfl⟩ := Prod.mk.inj hread
  rw [h]
  exact ⟨⟨str, rfl⟩, rfl, rfl⟩

theorem string_reads (hline : EndsOnLine s) (hcut : cutShort p s = false) :
    Reads (quote :: s) (string p s) := by
  obtain ⟨passed, hs, hpassed⟩ := stringEnd_oneLine s
  have hstart : OneLine (quote :: passed) := List.forall_mem_cons.mpr ⟨rfl, hpassed⟩
  rcases stringEnd_cases hline with hend | ⟨rest, hend⟩
  · obtain ⟨_, hrest, hinside⟩ := string_open p hcut hend
    refine ⟨hinside, quote :: passed, ?_, hstart⟩
    rw [hrest, List.cons_append, ← hend, ← hs]
  · obtain ⟨_, hrest, hinside⟩ := string_closed p hcut hend
    refine ⟨hinside, quote :: passed ++ [quote], ?_,
      List.forall_mem_append.mpr ⟨hstart, List.forall_mem_singleton.mpr rfl⟩⟩
    rw [hrest, List.append_assoc, List.singleton_append, List.cons_append, ← hend, ← hs]

/-- What a token that starts with a quote is: a string exactly if a quote closes it on its line,
and then the quote is the last character that is passed; otherwise it is an error. -/
structure StringRule (s : QString) (outcome : Outcome) (rest : QString) : Prop where
  isString : (∃ text, outcome = .token (.string text)) ↔ ∃ after, Closes s after
  consumed : ∀ after, Closes s after → rest = after
  isError : (¬ ∃ after, Closes s after) → outcome = .error

theorem string_rule (hline : EndsOnLine s) (hcut : cutShort p s = false) :
    StringRule s (string p s).outcome (string p s).rest := by
  rcases stringEnd_cases hline with hend | ⟨rest, hend⟩
  · obtain ⟨herror, _, _⟩ := string_open p hcut hend
    have hopen : ¬ ∃ after, Closes s after := by
      rintro ⟨after, hafter⟩
      cases hend.symm.trans (closes_iff.mp hafter)
    refine ⟨⟨fun ⟨text, htext⟩ => ?_, fun h => absurd h hopen⟩,
      fun after hafter => absurd ⟨after, hafter⟩ hopen, fun _ => herror⟩
    cases herror.symm.trans htext
  · obtain ⟨hstring, hrest, _⟩ := string_closed p hcut hend
    have hcloses : Closes s rest := closes_iff.mpr hend
    refine ⟨⟨fun _ => ⟨rest, hcloses⟩, fun _ => hstring⟩, fun after hafter => ?_,
      fun hopen => absurd ⟨rest, hcloses⟩ hopen⟩
    exact hrest.trans (List.cons.inj (hend.symm.trans (closes_iff.mp hafter))).2

/-- No line end is inside a C comment or a string that starts at the position, and the input does
not end with the digits of a number, or of `\u` or `\U`, that starts there. -/
structure Plain (input : QString) : Prop where
  comment : CommentOnOneLine input
  string : ∀ s, input = quote :: s → EndsOnLine s ∧ cutShort p s = false
  number : input ≠ [] → ∃ c ∈ input, QString.isDigit c = false

theorem readToken_reads (keywords : Keywords) {input : QString} (hskip : skip input = none)
    (hplain : Plain p input) : Reads input (readToken p keywords input) := by
  cases input with
  | nil => exact ⟨rfl, [], rfl, List.forall_mem_nil _⟩
  | cons c rest =>
    obtain ⟨hline, hlineComment, hcomment⟩ := of_skip_none hskip
    rw [readToken]
    split_ifs with hquote hhexadecimal hdigit hname hslash hstar hend
    · rw [hquote]
      obtain ⟨hends, hcut⟩ := hplain.string rest (by rw [hquote])
      exact string_reads p hends hcut
    · exact hexadecimal_reads hhexadecimal
    · refine decimal_reads p fun hnil => ?_
      obtain ⟨d, hd, hnot⟩ := hplain.number (List.cons_ne_nil c rest)
      exact Bool.noConfusion (hnot.symm.trans (List.dropWhile_eq_nil_iff.mp hnil d hd))
    · exact name_reads keywords (c :: rest)
    · have htail : OneLine rest.tail := by
        intro d hd
        have hnot := List.dropWhile_eq_nil_iff.mp (hlineComment hslash.1 hslash.2) d hd
        rwa [Bool.not_eq_true'] at hnot
      refine ⟨rfl, c :: rest, (List.append_nil _).symm, ?_⟩
      rw [eq_cons_of_head? hslash.2, hslash.1]
      exact oneLine_pair rfl rfl htail
    · have hstart := eq_cons_of_head? hstar.2
      have htail := oneLine_of_unterminated
        (hplain.comment rest.tail (by rw [hstar.1, ← hstart])) (hcomment hstar.1 hstar.2)
      refine ⟨rfl, c :: rest, (List.append_nil _).symm, ?_⟩
      rw [hstart, hstar.1]
      exact oneLine_pair rfl rfl htail
    · exact ⟨rfl, [c], rfl, List.forall_mem_singleton.mpr hline⟩
    · exact literal_reads rest hline

end Tokens

section Calls

variable (p : Platform) {input : QString}

def start (input : QString) : QString :=
  match _h : skip input with
  | some (rest, _) => start rest
  | none => input
termination_by input.length
decreasing_by exact length_skip _h

theorem start_of_skip {rest : QString} {lines : ℕ} (h : skip input = some (rest, lines)) :
    start input = start rest := by
  rw [start]
  split
  · rename_i rest' lines' hskip
    cases h.symm.trans hskip
    rfl
  · rename_i hskip
    cases h.symm.trans hskip

theorem start_of_token (h : skip input = none) : start input = input := by
  rw [start]
  split
  · rename_i rest' lines' hskip
    cases h.symm.trans hskip
  · rfl

inductive Fine : QString → Prop
  | restart {input rest : QString} {lines : ℕ} : skip input = some (rest, lines) →
      Plain p input → Fine rest → Fine input
  | token {input : QString} : skip input = none → Plain p input → Fine input

/-- What is asked of one call. -/
structure ScanRule (input : QString) (scanned : Scanned × ℕ) : Prop where
  inside : scanned.1.outside = false
  passes : Passes input scanned.1.rest scanned.2
  string : ∀ s, start input = quote :: s → StringRule s scanned.1.outcome scanned.1.rest

theorem scan_rule (keywords : Keywords) (h : Fine p input) :
    ScanRule input (scan p keywords input) := by
  induction h with
  | restart hskip hplain _ ih =>
    rw [scan_of_skip p hskip]
    refine ⟨ih.inside, (skip_passes hplain.comment hskip).trans ih.passes, fun s hs => ?_⟩
    exact ih.string s ((start_of_skip hskip).symm.trans hs)
  | token hskip hplain =>
    rename_i input
    rw [scan_of_token p hskip]
    obtain ⟨hinside, passed, hinput, hpassed⟩ := readToken_reads p keywords hskip hplain
    refine ⟨hinside, ?_, fun s hs => ?_⟩
    · nth_rewrite 1 [hinput]
      exact Passes.of_oneLine passed hpassed
    · rw [start_of_token hskip] at hs
      obtain ⟨hline, hcut⟩ := hplain.string s hs
      rw [hs, readToken, if_pos rfl]
      exact string_rule p hline hcut

namespace Lexer

/-- What is asked of every state. -/
structure Sound (l : Lexer) : Prop where
  inside : l.outside = false
  line : l.fLine = 1 + lineEnds l.consumed
  aligned : Aligned l.consumed l.rest

theorem setInput_sound (l : Lexer) (input : QString) : (l.setInput input).Sound :=
  ⟨rfl, rfl, fun h => by cases h.1⟩

theorem consumed_append_rest (l : Lexer) : l.consumed ++ l.rest = l.fInput :=
  List.take_append_drop l.fPos l.fInput

theorem moved {l : Lexer} {passed left : QString} (h : l.rest = passed ++ left) :
    l.fInput.take (l.fInput.length - left.length) = l.consumed ++ passed ∧
      l.fInput.drop (l.fInput.length - left.length) = left := by
  have hinput : l.fInput = (l.consumed ++ passed) ++ left := by
    rw [List.append_assoc, ← h, consumed_append_rest]
  have hlength : l.fInput.length - left.length = (l.consumed ++ passed).length := by
    rw [hinput, List.length_append, Nat.add_sub_cancel]
  rw [hlength, hinput]
  exact ⟨List.take_left, List.drop_left⟩

theorem setError_same (l : Lexer) (error : Option (ErrorCode × QString)) :
    (l.setError error).consumed = l.consumed ∧ (l.setError error).rest = l.rest ∧
      (l.setError error).fLine = l.fLine ∧ (l.setError error).outside = l.outside := by
  cases error <;> exact ⟨rfl, rfl, rfl, rfl⟩

theorem nextToken_sound {l : Lexer} (hfine : Fine p l.rest) (h : l.Sound) :
    (l.nextToken p).2.Sound ∧ ∀ s, start l.rest = quote :: s →
      StringRule s (l.nextToken p).1 (l.nextToken p).2.rest := by
  obtain ⟨hinside, ⟨passed, hrest, hlines⟩, hstring⟩ := scan_rule p l.fKeywords hfine
  obtain ⟨htake, hdrop⟩ := moved hrest
  obtain ⟨hcount, haligned⟩ := hlines l.consumed h.aligned
  unfold nextToken
  generalize scan p l.fKeywords l.rest = result at *
  obtain ⟨scanned, lines⟩ := result
  dsimp only
  obtain ⟨hconsumed', hrest', hline', houtside'⟩ := setError_same
    { l with
      fPos := l.fInput.length - scanned.rest.length
      fLine := l.fLine + lines
      outside := l.outside || scanned.outside } scanned.error
  have hconsumed'' := hconsumed'.trans htake
  have hrest'' := hrest'.trans hdrop
  refine ⟨⟨?_, ?_, ?_⟩, ?_⟩
  · rw [houtside', h.inside, hinside, Bool.or_false]
  · rw [hline', hconsumed'', hcount, h.line, Nat.add_assoc]
  · rw [hconsumed'', hrest'']
    exact haligned
  · rw [hrest'']
    exact hstring

theorem after_sound (l : Lexer) (input : QString) (n : ℕ)
    (hfine : ∀ i < n, Fine p ((l.setInput input).after p i).rest) :
    ((l.setInput input).after p n).Sound := by
  induction n with
  | zero => exact setInput_sound l input
  | succ n ih =>
    have hbefore := ih fun i hi => hfine i (Nat.lt_succ_of_lt hi)
    exact (nextToken_sound p (hfine n (Nat.lt_succ_self n)) hbefore).1

/-- Nothing behind the input is read, the line is 1 and the line ends that were passed, and every
token that starts with a quote follows the rule of strings. -/
theorem nextToken_run (l : Lexer) (input : QString) (n : ℕ)
    (hfine : ∀ i < n, Fine p ((l.setInput input).after p i).rest) :
    ((l.setInput input).after p n).outside = false ∧
      ((l.setInput input).after p n).fLine =
        1 + lineEnds ((l.setInput input).after p n).consumed ∧
      ∀ i < n, ∀ s, start ((l.setInput input).after p i).rest = quote :: s →
        StringRule s (((l.setInput input).after p i).nextToken p).1
          ((l.setInput input).after p (i + 1)).rest := by
  have hsound := after_sound p l input n hfine
  refine ⟨hsound.inside, hsound.line, fun i hi s hs => ?_⟩
  have hbefore := after_sound p l input i fun j hj => hfine j (hj.trans hi)
  exact (nextToken_sound p (hfine i hi) hbefore).2 s hs

def bytes : Platform where
  isxdigit := isHexDigit
  isxdigit_byte _ _ := rfl
  fromUcs4 c := [c.toUInt16]
  toDoubleOk _ := true

/-- The string `"b"`. -/
theorem nextToken_run_string :
    Fine bytes [quote, unit 'b', quote] ∧
      ((({} : Lexer).setInput [quote, unit 'b', quote]).after bytes 1).outside = false ∧
      ((({} : Lexer).setInput [quote, unit 'b', quote]).after bytes 1).fLine =
        1 + lineEnds ((({} : Lexer).setInput [quote, unit 'b', quote]).after bytes 1).consumed ∧
      StringRule [unit 'b', quote]
        ((({} : Lexer).setInput [quote, unit 'b', quote]).nextToken bytes).1
        ((({} : Lexer).setInput [quote, unit 'b', quote]).after bytes 1).rest := by
  have hskip : skip [quote, unit 'b', quote] = none := by decide
  have hfine : Fine bytes [quote, unit 'b', quote] := by
    refine Fine.token hskip ⟨fun rest h => ?_, fun s h => ?_,
      fun _ => ⟨quote, by decide, by decide⟩⟩
    · exact absurd (List.cons.inj h).1 (by decide)
    · obtain ⟨_, rfl⟩ := List.cons.inj h
      refine ⟨fun c hc => ?_, by decide⟩
      cases hc
      rfl
  obtain ⟨hinside, hline, hstring⟩ := nextToken_run bytes {} [quote, unit 'b', quote] 1 (by
    intro i hi
    obtain rfl := Nat.lt_one_iff.mp hi
    exact hfine)
  exact ⟨hfine, hinside, hline, hstring 0 Nat.one_pos [unit 'b', quote] (start_of_token hskip)⟩

theorem readString_newline : readString bytes [newline] [] false = ([], [newline], false) :=
  readString_stop bytes [] [] false (Or.inr (by decide))

/-- A string that is broken by a line end is returned, and the line end is passed like a quote. -/
theorem nextToken_broken :
    ((({} : Lexer).setInput [quote, newline]).nextToken bytes).1 = .token (.string []) ∧
      ((({} : Lexer).setInput [quote, newline]).nextToken bytes).2.fLine = 1 ∧
      ((({} : Lexer).setInput [quote, newline]).nextToken bytes).2.consumed = [quote, newline] := by
  have hscan : scan bytes [] [quote, newline] =
      ({ outcome := .token (.string []), rest := [] }, 0) := by
    rw [scan_of_token bytes (by decide), readToken, if_pos rfl, string, readString_newline]
  have hrest : (({} : Lexer).setInput [quote, newline]).rest = [quote, newline] := rfl
  have hkeywords : (({} : Lexer).setInput [quote, newline]).fKeywords = [] := rfl
  unfold nextToken
  rw [hrest, hkeywords, hscan]
  exact ⟨rfl, rfl, rfl⟩

theorem nextToken_number :
    ((({} : Lexer).setInput [unit '1']).nextToken bytes).2.outside = true := by
  have hscan : scan bytes [] [unit '1'] =
      ({ outcome := .token (.integer 1), rest := [], outside := true }, 0) := by
    rw [scan_of_token bytes (by decide)]
    rfl
  have hrest : (({} : Lexer).setInput [unit '1']).rest = [unit '1'] := rfl
  have hkeywords : (({} : Lexer).setInput [unit '1']).fKeywords = [] := rfl
  unfold nextToken
  rw [hrest, hkeywords, hscan]
  rfl

/-- The number `1` and a string that is broken by a line end. -/
theorem lexer_slips :
    ((({} : Lexer).setInput [unit '1']).after bytes 1).outside = true ∧
      start (({} : Lexer).setInput [quote, newline]).rest = [quote, newline] ∧
      ¬ StringRule [newline] ((({} : Lexer).setInput [quote, newline]).nextToken bytes).1
        ((({} : Lexer).setInput [quote, newline]).after bytes 1).rest ∧
      ((({} : Lexer).setInput [quote, newline]).after bytes 1).fLine ≠
        1 + lineEnds ((({} : Lexer).setInput [quote, newline]).after bytes 1).consumed := by
  obtain ⟨hstring, hline, hconsumed⟩ := nextToken_broken
  refine ⟨nextToken_number, start_of_token (by decide), fun hrule => ?_, ?_⟩
  · obtain ⟨after, hafter⟩ := hrule.isString.mp ⟨[], hstring⟩
    cases closes_iff.mp hafter
  · rw [after, after, hline, hconsumed]
    decide

end Lexer

end Calls

end SnapCpp.ParserLexer
