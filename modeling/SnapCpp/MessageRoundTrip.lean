import SnapCpp.CommunicatorMessage

/-!
Reading back what a message was written as. A value goes through two layers:
backslashes and line ends are escaped, then the value is quoted if it has to be.
The reader takes the quotes off first. The lemmas follow the layers, from the
characters of a value to whole messages.
-/
namespace SnapCpp.MessageRoundTrip

open QString Utf StringReplace CommunicatorMessage

def escapeChar (c : Char) : List Char :=
  if c = '\\' then ['\\', '\\'] else if c = '\n' then ['\\', 'n']
  else if c = '\r' then ['\\', 'r'] else [c]

def escape (cs : List Char) : List Char := stringReplaceMany cs escapes

def unescape (cs : List Char) : List Char := stringReplaceMany cs unescapes

theorem escape_cons (c : Char) (cs : List Char) : escape (c :: cs) = escapeChar c ++ escape cs := by
  unfold escape stringReplaceMany
  rw [replaceFrom]
  by_cases hbackslash : c = '\\'
  · subst hbackslash
    rfl
  · by_cases hn : c = '\n'
    · subst hn
      rfl
    · by_cases hr : c = '\r'
      · subst hr
        rfl
      · simp [escapes, escapeChar, List.isPrefixOf_cons_cons, Ne.symm hbackslash,
          Ne.symm hn, Ne.symm hr, hbackslash, hn, hr, beq_false_of_ne]

variable {c : Char} {cs : List Char} {s name : QString}

theorem unescape_cons (cs : List Char) (h : c ≠ '\\') :
    unescape (c :: cs) = c :: unescape cs := by
  unfold unescape stringReplaceMany
  rw [replaceFrom]
  simp [unescapes, List.isPrefixOf_cons_cons, beq_false_of_ne (Ne.symm h)]

theorem unescape_backslash (c : Char) (cs : List Char) : unescape ('\\' :: c :: cs) =
    if c = '\\' then '\\' :: unescape cs else if c = 'n' then '\n' :: unescape cs
    else if c = 'r' then '\r' :: unescape cs else '\\' :: unescape (c :: cs) := by
  unfold unescape stringReplaceMany
  rw [replaceFrom]
  by_cases hbackslash : c = '\\'
  · subst hbackslash
    rfl
  · by_cases hn : c = 'n'
    · subst hn
      rfl
    · by_cases hr : c = 'r'
      · subst hr
        rfl
      · simp [unescapes, List.isPrefixOf_cons_cons, Ne.symm hbackslash,
          Ne.symm hn, Ne.symm hr, hbackslash, hn, hr, beq_false_of_ne]

theorem unescape_escape (cs : List Char) : unescape (escape cs) = cs := by
  induction cs with
  | nil => rfl
  | cons c rest ih =>
    rw [escape_cons]
    unfold escapeChar
    split_ifs with hbackslash hn hr
    · subst hbackslash
      simp [unescape_backslash, ih]
    · subst hn
      simp [unescape_backslash, ih]
    · subst hr
      simp [unescape_backslash, ih]
    · rw [List.singleton_append, unescape_cons _ hbackslash, ih]

theorem mem_escape (h : c ∈ escape cs) :
    c ∈ cs ∨ c = '\\' ∨ c = 'n' ∨ c = 'r' := by
  rcases mem_replaceFrom h with h | h
  · exact Or.inl h
  · exact Or.inr (by simpa [escapes, or_assoc, or_comm, or_left_comm] using h)

theorem mem_unescape (h : c ∈ unescape cs) :
    c ∈ cs ∨ c = '\\' ∨ c = '\n' ∨ c = '\r' := by
  rcases mem_replaceFrom h with h | h
  · exact Or.inl h
  · exact Or.inr (by simpa [unescapes, or_assoc, or_comm, or_left_comm] using h)

/-- A character that is not escaped stays in front. -/
theorem escape_cons_of_ne (cs : List Char) (h : c ≠ '\\' ∧ c ≠ '\n' ∧ c ≠ '\r') :
    escape (c :: cs) = c :: escape cs := by
  rw [escape_cons, escapeChar, if_neg h.1, if_neg h.2.1, if_neg h.2.2]
  rfl

theorem escape_ne_nil (c : Char) : escapeChar c ≠ [] := by
  unfold escapeChar
  split_ifs <;> simp

theorem head_escape (cs : List Char) (h : c ≠ '\\' ∧ c ≠ '\n' ∧ c ≠ '\r') :
    (escape cs).head? = some c ↔ cs.head? = some c := by
  cases cs with
  | nil => exact Iff.rfl
  | cons a rest =>
    rw [escape_cons, List.head?_append_of_ne_nil _ (escape_ne_nil a), List.head?_cons,
      escapeChar]
    split_ifs with h₁ h₂ h₃
    · simp [h₁, Ne.symm h.1]
    · simp [h₂, Ne.symm h.1, Ne.symm h.2.1]
    · simp [h₃, Ne.symm h.1, Ne.symm h.2.2]
    · simp

theorem escape_append (front back : List Char) :
    escape (front ++ back) = escape front ++ escape back := by
  induction front with
  | nil => rfl
  | cons c rest ih => rw [List.cons_append, escape_cons, ih, escape_cons, List.append_assoc]

/-- A value ends with a backslash exactly when what is written for it does. -/
theorem last_escape (cs : List Char) :
    (escape cs).getLast? = some '\\' ↔ cs.getLast? = some '\\' := by
  rcases List.eq_nil_or_concat' cs with rfl | ⟨front, c, rfl⟩
  · exact Iff.rfl
  · have hlast : escape [c] = escapeChar c := by
      rw [escape_cons]
      exact List.append_nil _
    rw [escape_append, hlast, List.getLast?_append_of_ne_nil _ (escape_ne_nil c),
      List.getLast?_concat, escapeChar]
    split_ifs with h₁ h₂ h₃
    · simp [h₁]
    · simp [h₂]
    · simp [h₃]
    · simp

theorem mem_escape_iff (cs : List Char)
    (h : c ≠ '\\' ∧ c ≠ '\n' ∧ c ≠ '\r' ∧ c ≠ 'n' ∧ c ≠ 'r') : c ∈ escape cs ↔ c ∈ cs := by
  constructor
  · intro hmem
    rcases mem_escape hmem with hmem | hmem | hmem | hmem
    · exact hmem
    · exact absurd hmem h.1
    · exact absurd hmem h.2.2.2.1
    · exact absurd hmem h.2.2.2.2
  · intro hmem
    rw [← unescape_escape cs] at hmem
    rcases mem_unescape hmem with hmem | hmem | hmem | hmem
    · exact hmem
    · exact absurd hmem h.1
    · exact absurd hmem h.2.1
    · exact absurd hmem h.2.2.1

/-- The cases of reading a value, with what is left to read. -/
theorem unescape_induction {motive : List Char → Prop} (nil : motive []) (single : motive ['\\'])
    (plain : ∀ c rest, c ≠ '\\' → motive rest → motive (c :: rest))
    (escaped : ∀ c d rest, unescape ('\\' :: c :: rest) = d :: unescape rest →
      (d = '\\' → c = '\\') → motive rest → motive ('\\' :: c :: rest))
    (other : ∀ c rest, unescape ('\\' :: c :: rest) = '\\' :: unescape (c :: rest) →
      motive (c :: rest) → motive ('\\' :: c :: rest)) (cs : List Char) : motive cs := by
  generalize hlength : cs.length = n
  induction n using Nat.strong_induction_on generalizing cs with
  | _ n ih =>
    subst hlength
    match cs with
    | [] => exact nil
    | [c] =>
      by_cases hc : c = '\\'
      · exact hc ▸ single
      · exact plain c [] hc nil
    | a :: c :: rest =>
      by_cases ha : a = '\\'
      · subst ha
        have hread := unescape_backslash c rest
        have hrest : motive rest := ih rest.length (Nat.lt_succ_of_lt (Nat.lt_succ_self _)) rest rfl
        split_ifs at hread with h₁ h₂ h₃
        · exact escaped c _ rest hread (fun _ => h₁) hrest
        · exact escaped c _ rest hread (fun h => absurd h (by decide)) hrest
        · exact escaped c _ rest hread (fun h => absurd h (by decide)) hrest
        · exact other c rest hread (ih (c :: rest).length (by simp) (c :: rest) rfl)
      · exact plain a (c :: rest) ha (ih (c :: rest).length (by simp) (c :: rest) rfl)

theorem unescape_eq_nil (h : unescape cs = []) : cs = [] := by
  induction cs using unescape_induction with
  | nil => rfl
  | single => cases h
  | plain c rest hc ih =>
    rw [unescape_cons rest hc] at h
    cases h
  | escaped c d rest hread hd ih =>
    rw [hread] at h
    cases h
  | other c rest hread ih =>
    rw [hread] at h
    cases h

/-- What is read ends with a backslash only if what was written does. -/
theorem last_of_unescape (h : (unescape cs).getLast? = some '\\') :
    cs.getLast? = some '\\' := by
  have htail : ∀ (a b : Char) (rest : List Char), rest ≠ [] →
      ((unescape rest).getLast? = some '\\' → rest.getLast? = some '\\') →
      (b :: unescape rest).getLast? = some '\\' → (a :: rest).getLast? = some '\\' := by
    intro a b rest hrest ih hlast
    rw [List.getLast?_cons_of_ne_nil (fun hnil => hrest (unescape_eq_nil hnil))] at hlast
    rw [List.getLast?_cons_of_ne_nil hrest]
    exact ih hlast
  induction cs using unescape_induction with
  | nil => cases h
  | single => rfl
  | plain c rest hc ih =>
    rw [unescape_cons rest hc] at h
    by_cases hrest : rest = []
    · subst hrest
      exact absurd (Option.some.inj h) hc
    · exact htail c c rest hrest ih h
  | escaped c d rest hread hd ih =>
    rw [hread] at h
    rw [List.getLast?_cons_of_ne_nil (List.cons_ne_nil c rest)]
    by_cases hrest : rest = []
    · subst hrest
      exact congrArg some (hd (Option.some.inj h))
    · exact htail c d rest hrest ih h
  | other c rest hread ih =>
    rw [hread] at h
    exact htail '\\' '\\' (c :: rest) (List.cons_ne_nil c rest) ih h

/-- A character that no replacement makes is read from the front of the text. -/
theorem cons_of_unescape {out : List Char}
    (hc : c ≠ '\\' ∧ c ≠ '\n' ∧ c ≠ '\r') (h : unescape cs = c :: out) :
    ∃ rest, cs = c :: rest ∧ unescape rest = out := by
  cases cs with
  | nil => cases h
  | cons a rest =>
    by_cases ha : a = '\\'
    · subst ha
      exfalso
      cases rest with
      | nil => exact hc.1 (List.cons.inj h).1.symm
      | cons d rest =>
        rw [unescape_backslash] at h
        split_ifs at h
        · exact hc.1 (List.cons.inj h).1.symm
        · exact hc.2.1 (List.cons.inj h).1.symm
        · exact hc.2.2 (List.cons.inj h).1.symm
        · exact hc.1 (List.cons.inj h).1.symm
    · rw [unescape_cons rest ha] at h
      obtain ⟨rfl, hout⟩ := List.cons.inj h
      exact ⟨rest, rfl, hout⟩

def nul : Char := Char.ofNat 0

def IsText (value : QString) : Prop := ∃ cs, nul ∉ cs ∧ value = utf16 cs

theorem escapes_ascii : AsciiTable escapes where
  needle := by simp [escapes, IsAscii]
  replacement := by simp [escapes, IsAscii]

theorem unescapes_ascii : AsciiTable unescapes where
  needle := by simp [unescapes, IsAscii]
  replacement := by simp [unescapes, IsAscii]

theorem cString_utf8 (h : nul ∉ cs) : cString (utf8 cs) = utf8 cs := by
  refine List.takeWhile_eq_self_iff.mpr (fun b hb => ?_)
  have hzero : b ≠ 0 := by
    rintro rfl
    exact h ((utf8_asciiCompatible.mem_iff (a := nul) (by decide) cs).mp hb)
  simpa using hzero

theorem nul_notMem_escape (h : nul ∉ cs) : nul ∉ escape cs := by
  rw [mem_escape_iff cs (by decide)]
  exact h

theorem nul_notMem_unescape (h : nul ∉ cs) : nul ∉ unescape cs := by
  intro hmem
  rcases mem_unescape hmem with hmem | hmem | hmem | hmem
  · exact h hmem
  all_goals exact absurd hmem (by decide)

theorem skipMark_escape (cs : List Char) : skipMark (escape cs) = escape (skipMark cs) := by
  cases cs with
  | nil => rfl
  | cons c rest =>
    by_cases hc : c = byteOrderMark
    · subst hc
      rw [escape_cons_of_ne rest (by decide), skipMark, skipMark, if_pos rfl, if_pos rfl]
    · rw [skipMark, if_neg hc]
      cases hescape : escape (c :: rest) with
      | nil => rfl
      | cons a more =>
        rw [skipMark, if_neg]
        rintro rfl
        have hhead := (head_escape (c :: rest) (c := byteOrderMark) (by decide)).mp
          (by rw [hescape]; rfl)
        exact hc (Option.some.inj hhead)

/-- A text as it is written into a message. -/
theorem safeValue_utf16 (h : nul ∉ cs) :
    safeValue (utf16 cs) = utf16 (escape (skipMark cs)) := by
  rw [safeValue, toUtf8, chars_utf16, cString_utf8 h, utf8,
    utf8_asciiCompatible.stringReplaceMany escapes_ascii]
  change fromUtf8 (cString (utf8 (escape cs))) = _
  rw [cString_utf8 (nul_notMem_escape h), fromUtf8_utf8, skipMark_escape]

theorem nul_notMem_chars (h : 0 ∉ s) : nul ∉ chars s :=
  fun hmem => h (mem_of_mem_chars ⟨by decide, by decide⟩ hmem)

/-- A value as it is read from a message. -/
theorem unsafeValue_eq (h : 0 ∉ s) :
    unsafeValue s = utf16 (skipMark (unescape (chars s))) := by
  have hnul := nul_notMem_chars h
  rw [unsafeValue, toUtf8, cString_utf8 hnul, utf8,
    utf8_asciiCompatible.stringReplaceMany unescapes_ascii]
  change fromUtf8 (cString (utf8 (unescape (chars s)))) = _
  rw [cString_utf8 (nul_notMem_unescape hnul), fromUtf8_utf8]

theorem zero_notMem_utf16 (h : nul ∉ cs) : 0 ∉ utf16 cs :=
  fun hmem => h ((utf16_asciiCompatible.mem_iff (a := nul) (by decide) cs).mp hmem)

theorem isText_unsafeValue (h : 0 ∉ s) : IsText (unsafeValue s) :=
  ⟨_, fun hmem => nul_notMem_unescape (nul_notMem_chars h) ((skipMark_sublist _).mem hmem),
    unsafeValue_eq h⟩

theorem zero_notMem_safeValue {value : QString} (h : IsText value) : 0 ∉ safeValue value := by
  obtain ⟨cs, hnul, rfl⟩ := h
  rw [safeValue_utf16 hnul]
  exact zero_notMem_utf16 (nul_notMem_escape (fun hmem => hnul ((skipMark_sublist _).mem hmem)))

/-- Writing and reading a value takes up to two byte order marks off its front. -/
theorem unsafeValue_safeValue (h : nul ∉ cs) :
    unsafeValue (safeValue (utf16 cs)) = utf16 (skipMark (skipMark cs)) := by
  rw [unsafeValue_eq (zero_notMem_safeValue ⟨cs, h, rfl⟩), safeValue_utf16 h, chars_utf16,
    unescape_escape]

theorem length_skipMark (cs : List Char) : (skipMark cs).length ≤ cs.length := by
  cases cs with
  | nil => exact le_rfl
  | cons c rest =>
    rw [skipMark]
    split_ifs
    · exact Nat.le_succ _
    · exact le_rfl

theorem skipMark_eq_self : skipMark cs = cs ↔ cs.head? ≠ some byteOrderMark := by
  cases cs with
  | nil => simp [skipMark]
  | cons c rest =>
    rw [skipMark]
    split_ifs with hc
    · subst hc
      simp
    · simpa using hc

def mark : UInt16 := 0xFEFF

theorem semicolon_mem_utf16 (cs : List Char) : semicolon ∈ utf16 cs ↔ ';' ∈ cs :=
  utf16_asciiCompatible.mem_iff (a := ';') (by decide) cs

theorem head_quote_utf16 (cs : List Char) :
    (utf16 cs).head? = some quote ↔ cs.head? = some '"' :=
  utf16_asciiCompatible.head_iff (a := '"') (by decide) cs

theorem last_backslash_utf16 (cs : List Char) :
    (utf16 cs).getLast? = some backslash ↔ cs.getLast? = some '\\' :=
  utf16_asciiCompatible.last_iff (a := '\\') (by decide) cs

theorem needsQuotes_utf16 (cs : List Char) :
    NeedsQuotes (utf16 cs) ↔ ';' ∈ cs ∨ cs.head? = some '"' := by
  rw [NeedsQuotes, semicolon_mem_utf16, head_quote_utf16]

/-- Escaping decides neither whether a value is quoted nor how it ends. -/
theorem needsQuotes_escape (cs : List Char) :
    NeedsQuotes (utf16 (escape cs)) ↔ NeedsQuotes (utf16 cs) := by
  rw [needsQuotes_utf16, needsQuotes_utf16, mem_escape_iff cs (by decide),
    head_escape cs (by decide)]

theorem last_backslash_escape (cs : List Char) :
    (utf16 (escape cs)).getLast? = some backslash ↔ (utf16 cs).getLast? = some backslash := by
  rw [last_backslash_utf16, last_backslash_utf16, last_escape]

theorem escapeQuotes_cons (c : UInt16) (s : QString) :
    escapeQuotes (c :: s) = (if c = quote then [backslash, quote] else [c]) ++ escapeQuotes s :=
  List.flatMap_cons ..

theorem scanQuoted_plain {c c' : UInt16} (rest : QString) (hc : c ≠ quote)
    (h : ¬ (c = backslash ∧ c' = quote)) : scanQuoted (c :: c' :: rest) =
      (scanQuoted (c' :: rest)).map (fun r => (c :: r.1, r.2)) := by
  rw [scanQuoted, if_neg hc, if_neg h]

/-- What follows a character of a quoted value is a quote only at the end. -/
theorem escapeQuotes_next (s rest : QString) :
    ∃ c more, escapeQuotes s ++ quote :: rest = c :: more ∧
    (c = quote → s = []) := by
  cases s with
  | nil => exact ⟨quote, rest, rfl, fun _ => rfl⟩
  | cons c s =>
    rw [escapeQuotes_cons]
    split_ifs with hc
    · exact ⟨backslash, _, rfl, fun h => absurd h (by decide)⟩
    · exact ⟨c, _, rfl, fun h => absurd h hc⟩

/-- A quoted value that does not end with a backslash is read back. -/
theorem scanQuoted_escapeQuotes (s rest : QString) (h : s.getLast? ≠ some backslash) :
    scanQuoted (escapeQuotes s ++ quote :: rest) = some (s, rest) := by
  induction s with
  | nil =>
    change scanQuoted (quote :: rest) = some ([], rest)
    cases rest with
    | nil => rfl
    | cons c more => rw [scanQuoted, if_pos rfl]
  | cons c s ih =>
    have hlast : s.getLast? ≠ some backslash := by
      intro hs
      refine h ?_
      rw [List.getLast?_cons_of_ne_nil (by rintro rfl; cases hs)]
      exact hs
    rw [escapeQuotes_cons]
    split_ifs with hc
    · subst hc
      change scanQuoted (backslash :: quote :: (escapeQuotes s ++ quote :: rest)) = _
      rw [scanQuoted, if_neg (by decide), if_pos ⟨rfl, rfl⟩, ih hlast]
      rfl
    · obtain ⟨c', more, hnext, hend⟩ := escapeQuotes_next s rest
      rw [List.singleton_append, List.cons_append, hnext]
      rw [scanQuoted_plain more hc, ← hnext, ih hlast]
      · rfl
      · rintro ⟨rfl, hquote⟩
        rw [hend hquote] at h
        exact h rfl

theorem scanValue_quotedValue (s rest : QString)
    (h : NeedsQuotes s → s.getLast? ≠ some backslash)
    (hrest : rest = [] ∨ rest.head? = some semicolon) :
    scanValue (quotedValue s ++ rest) = some (s, rest) := by
  unfold quotedValue
  split_ifs with hneeds
  · rw [scanValue, if_pos (by rfl), List.cons_append, List.cons_append, List.tail_cons,
      List.append_assoc]
    exact scanQuoted_escapeQuotes s rest (h hneeds)
  · rw [NeedsQuotes, not_or] at hneeds
    obtain ⟨hsemicolon, hquote⟩ := hneeds
    have hhead : (s ++ rest).head? ≠ some quote := by
      cases s with
      | nil =>
        rcases hrest with rfl | hrest
        · simp
        · rw [List.nil_append, hrest]
          decide
      | cons c s => exact hquote
    have hall : ∀ c ∈ s, decide (c ≠ semicolon) = true := fun c hc =>
      decide_eq_true (fun heq => hsemicolon (heq ▸ hc))
    have htake : rest.takeWhile (fun c => decide (c ≠ semicolon)) = [] ∧
        rest.dropWhile (fun c => decide (c ≠ semicolon)) = rest := by
      rcases hrest with rfl | hrest
      · exact ⟨rfl, rfl⟩
      · obtain ⟨more, rfl⟩ := List.head?_eq_some_iff.mp hrest
        exact ⟨rfl, rfl⟩
    rw [scanValue, if_neg hhead, List.takeWhile_append_of_pos hall,
      List.dropWhile_append_of_pos hall, htake.1, htake.2, List.append_nil]

/-- A code unit that no syntax uses, below 256. -/
structure IsPlain (c : UInt16) : Prop where
  ne : c ∉ [0, space, quote, slash, colon, semicolon, less, equal, backslash]
  lt : c.toNat < 256

theorem isPlain_of_nameUnit {b : Bool} {c : UInt16} (h : isNameUnit b c = true) : IsPlain c := by
  constructor
  · intro hmem
    have hall : ∀ b, [0, space, quote, slash, colon, semicolon, less, equal, backslash].all
        (fun c => !isNameUnit b c) = true := by decide
    have hnot := List.all_eq_true.mp (hall b) c hmem
    rw [h] at hnot
    cases hnot
  · simp only [isNameUnit, isDigit, Bool.or_eq_true, Bool.and_eq_true, decide_eq_true_eq,
      beq_iff_eq, UInt16.le_iff_toNat_le] at h
    rcases h with ((h | h) | h) | h
    · exact lt_of_le_of_lt h.1.2 (by decide)
    · exact lt_of_le_of_lt h.2 (by decide)
    · exact lt_of_le_of_lt h.2 (by decide)
    · subst h
      decide

theorem verifyName_ok {canBeEmpty canBeLowercase : Bool} {u : Unit}
    (h : verifyName name canBeEmpty canBeLowercase = .ok u) :
    (canBeEmpty = false → name ≠ []) ∧ ∀ c ∈ name, IsPlain c := by
  unfold verifyName at h
  split_ifs at h with hempty hunits hdigit
  refine ⟨?_, ?_⟩
  · rintro rfl rfl
    exact hempty rfl
  · intro c hc
    have hname : isNameUnit canBeLowercase c = true := by
      by_contra hnot
      exact hunits (List.any_eq_true.mpr ⟨c, hc, by simpa using hnot⟩)
    exact isPlain_of_nameUnit hname

def IsName (name : QString) : Prop := (verifyName name false true).isOk = true

theorem IsName.spec (h : IsName name) :
    name ≠ [] ∧ ∀ c ∈ name, IsPlain c := by
  unfold IsName at h
  cases hverify : verifyName name false true with
  | error e =>
    rw [hverify] at h
    cases h
  | ok u =>
    obtain ⟨hne, hplain⟩ := verifyName_ok hverify
    exact ⟨hne rfl, hplain⟩

theorem takeWhile_name (h : IsName name) (rest : QString) :
    (name ++ equal :: rest).takeWhile (· ≠ equal) = name ∧
      (name ++ equal :: rest).dropWhile (· ≠ equal) = equal :: rest := by
  have hall : ∀ c ∈ name, decide (c ≠ equal) = true := by
    intro c hc
    refine decide_eq_true ?_
    rintro rfl
    exact (h.spec.2 equal hc).ne (by decide)
  rw [List.takeWhile_append_of_pos hall, List.dropWhile_append_of_pos hall,
    List.takeWhile_cons_of_neg (by decide), List.dropWhile_cons_of_neg (by decide)]
  exact ⟨List.append_nil name, rfl⟩

theorem scanParameter_write {rest : QString} (hname : IsName name)
    (h : NeedsQuotes s → s.getLast? ≠ some backslash)
    (hrest : rest = [] ∨ rest.head? = some semicolon) :
    scanParameter (name ++ equal :: (quotedValue s ++ rest)) =
      some ((name, unsafeValue s), rest.tail) := by
  obtain ⟨htake, hdrop⟩ := takeWhile_name hname (quotedValue s ++ rest)
  have hne : name.isEmpty = false := by simpa using hname.spec.1
  simp only [scanParameter, htake, hdrop, hne, Bool.false_eq_true, if_false]
  have hverify : (verifyName name false true).isOk = true := hname
  rw [if_pos hverify, scanValue_quotedValue s rest h hrest]
  rcases hrest with rfl | hrest
  · rfl
  · obtain ⟨more, rfl⟩ := List.head?_eq_some_iff.mp hrest
    simp

theorem scanParameters_succ (fuel : ℕ) {text : QString} (h : text ≠ [])
    (parameters : OrderedMap QString QString) : scanParameters (fuel + 1) text parameters =
      match scanParameter text with
      | none => none
      | some (p, rest) => scanParameters fuel rest (parameters.insert p.1 p.2) := by
  cases text with
  | nil => exact absurd rfl h
  | cons c rest => rfl

theorem writeParameters_head (l : List (QString × QString)) :
    writeParameters false l = [] ∨ (writeParameters false l).head? = some semicolon := by
  cases l with
  | nil => exact Or.inl rfl
  | cons e rest => exact Or.inr rfl

theorem writeParameters_tail (b : Bool) (name value : QString) (rest : List (QString × QString)) :
    (writeParameters b ((name, value) :: rest)).tail =
      name ++ equal :: (quotedValue (safeValue value) ++ writeParameters false rest) := by
  simp [writeParameters]

theorem scanParameters_write (b : Bool) (l : List (QString × QString)) (fuel : ℕ)
    (parameters : OrderedMap QString QString) (hnames : ∀ e ∈ l, IsName e.1)
    (hvalues : ∀ e ∈ l, NeedsQuotes (safeValue e.2) → (safeValue e.2).getLast? ≠ some backslash)
    (hfuel : (writeParameters b l).tail.length ≤ fuel) :
    scanParameters fuel (writeParameters b l).tail parameters =
      some (l.foldl (fun m e => m.insert e.1 (unsafeValue (safeValue e.2))) parameters) := by
  induction l generalizing b fuel parameters with
  | nil => cases fuel <;> rfl
  | cons e rest ih =>
    obtain ⟨name, value⟩ := e
    have hname : IsName name := hnames (name, value) List.mem_cons_self
    have hvalue := hvalues (name, value) List.mem_cons_self
    rw [writeParameters_tail] at hfuel ⊢
    cases fuel with
    | zero => simp at hfuel
    | succ fuel =>
      have hscan := scanParameter_write hname hvalue (writeParameters_head rest)
      have htail : (writeParameters false rest).tail.length ≤ fuel := by
        simp only [List.length_append, List.length_cons, List.length_tail] at hfuel ⊢
        omega
      have hnext := ih false fuel (parameters.insert name (unsafeValue (safeValue value)))
        (List.forall_mem_cons.mp hnames).2
        (List.forall_mem_cons.mp hvalues).2 htail
      rw [scanParameters_succ fuel (by simp [hname.spec.1]), hscan]
      exact hnext

end SnapCpp.MessageRoundTrip
