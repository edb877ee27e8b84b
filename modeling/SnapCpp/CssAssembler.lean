import SnapCpp.CssTokenStrings

/-!
What the assembler writes for names, strings and URLs. The bytes it writes are those of codes: the
codes of the name or string, with some of them escaped.
-/
namespace SnapCpp.Css

inductive OutputMode where
  | compact
  | compressed
  | expanded
  | tidy
deriving DecidableEq, Repr

def flagOptionalOperator : ℕ := 0x01
def flagOptionalSpaces : ℕ := 0x02
def flagOptionalSpaceBefore : ℕ := 0x04
def flagOptionalSpaceAfter : ℕ := 0x08
def flagOptionalSpacesOrNewlines : ℕ := 0x10
def flagOptionalSpaceBeforeOrNewline : ℕ := 0x20
def flagOptionalSpaceAfterOrNewline : ℕ := 0x40

/-- `assembler_impl::output_operator()`, which the compressed and the tidy mode use. -/
def operatorImpl (str : Bytes) (flags : ℕ) : Bytes :=
  if flags &&& flagOptionalOperator = 0 then str else []

def operatorCompact (str : Bytes) (flags : ℕ) : Bytes :=
  if flags &&& (flagOptionalSpaces ||| flagOptionalSpacesOrNewlines) ≠ 0 then [32] ++ str ++ [32]
  else if flags &&& (flagOptionalSpaceBefore ||| flagOptionalSpaceBeforeOrNewline) ≠ 0 then
    [32] ++ str
  else if flags &&& (flagOptionalSpaceAfter ||| flagOptionalSpaceAfterOrNewline) ≠ 0 then
    str ++ [32]
  else operatorImpl str flags

def operatorExpanded (str : Bytes) (flags : ℕ) : Bytes :=
  if flags &&& flagOptionalSpacesOrNewlines ≠ 0 then [10] ++ str ++ [10]
  else if flags &&& flagOptionalSpaceBeforeOrNewline ≠ 0 then [10] ++ str
  else if flags &&& flagOptionalSpaceAfterOrNewline ≠ 0 then str ++ [10]
  else if flags &&& flagOptionalOperator ≠ 0 then str
  else operatorCompact str flags

def outputOperator : OutputMode → Bytes → ℕ → Bytes
  | .compact => operatorCompact
  | .compressed => operatorImpl
  | .expanded => operatorExpanded
  | .tidy => operatorImpl

/-- `csspp_exception_logic` of `escape_id()`: a character that is cut off. -/
inductive AssemblerError where
  | invalidUtf8
deriving DecidableEq, Repr

def charLength (c : UInt8) : ℕ :=
  if 0xF0 ≤ c then 4 else if 0xE0 ≤ c then 3 else if 0xC0 ≤ c then 2 else 1

/-- What is written for the character `wc`, with its bytes and those after it. -/
def escapeChar (firstChar : Bool) (mb : Bytes) (wc : ℤ) (rest : Bytes) : Bytes :=
  if (firstChar && isStartIdentifier wc) || (!firstChar && isIdentifier wc) then mb
  else if isDigit wc then
    [92, 51, wc.toNat.toUInt8] ++ if isHex (rest.headD 0).toNat then [32] else []
  else 92 :: mb

/-- The loop of `escape_id()`, with the errors that `mbtowc()` reports. -/
def escapeLoop (firstChar : Bool) : Bytes → Except AssemblerError (Bytes × List Error)
  | [] => .ok ([], [])
  | c :: s =>
      if (c :: s).length < charLength c then .error .invalidUtf8
      else do
        let mb := (c :: s).take (charLength c)
        let rest := s.drop (charLength c - 1)
        let (wc, errors) := mbtowc mb
        let (result, more) ← escapeLoop false rest
        pure (escapeChar firstChar mb wc rest ++ result, errors ++ more)
termination_by s => s.length
decreasing_by
  rw [List.length_drop, List.length_cons]
  omega

def escapeId (id : Bytes) : Except AssemblerError (Bytes × List Error) :=
  escapeLoop true (id.takeWhile (· ≠ 0))

/-- `assembler::output()` for a hash, and for an identifier. -/
def outputName (n : Token) : Except AssemblerError (Bytes × List Error) :=
  if n.fType = .hash then .ok (35 :: n.fString, []) else escapeId n.fString

def outputString (str : Bytes) : Bytes :=
  let text := str.takeWhile (· ≠ 0)
  let sq := text.count 39
  let dq := text.count 34
  let quote : UInt8 := if dq ≤ sq then 34 else 39
  quote :: text.flatMap (fun c => if c = quote then [92, quote] else [c]) ++ [quote]

def isIndirect (c : UInt8) : Bool :=
  c = 40 || c = 41 || c = 39 || c = 34 || isNonPrintable c.toInt8.toInt

def outputUrl (mode : OutputMode) (str : Bytes) : Bytes :=
  let direct := !(str.takeWhile (· ≠ 0)).any isIndirect
  urlName ++ outputOperator mode [40] flagOptionalSpaceAfter ++
    (if direct then str else outputString str) ++
    outputOperator mode [41] flagOptionalSpaceBefore

section Bytes

variable {c : ℤ} {b : UInt8} {bs : Bytes} {cs : List ℤ}

theorem Encodes.nonneg (h : Encodes c b bs) : 0 ≤ c := by
  by_contra hneg
  have hencoding := h.encoding
  rw [Css.encoding, if_pos (not_le.mp hneg)] at hencoding
  cases hencoding

/-- The codes of one byte. -/
theorem Encodes.single_iff (h : Encodes c b bs) : b < 0x80 ↔ c < 0x80 := by
  constructor
  · intro hsingle
    rw [h.eq_of_single hsingle]
    have hlt := UInt8.lt_iff_toNat_lt.mp hsingle
    change b.toNat < 128 at hlt
    omega
  · intro hc
    have hsame := (encodes_single h.nonneg hc).encoding
    rw [h.encoding] at hsame
    rw [(List.cons.inj (Prod.mk.inj hsame).1).1, UInt8.lt_iff_toNat_lt,
      toNat_toUInt8 (by have := h.nonneg; omega)]
    show c.toNat < 128
    have := h.nonneg
    omega

/-- A byte that stands for itself is found where its code is. -/
theorem Encodes.mem_iff (h : Encodes c b bs) {k : UInt8} (hk : k < 0x80) :
    k ∈ b :: bs ↔ c = k.toNat := by
  have hfollow : k ∉ bs := by
    intro hmem
    have := h.follow k hmem
    rw [isFollow, Bool.and_eq_true, decide_eq_true_eq] at this
    exact absurd this.1 (UInt8.not_le.mpr hk)
  constructor
  · intro hmem
    rcases List.mem_cons.mp hmem with rfl | hmem
    · exact h.eq_of_single hk
    · exact absurd hmem hfollow
  · rintro rfl
    have hlt := UInt8.lt_iff_toNat_lt.mp hk
    have hsingle := h.single_iff.mpr (by exact_mod_cast hlt)
    have heq := h.eq_of_single hsingle
    rw [UInt8.toNat_inj.mp (Int.ofNat.inj heq)]
    exact List.mem_cons_self

theorem length_of_sequence (wc : ℕ) {count : ℕ} {s : Bytes}
    (h : (sequence wc count s).2 = []) : s.length = count := by
  induction s generalizing wc count with
  | nil =>
    cases count with
    | zero => rfl
    | succ count => cases h
  | cons c s ih =>
    cases count with
    | zero => cases h
    | succ count =>
      rw [sequence] at h
      split_ifs at h
      rw [List.length_cons, ih (wc * 64 + c.toNat % 64) (by exact h)]

theorem Encodes.charLength (h : Encodes c b bs) : charLength b = bs.length + 1 := by
  by_cases hsingle : b < 0x80
  · have hnot : ∀ k : UInt8, 0x80 ≤ k → ¬ k ≤ b := fun k hk hle =>
      UInt8.not_le.mpr hsingle (UInt8.le_trans hk hle)
    rw [h.single hsingle, Css.charLength, if_neg (hnot _ (by decide)), if_neg (hnot _ (by decide)),
      if_neg (hnot _ (by decide))]
    rfl
  · have hdecoded := congrArg Prod.snd h.decoded
    rw [mbtowc, if_neg hsingle] at hdecoded
    rw [Css.charLength]
    by_cases hfive : 0xF8 ≤ b
    · rw [if_pos hfive] at hdecoded
      cases hdecoded
    rw [if_neg hfive] at hdecoded
    by_cases hfour : 0xF0 ≤ b
    · rw [if_pos hfour] at hdecoded ⊢
      rw [length_of_sequence (b.toNat % 8) (by exact_mod_cast hdecoded)]
    rw [if_neg hfour] at hdecoded ⊢
    by_cases hthree : 0xE0 ≤ b
    · rw [if_pos hthree] at hdecoded ⊢
      rw [length_of_sequence (b.toNat % 16) (by exact_mod_cast hdecoded)]
    rw [if_neg hthree] at hdecoded ⊢
    rw [if_pos (h.several hsingle).1] at hdecoded ⊢
    rw [length_of_sequence (b.toNat % 32) (by exact_mod_cast hdecoded)]

theorem zero_notMem_spell (h : Plain cs) : 0 ∉ spell cs := by
  intro hmem
  obtain ⟨c, hc, hbyte⟩ := List.mem_flatMap.mp hmem
  obtain ⟨b, bs, henc⟩ := exists_encodes (h c hc).1
  rw [henc.encoding] at hbyte
  exact (h c hc).2 ((henc.mem_iff (by decide)).mp hbyte)

/-- The whole text is read, up to its null byte. -/
theorem takeWhile_spell (h : Plain cs) : (spell cs).takeWhile (· ≠ 0) = spell cs :=
  List.takeWhile_eq_self_iff.mpr fun _ hb => decide_eq_true fun hzero =>
    zero_notMem_spell h (hzero ▸ hb)

end Bytes

section Written

variable {c : ℤ} {cs : List ℤ}

def escapedCode (firstChar : Bool) (c : ℤ) (rest : List ℤ) : List ℤ :=
  if (firstChar && isStartIdentifier c) || (!firstChar && isIdentifier c) then [c]
  else if isDigit c then
    [('\\' : ℤ), ('3' : ℤ), c] ++ if isHex (rest.headD 0) then [(' ' : ℤ)] else []
  else [('\\' : ℤ), c]

def escapedCodes : Bool → List ℤ → List ℤ
  | _, [] => []
  | firstChar, c :: cs => escapedCode firstChar c cs ++ escapedCodes false cs

theorem isHex_lt {c : ℤ} (h : isHex c = true) : c < 0x80 := by
  simp only [isHex, isDigit, Bool.or_eq_true, Bool.and_eq_true, decide_eq_true_eq,
    Char.reduceToNat, Nat.cast_ofNat] at h
  omega

theorem isHex_head (h : Plain cs) : isHex ((spell cs).headD 0).toNat = isHex (cs.headD 0) := by
  cases cs with
  | nil => rfl
  | cons c cs =>
    obtain ⟨b, bs, hc⟩ := exists_encodes (h c List.mem_cons_self).1
    rw [hc.spell, List.headD_cons, List.headD_cons]
    by_cases hsingle : b < 0x80
    · rw [hc.eq_of_single hsingle]
    · have hbyte : isHex b.toNat = false := by
        rw [Bool.eq_false_iff]
        intro hhex
        have hlt := isHex_lt hhex
        exact hsingle (UInt8.lt_iff_toNat_lt.mpr (by change b.toNat < 128; omega))
      have hcode : isHex c = false := by
        rw [Bool.eq_false_iff]
        exact fun hhex => hsingle (hc.single_iff.mpr (isHex_lt hhex))
      rw [hbyte, hcode]

theorem spell_ascii {c : ℤ} (hpos : 0 ≤ c) (hc : c < 0x80) (cs : List ℤ) :
    spell (c :: cs) = c.toNat.toUInt8 :: spell cs := (encodes_single hpos hc).spell cs

/-- `escape_id()` writes the codes of a name one after another. -/
theorem escapeLoop_spell (firstChar : Bool) (h : Plain cs) :
    escapeLoop firstChar (spell cs) = .ok (spell (escapedCodes firstChar cs), []) := by
  induction cs generalizing firstChar with
  | nil => rw [spell_nil, escapeLoop, escapedCodes, spell_nil]
  | cons c cs ih =>
    obtain ⟨b, bs, hc⟩ := exists_encodes (h c List.mem_cons_self).1
    have htake : (b :: (bs ++ spell cs)).take (bs.length + 1) = b :: bs := by
      rw [List.take_succ_cons, List.take_left' rfl]
    have hchar : escapeChar firstChar (b :: bs) c (spell cs) =
        spell (escapedCode firstChar c cs) := by
      have hmb : b :: bs = spell [c] := by rw [hc.spell, spell_nil, List.append_nil]
      rw [escapeChar, escapedCode, isHex_head h.tail]
      by_cases hraw : ((firstChar && isStartIdentifier c) || (!firstChar && isIdentifier c)) = true
      · rw [if_pos hraw, if_pos hraw, hmb]
      rw [if_neg hraw, if_neg hraw]
      by_cases hdigit : isDigit c = true
      · have hrange : 48 ≤ c ∧ c ≤ 57 := by simpa [isDigit] using hdigit
        rw [if_pos hdigit, if_pos hdigit]
        change _ = spell (('\\' : ℤ) :: ('3' : ℤ) :: c ::
          if isHex (cs.headD 0) = true then [(' ' : ℤ)] else [])
        rw [spell_ascii (c := ('\\' : ℤ)) (by decide) (by decide),
          spell_ascii (c := ('3' : ℤ)) (by decide) (by decide),
          spell_ascii (c := c) (by omega) (by omega)]
        split_ifs <;> rfl
      · rw [if_neg hdigit, if_neg hdigit, hmb,
          spell_ascii (c := ('\\' : ℤ)) (by decide) (by decide)]
        rfl
    rw [hc.spell, escapeLoop, hc.charLength, if_neg (by simp), Nat.add_sub_cancel,
      List.drop_left' rfl, htake]
    simp only [hc.decoded, ih false h.tail]
    change Except.ok (escapeChar firstChar (b :: bs) c (spell cs) ++ _, [] ++ []) = _
    rw [hchar, ← spell_append]
    rfl

theorem escapeId_spell (h : Plain cs) :
    escapeId (spell cs) = .ok (spell (escapedCodes true cs), []) := by
  rw [escapeId, takeWhile_spell h, escapeLoop_spell true h]

def quoted (quote : ℤ) (cs : List ℤ) : List ℤ :=
  cs.flatMap fun c => if c = quote then [('\\' : ℤ), quote] else [c]

theorem spell_quoted {quote : UInt8} (hquote : quote < 0x80) (h : Plain cs) :
    (spell cs).flatMap (fun c => if c = quote then [92, quote] else [c]) =
      spell (quoted quote.toNat cs) := by
  have hlt : (quote.toNat : ℤ) < 0x80 := by exact_mod_cast UInt8.lt_iff_toNat_lt.mp hquote
  induction cs with
  | nil => rfl
  | cons c cs ih =>
    obtain ⟨b, bs, hc⟩ := exists_encodes (h c List.mem_cons_self).1
    rw [quoted, List.flatMap_cons, spell_append]
    change _ = _ ++ spell (quoted quote.toNat cs)
    rw [← ih h.tail, spell_cons, hc.encoding, List.flatMap_append]
    congr 1
    by_cases heq : c = quote.toNat
    · have hsingle := hc.single_iff.mpr (heq ▸ hlt)
      have hb : b = quote := by
        have hcode := hc.eq_of_single hsingle
        rw [heq] at hcode
        exact (UInt8.toNat_inj.mp (Int.ofNat.inj hcode)).symm
      rw [if_pos heq, hc.single hsingle, hb, List.flatMap_singleton, if_pos rfl,
        spell_ascii (c := ('\\' : ℤ)) (by decide) (by decide),
        spell_ascii (by omega) hlt, Int.toNat_natCast, spell_nil]
      change [92, quote] = [92, UInt8.ofNat quote.toNat]
      rw [UInt8.ofNat_toNat]
    · have hnone : quote ∉ b :: bs := fun hmem => heq ((hc.mem_iff hquote).mp hmem)
      rw [if_neg heq, hc.spell, spell_nil, List.append_nil]
      refine (List.flatMap_congr fun x hx => ?_).trans (List.flatMap_singleton' (b :: bs))
      rw [if_neg]
      rintro rfl
      exact hnone hx

theorem outputString_spell (h : Plain cs) : ∃ quote : ℤ, (quote = '"' ∨ quote = '\'') ∧
    outputString (spell cs) = spell (quote :: (quoted quote cs ++ [quote])) := by
  have hall : ∀ quote : UInt8, quote < 0x80 →
      quote :: (spell cs).flatMap (fun c => if c = quote then [92, quote] else [c]) ++ [quote] =
        spell ((quote.toNat : ℤ) :: (quoted quote.toNat cs ++ [(quote.toNat : ℤ)])) := by
    intro quote hquote
    have hlt : (quote.toNat : ℤ) < 0x80 := by exact_mod_cast UInt8.lt_iff_toNat_lt.mp hquote
    have hbyte : (quote.toNat : ℤ).toNat.toUInt8 = quote := by
      rw [Int.toNat_natCast]
      exact UInt8.ofNat_toNat
    rw [spell_quoted hquote h, spell_ascii (by omega) hlt, spell_append,
      spell_ascii (by omega) hlt, spell_nil, hbyte, List.cons_append]
  rw [outputString, takeWhile_spell h]
  split_ifs
  · exact ⟨'"', Or.inl rfl, hall 34 (by decide)⟩
  · exact ⟨'\'', Or.inr rfl, hall 39 (by decide)⟩

def isIndirectCode (c : ℤ) : Bool :=
  c < 0x80 && (c = '(' || c = ')' || c = '\'' || c = '"' || isNonPrintable c)

theorem isIndirect_eq (b : UInt8) : isIndirect b = isIndirectCode b.toNat := by
  revert b
  decide +kernel

theorem any_isIndirect (h : Plain cs) : (spell cs).any isIndirect = cs.any isIndirectCode := by
  induction cs with
  | nil => rfl
  | cons c cs ih =>
    obtain ⟨b, bs, hc⟩ := exists_encodes (h c List.mem_cons_self).1
    have hlarge : ∀ d : ℤ, ¬ d < 0x80 → isIndirectCode d = false := by
      intro d hd
      rw [isIndirectCode, decide_eq_false hd, Bool.false_and]
    have hfollow : bs.any isIndirect = false := by
      rw [List.any_eq_false]
      intro x hx
      have hmem := hc.follow x hx
      rw [isFollow, Bool.and_eq_true, decide_eq_true_eq, UInt8.le_iff_toNat_le] at hmem
      have hge : 128 ≤ x.toNat := hmem.1
      rw [isIndirect_eq, hlarge _ (by omega)]
      simp
    have hfirst : isIndirectCode b.toNat = isIndirectCode c := by
      by_cases hsingle : b < 0x80
      · rw [hc.eq_of_single hsingle]
      · have hge : ¬ (b.toNat : ℤ) < 0x80 := by
          intro hlt
          exact hsingle (UInt8.lt_iff_toNat_lt.mpr (by exact_mod_cast hlt))
        rw [hlarge _ hge, hlarge c (fun hlt => hsingle (hc.single_iff.mpr hlt))]
    rw [hc.spell, List.any_cons, List.any_append, hfollow, Bool.false_or, ih h.tail, List.any_cons,
      isIndirect_eq, hfirst]

inductive UrlArgument (cs : List ℤ) : List ℤ → Prop
  | direct : cs.any isIndirectCode = false → UrlArgument cs cs
  | quoted (quote : ℤ) : cs.any isIndirectCode = true → (quote = '"' ∨ quote = '\'') →
      UrlArgument cs (quote :: (Css.quoted quote cs ++ [quote]))

/-- A URL is written with a space inside each of its parentheses, or without any. -/
theorem outputUrl_spell (mode : OutputMode) (h : Plain cs) :
    ∃ space argument : List ℤ, (space = [] ∨ space = [(' ' : ℤ)]) ∧ UrlArgument cs argument ∧
      outputUrl mode (spell cs) = spell ([('u' : ℤ), ('r' : ℤ), ('l' : ℤ), ('(' : ℤ)] ++ space ++
        argument ++ space ++ [(')' : ℤ)]) := by
  obtain ⟨argument, hargument, hbytes⟩ : ∃ argument, UrlArgument cs argument ∧
      (if !(spell cs).any isIndirect then spell cs else outputString (spell cs)) =
        spell argument := by
    rw [any_isIndirect h]
    by_cases hany : cs.any isIndirectCode = true
    · obtain ⟨quote, hquote, hstring⟩ := outputString_spell h
      rw [hany]
      exact ⟨_, .quoted quote hany hquote, hstring⟩
    · rw [Bool.not_eq_true] at hany
      rw [hany]
      exact ⟨cs, .direct hany, rfl⟩
  have hmode : ∃ space : List ℤ, (space = [] ∨ space = [(' ' : ℤ)]) ∧
      outputOperator mode [40] flagOptionalSpaceAfter = spell (('(' : ℤ) :: space) ∧
      outputOperator mode [41] flagOptionalSpaceBefore = spell (space ++ [(')' : ℤ)]) := by
    cases mode with
    | compact => exact ⟨[' '], Or.inr rfl, by decide, by decide⟩
    | compressed => exact ⟨[], Or.inl rfl, by decide, by decide⟩
    | expanded => exact ⟨[' '], Or.inr rfl, by decide, by decide⟩
    | tidy => exact ⟨[], Or.inl rfl, by decide, by decide⟩
  obtain ⟨space, hspace, hopen, hclose⟩ := hmode
  refine ⟨space, argument, hspace, hargument, ?_⟩
  have hname : urlName = spell [('u' : ℤ), ('r' : ℤ), ('l' : ℤ)] := by decide
  rw [outputUrl, takeWhile_spell h, hbytes, hopen, hclose, hname, ← spell_append,
    ← spell_append, ← spell_append]
  simp

end Written

end SnapCpp.Css
