import SnapCpp.CssReadingNumbers

/-!
The strings that tokens hold. Names and strings are made of codes that are written without an
error; a string holds no U+FFFD, and a URL without quotes holds it as its first character only.
-/
namespace SnapCpp.Css

variable {p : ℤ → Prop} {b b' : Bytes} {c : ℤ} {fuel : ℕ} {name : Name}

/-- The bytes of codes that satisfy `p`. -/
def IsSpelled (p : ℤ → Prop) (b : Bytes) : Prop :=
  ∃ cs, Plain cs ∧ (∀ c ∈ cs, p c) ∧ b = spell cs

theorem IsSpelled.nil : IsSpelled p [] := ⟨[], by simp [Plain], by simp, rfl⟩

theorem IsSpelled.append (h : IsSpelled p b) (h' : IsSpelled p b') : IsSpelled p (b ++ b') := by
  obtain ⟨cs, hcs, hp, rfl⟩ := h
  obtain ⟨ds, hds, hp', rfl⟩ := h'
  refine ⟨cs ++ ds, fun c hc => ?_, fun c hc => ?_, (spell_append cs ds).symm⟩
  · exact (List.mem_append.mp hc).elim (hcs c) (hds c)
  · exact (List.mem_append.mp hc).elim (hp c) (hp' c)

theorem encoding_of_not_isCode (h : ¬ IsCode c) : (encoding c).1 = [] := by
  rw [IsCode, encoding] at h
  rw [encoding]
  split_ifs at h ⊢ <;> simp_all

/-- A code that cannot be written leaves nothing. -/
theorem wctomb_returns (hc : c ≠ 0) (hp : p c) : Returns (wctomb c) (IsSpelled p) := by
  intro s
  change IsSpelled p (encoding c).1
  by_cases hcode : IsCode c
  · refine ⟨[c], ?_, ?_, (List.append_nil _).symm⟩
    · intro d hd
      rw [List.mem_singleton.mp hd]
      exact ⟨hcode, hc⟩
    · intro d hd
      rwa [List.mem_singleton.mp hd]
  · rw [encoding_of_not_isCode hcode]
    exact IsSpelled.nil

theorem replacement_ne_zero : replacement ≠ 0 := by decide

theorem getc_returns : Returns getc (· ≠ 0) := by
  intro s
  rw [Ensures, getc]
  cases s.fUngetc with
  | cons c rest =>
    simp only []
    split_ifs with hc
    · exact replacement_ne_zero
    · exact hc
  | nil =>
    cases s.fIn with
    | nil => exact show eof ≠ 0 by decide
    | cons b rest => exact (readChar_pos b rest).ne'

theorem escapeEnd_returns (wc : ℤ) : Returns (escapeEnd wc) (· ≠ 0) :=
  Returns.ite (fun _ => Returns.last fun _ => Returns.pure replacement_ne_zero)
    (fun hzero => Returns.pure hzero)

theorem escapeDigits_returns (count : ℕ) (wc : ℤ) : Returns (escapeDigits count wc) (· ≠ 0) := by
  induction count generalizing wc with
  | zero => exact escapeEnd_returns wc
  | succ count ih =>
    rw [escapeDigits]
    refine Returns.last fun c => Returns.both ?_ ?_
    · refine Returns.last fun d => Returns.both ?_ (ih _)
      exact Returns.last fun _ => Returns.pure replacement_ne_zero
    · exact Returns.both (escapeEnd_returns wc)
        (Returns.last fun _ => escapeEnd_returns wc)

theorem escape_returns : Returns escape (· ≠ 0) := by
  have hwrong : ∀ e : Error, Returns (do report e; pure replacement : Lex ℤ) (· ≠ 0) :=
    fun e => Returns.last fun _ => Returns.pure replacement_ne_zero
  rw [escape]
  refine getc_returns.bind fun c hc => Returns.both (hwrong _) ?_
  refine Returns.both (hwrong _) ?_
  refine Returns.both (hwrong _) ?_
  exact Returns.both (Returns.last fun d => escapeDigits_returns 5 d)
    (Returns.pure hc)

theorem Name.add_returns (hname : IsSpelled (fun _ => True) name.id) (hc : c ≠ 0) :
    Returns (name.add c) fun name' => IsSpelled (fun _ => True) name'.id :=
  (wctomb_returns hc trivial).bind fun _ hid =>
    Returns.last fun _ => Returns.pure (hname.append hid)

theorem identifierLoop_returns (fuel : ℕ) (hname : IsSpelled (fun _ => True) name.id) :
    Returns (identifierLoop fuel name) fun r => IsSpelled (fun _ => True) r.2.id := by
  induction fuel generalizing name with
  | zero => exact Returns.throw
  | succ fuel ih =>
    rw [identifierLoop]
    refine getc_returns.bind fun c hc => Returns.both ?_ ?_
    · refine escape_returns.bind fun d hd => Returns.both (Returns.pure hname) ?_
      exact (Name.add_returns hname hd).bind fun _ h => ih h
    · exact Returns.both ((Name.add_returns hname hc).bind fun _ h => ih h)
        (Returns.pure hname)

theorem hashLoop_returns (fuel : ℕ) {str : Bytes} (hstr : IsSpelled (fun _ => True) str) :
    Returns (hashLoop fuel str) (IsSpelled fun _ => True) := by
  induction fuel generalizing str with
  | zero => exact Returns.throw
  | succ fuel ih =>
    rw [hashLoop]
    refine getc_returns.bind fun c hc => Returns.both ?_ ?_
    · refine escape_returns.bind fun d hd => Returns.both (Returns.pure hstr) ?_
      exact (wctomb_returns hd trivial).bind fun _ h => ih (hstr.append h)
    · exact Returns.ite
        (fun _ => (wctomb_returns hc trivial).bind fun _ h => ih (hstr.append h))
        (fun _ => Returns.last fun _ => Returns.pure hstr)

theorem stringLoop_returns (quote : ℤ) (fuel : ℕ) {str : Bytes}
    (hstr : IsSpelled (· ≠ replacement) str) :
    Returns (stringLoop quote fuel str) (IsSpelled (· ≠ replacement)) := by
  induction fuel generalizing str with
  | zero => exact Returns.throw
  | succ fuel ih =>
    have hadd : ∀ c : ℤ, c ≠ 0 → c ≠ replacement →
        Returns (do let mb ← wctomb c; stringLoop quote fuel (str ++ mb))
          (IsSpelled (· ≠ replacement)) :=
      fun c hc hne => (wctomb_returns hc hne).bind fun _ h => ih (hstr.append h)
    rw [stringLoop]
    refine getc_returns.bind fun c hc => Returns.both ?_ ?_
    · exact Returns.last fun _ => Returns.pure hstr
    refine Returns.both ?_ ?_
    · exact Returns.last fun _ => Returns.last fun _ => Returns.pure hstr
    refine Returns.both (Returns.pure hstr) ?_
    refine Returns.both ?_ ?_
    · refine getc_returns.bind fun n hn => Returns.ite (fun hline => ?_) (fun _ => ?_)
      · exact hadd n hn (by rw [hline]; decide)
      refine Returns.both (ih hstr) (Returns.both ?_ ?_)
      · exact Returns.last fun _ => ih hstr
      · refine Returns.last fun _ => escape_returns.bind fun d hd => ?_
        exact Returns.ite (fun _ => ih hstr) (fun hne => hadd d hd hne)
    · exact Returns.ite (fun _ => ih hstr) (fun hne => hadd c hc hne)

/-- The characters of a URL without quotes after its first one. -/
theorem urlLoop_returns (fuel : ℕ) {first url : Bytes}
    (hurl : IsSpelled (fun c => urlChar c = true) url) :
    Returns (urlLoop fuel (first ++ url)) fun r =>
      ∃ url', r.2 = first ++ url' ∧ IsSpelled (fun c => urlChar c = true) url' := by
  induction fuel generalizing url with
  | zero => exact Returns.throw
  | succ fuel ih =>
    rw [urlLoop]
    refine getc_returns.bind fun c hc => Returns.ite (fun _ => ?_) (fun hstop => ?_)
    · exact Returns.pure ⟨url, rfl, hurl⟩
    refine Returns.ite (fun _ => ?_) (fun hwrong => ?_)
    · exact Returns.last fun _ => Returns.pure ⟨url, rfl, hurl⟩
    · have hchar := urlChar_of_loop hstop hwrong
      refine (wctomb_returns (p := fun c => urlChar c = true) hc hchar).bind fun mb h => ?_
      rw [List.append_assoc]
      exact ih (hurl.append h)

def IsUrl (url : Bytes) : Prop :=
  IsSpelled (· ≠ replacement) url ∨
    ∃ rest, IsSpelled (fun c => urlChar c = true) rest ∧ url = spell [replacement] ++ rest

theorem urlChar_ne_replacement (h : urlChar c = true) : c ≠ replacement := by
  rintro rfl
  exact absurd h (by decide)

theorem urlArgument_returns (fuel : ℕ) :
    Returns (urlArgument fuel) fun tok => tok.fType = .url ∧ IsUrl tok.fString := by
  rw [urlArgument]
  have hskip : ∀ fuel, Returns (skipSpaces fuel) (· ≠ 0) := by
    intro fuel
    induction fuel with
    | zero => exact Returns.throw
    | succ fuel ih =>
      rw [skipSpaces]
      exact getc_returns.bind fun c hc => Returns.both ih (Returns.pure hc)
  refine (hskip fuel).bind fun c hc => Returns.both ?_ ?_
  · refine (stringLoop_returns c fuel IsSpelled.nil).bind fun url hurl => ?_
    exact Returns.last fun _ => Returns.pure ⟨rfl, Or.inl hurl⟩
  · have hfirst : ∀ s, Ensures (wctomb c) s (fun _ => True) fun mb _ =>
        IsSpelled (· ≠ replacement) mb ∨ mb = spell [replacement] := by
      intro s
      by_cases hne : c = replacement
      · rw [hne]
        exact Or.inr (List.append_nil _).symm
      · exact (wctomb_returns hc hne s).mono fun _ _ h => Or.inl h
    refine Returns.bind hfirst fun mb hmb => ?_
    have hloop := @urlLoop_returns fuel mb [] IsSpelled.nil
    rw [List.append_nil] at hloop
    refine hloop.bind fun p hp => ?_
    obtain ⟨rest, hurl, hrest⟩ := hp
    have hall : IsUrl p.2 := by
      rw [hurl]
      rcases hmb with hmb | rfl
      · obtain ⟨cs, hplain, hchars, rfl⟩ := hrest
        exact Or.inl (hmb.append
          ⟨cs, hplain, fun c hc => urlChar_ne_replacement (hchars c hc), rfl⟩)
      · exact Or.inr ⟨rest, hrest, rfl⟩
    exact Returns.both (Returns.pure ⟨rfl, hall⟩)
      (Returns.last fun _ => Returns.pure ⟨rfl, hall⟩)

structure HoldsCodes (tok : Token) : Prop where
  name : tok.fType = .identifier ∨ tok.fType = .hash →
    IsSpelled (fun _ => True) tok.fString ∧ tok.fString ≠ []
  string : tok.fType = .string → IsSpelled (· ≠ replacement) tok.fString
  url : tok.fType = .url → IsUrl tok.fString

def textTypes : List NodeType := [.identifier, .hash, .string, .url]

theorem HoldsCodes.of_type {tok : Token} (h : tok.fType ∉ textTypes) : HoldsCodes tok := by
  refine ⟨fun htype => ?_, fun htype => ?_, fun htype => ?_⟩
  · rcases htype with htype | htype <;> rw [htype] at h <;> exact absurd (by decide) h
  · rw [htype] at h
    exact absurd (by decide) h
  · rw [htype] at h
    exact absurd (by decide) h

theorem identifierRest_returns (fuel : ℕ) {type : NodeType}
    (hname : IsSpelled (fun _ => True) name.id) (htype : type ∉ [NodeType.string, .url]) :
    Returns (identifierRest fuel type name) HoldsCodes := by
  rw [identifierRest]
  refine (identifierLoop_returns fuel hname).bind fun p hname => ?_
  refine Returns.ite (fun _ => ?_) (fun hne => Returns.both ?_ ?_)
  · exact Returns.last fun _ => Returns.last fun _ => Returns.pure (HoldsCodes.of_type (by decide))
  · refine Returns.both ?_
      (Returns.pure (HoldsCodes.of_type (by simp [textTypes])))
    refine (urlArgument_returns fuel).mono fun tok hread => ?_
    obtain ⟨hurl, hstring⟩ := hread
    refine ⟨?_, ?_, fun _ => hstring⟩
    · rw [hurl]
      rintro (h | h) <;> cases h
    · rw [hurl]
      intro h
      cases h
  · refine Returns.last fun _ => Returns.pure ⟨fun _ => ⟨hname, hne⟩, fun h => ?_, fun h => ?_⟩
    · exact absurd (by rw [show type = .string from h]; simp) htype
    · exact absurd (by rw [show type = .url from h]; simp) htype

theorem identifierStart_returns (fuel : ℕ) {type : NodeType}
    (hname : IsSpelled (fun _ => True) name.id) (htype : type ∉ [NodeType.string, .url])
    (hc : c ≠ 0) : Returns (identifierStart fuel type name c) HoldsCodes := by
  have hadd : ∀ d : ℤ, d ≠ 0 →
      Returns (do let name ← name.add d; identifierRest fuel type name) HoldsCodes :=
    fun d hd => (Name.add_returns hname hd).bind fun _ h => identifierRest_returns fuel h htype
  refine Returns.both ?_ (Returns.both (hadd c hc) ?_)
  · refine escape_returns.bind fun d hd => ?_
    exact Returns.both (identifierRest_returns fuel hname htype) (hadd d hd)
  · refine Returns.both ?_ Returns.throw
    exact Returns.last fun _ => Returns.last fun _ => Returns.pure (HoldsCodes.of_type (by decide))

theorem identifier_returns (fuel : ℕ) (hc : c ≠ 0) :
    Returns (identifier fuel c) HoldsCodes := by
  have hdash : IsSpelled (fun _ => True) [45] :=
    ⟨[45], by simp [Plain, IsCode, encoding], by simp, by decide⟩
  have hmarked : ∀ type, type ∉ [NodeType.string, .url] → ∀ d : ℤ, d ≠ 0 →
      Returns (identifierDash fuel type d) HoldsCodes := by
    intro type htype d hd
    refine Returns.both ?_ ?_
    · exact getc_returns.bind fun e he => identifierStart_returns fuel hdash htype he
    · exact identifierStart_returns fuel IsSpelled.nil htype hd
  refine Returns.both ?_ (Returns.both ?_ ?_)
  · exact getc_returns.bind fun d hd => hmarked _ (by simp) d hd
  · exact getc_returns.bind fun d hd => hmarked _ (by simp) d hd
  · exact hmarked _ (by simp) c hc

def Turned (x : Option Token) : Prop := ∀ tok, x = some tok → HoldsCodes tok

theorem Turned.none : Turned none := by
  intro tok h
  cases h

theorem Turned.some {tok : Token} (h : HoldsCodes tok) : Turned (some tok) := by
  intro tok' heq
  rwa [← Option.some.inj heq]

/-- A token, if there is one, satisfies `P`. -/
def Yields (P : Token → Prop) (x : Option Token) : Prop := ∀ tok, x = some tok → P tok

theorem Yields.none {P : Token → Prop} : Yields P none := by
  intro tok h
  cases h

theorem Yields.some {P : Token → Prop} {tok : Token} (h : P tok) : Yields P (some tok) := by
  intro tok' heq
  rwa [← Option.some.inj heq]

/-- A comment is kept with its text, without the spaces at its end. -/
theorem comment_yields {P : Token → Prop}
    (h : ∀ str integer, preserve <:+: str →
      P { fType := .comment, fString := trimComment str, fInteger := integer })
    (fuel : ℕ) (cComment : Bool) : Returns (comment fuel cComment) (Yields P) := by
  have hnode : ∀ str kind, Yields P (commentNode str kind) := by
    intro str kind
    rw [commentNode]
    by_cases hpreserve : preserve <:+: str
    · rw [if_pos hpreserve]
      exact .some (h _ _ hpreserve)
    · rw [if_neg hpreserve]
      exact .none
  exact Returns.ite
    (fun _ => Returns.last fun _ => Returns.last fun _ => Returns.pure (hnode _ _))
    (fun _ => Returns.last fun _ => Returns.last fun _ => Returns.pure (hnode _ _))

theorem hash_returns (fuel : ℕ) : Returns (hash fuel) Turned := by
  refine (hashLoop_returns fuel IsSpelled.nil).bind fun str hstr => ?_
  refine Returns.ite (fun _ => Returns.last fun _ => Returns.pure .none) (fun hne => ?_)
  refine Returns.pure (.some ⟨fun _ => ⟨hstr, hne⟩, fun h => ?_, fun h => ?_⟩) <;> cases h

theorem comment_returns (fuel : ℕ) (cComment : Bool) : Returns (comment fuel cComment) Turned :=
  comment_yields (fun _ _ _ => .of_type (by simp [textTypes])) fuel cComment

theorem unicodeRange_type (d : ℤ) :
    Returns (unicodeRange d) fun tok => tok.fType = .unicodeRange := by
  have hend : ∀ d start stop,
      Returns (rangeEnd d start stop) fun tok => tok.fType = .unicodeRange := fun _ _ _ =>
    Returns.both (Returns.last fun _ => Returns.pure rfl)
      (Returns.last fun _ => Returns.pure rfl)
  have hcheck : ∀ d start stop,
      Returns (rangeCheck d start stop) fun tok => tok.fType = .unicodeRange := fun _ _ _ =>
    Returns.both (Returns.last fun _ => Returns.pure rfl) (hend _ _ _)
  refine Returns.last fun ⟨d, r⟩ => Returns.both ?_ ?_
  · exact Returns.both (Returns.last fun _ => hend _ _ _) (hend _ _ _)
  · exact Returns.both (Returns.last fun _ => Returns.last fun _ => hcheck _ _ _)
      (hcheck _ _ _)

theorem unicodeRange_returns (d : ℤ) : Returns (unicodeRange d) HoldsCodes :=
  (unicodeRange_type d).mono fun tok htype => .of_type (by rw [htype]; decide)

theorem stringToken_returns (fuel : ℕ) (quote : ℤ) : Returns (stringToken fuel quote) Turned := by
  refine (stringLoop_returns quote fuel IsSpelled.nil).bind fun str hstr => ?_
  refine Returns.pure (.some ⟨fun h => ?_, fun _ => hstr, fun h => ?_⟩)
  · rcases h with h | h <;> cases h
  · cases h

section Rules

variable {P : Token → Prop}

def otherDataTypes : List NodeType := [.comment, .unicodeRange]

def dataTypes : List NodeType := textTypes ++ otherDataTypes

structure TokenRules (P : Token → Prop) : Prop where
  other : ∀ tok, tok.fType ∉ dataTypes → P tok
  ofIdentifier : ∀ fuel c, c ≠ 0 → Returns (identifier fuel c) P
  ofHash : ∀ fuel, Returns (hash fuel) (Yields P)
  ofComment : ∀ fuel cComment, Returns (comment fuel cComment) (Yields P)
  ofRange : ∀ d, Returns (unicodeRange d) P
  ofString : ∀ fuel quote, Returns (stringToken fuel quote) (Yields P)

theorem number_type (fuel : ℕ) (c : ℤ) :
    Returns (number fuel c) fun tok => tok.fType ∉ dataTypes := by
  have hnode : ∀ hasSign sign integer fraction exponent dimension percent,
      (numberNode hasSign sign integer fraction exponent dimension percent).fType ∉ dataTypes := by
    intro hasSign sign integer fraction exponent dimension percent
    unfold numberNode
    split_ifs <;> simp [dataTypes, textTypes, otherDataTypes]
  have hrest : ∀ hasSign sign integer d,
      Returns (numberRest fuel hasSign sign integer d) fun tok => tok.fType ∉ dataTypes :=
    fun _ _ _ _ => Returns.last fun _ => Returns.last fun _ => Returns.last fun _ =>
      Returns.pure (hnode _ _ _ _ _ _ _)
  have hstart : ∀ hasSign sign d,
      Returns (numberStart fuel hasSign sign d) fun tok => tok.fType ∉ dataTypes :=
    fun _ _ _ => Returns.both (Returns.last fun _ => hrest _ _ _ _)
      (hrest _ _ _ _)
  exact Returns.both (Returns.last fun _ => hstart _ _ _) (hstart _ _ _)

theorem variableToken_type (fuel : ℕ) (c : ℤ) :
    Returns (variableToken fuel c) fun tok => tok.fType ∉ dataTypes :=
  have htype : ∀ type, type = .variable ∨ type = .variableFunction → type ∉ dataTypes := by
    rintro type (rfl | rfl) <;> decide
  Returns.last fun _ => Returns.both (Returns.pure (htype _ (Or.inr rfl)))
    (Returns.last fun _ => Returns.pure (htype _ (Or.inl rfl)))

theorem singleToken_type {type : NodeType} (h : singleToken c = some type) : type ∉ dataTypes := by
  unfold singleToken at h
  split_ifs at h <;> cases h <;> decide

namespace TokenRules

theorem node_yields {type : NodeType} (h : TokenRules P) (htype : type ∉ dataTypes) :
    Returns (node type) (Yields P) := Returns.pure (.some (h.other _ htype))

theorem putBack_yields {type : NodeType} (h : TokenRules P) (n : ℤ) (htype : type ∉ dataTypes) :
    Returns (do ungetc n; node type) (Yields P) := Returns.last fun _ => h.node_yields htype

theorem tokenOf_yields {m : Lex Token} (h : Returns m P) : Returns (tokenOf m) (Yields P) :=
  h.bind fun _ htok => Returns.pure (.some htok)

theorem number_yields (h : TokenRules P) (fuel : ℕ) (c : ℤ) :
    Returns (tokenOf (number fuel c)) (Yields P) :=
  tokenOf_yields ((number_type fuel c).mono h.other)

theorem markedIdentifier_yields (h : TokenRules P) (fuel : ℕ) (hc : c ≠ 0) :
    Returns (markedIdentifier fuel c) (Yields P) :=
  (h.ofIdentifier fuel c hc).bind fun _ htok =>
    Returns.both (Returns.pure .none) (Returns.pure (.some htok))

theorem signRest_yields (h : TokenRules P) (fuel : ℕ) {n : ℤ} (hc : c ≠ 0) :
    Returns (signRest fuel c n) (Yields P) := by
  refine Returns.both (h.putBack_yields n (by decide)) ?_
  refine Returns.both ?_ ?_
  · exact Returns.last fun _ => Returns.both (h.node_yields (by decide))
      (Returns.last fun _ => h.putBack_yields n (by decide))
  · exact Returns.last fun _ => Returns.both (tokenOf_yields (h.ofIdentifier fuel c hc))
      (h.node_yields (by decide))

theorem signToken_yields (h : TokenRules P) (fuel : ℕ) (hc : c ≠ 0) :
    Returns (signToken fuel c) (Yields P) := by
  refine Returns.last fun n => Returns.both ?_ ?_
  · exact Returns.last fun _ => h.number_yields fuel c
  refine Returns.both ?_ ?_
  · refine Returns.last fun _ => Returns.both ?_ ?_
    · exact Returns.last fun _ => Returns.last fun _ => h.number_yields fuel c
    · exact Returns.last fun _ => h.signRest_yields fuel hc
  · exact h.signRest_yields fuel hc

theorem lessToken_yields (h : TokenRules P) : Returns lessToken (Yields P) := by
  refine Returns.last fun n => Returns.both ?_ ?_
  · refine Returns.last fun p => Returns.both ?_ ?_
    · exact Returns.last fun _ => Returns.both (h.node_yields (by decide))
        (Returns.last fun _ => Returns.last fun _ => h.putBack_yields n (by decide))
    · exact Returns.last fun _ => h.putBack_yields n (by decide)
  · exact Returns.both (h.node_yields (by decide)) (h.putBack_yields n (by decide))

theorem letterU_yields (h : TokenRules P) (fuel : ℕ) (hc : c ≠ 0) :
    Returns (letterU fuel c) (Yields P) := by
  have hname := tokenOf_yields (h.ofIdentifier fuel c hc)
  refine Returns.last fun _ => Returns.both ?_ (Returns.last fun _ => hname)
  exact Returns.last fun d => Returns.both (tokenOf_yields (h.ofRange d))
    (Returns.last fun _ => Returns.last fun _ => hname)

theorem slashToken_yields (h : TokenRules P) (fuel : ℕ) : Returns (slashToken fuel) (Yields P) := by
  refine Returns.last fun n => Returns.both (h.ofComment fuel true) ?_
  refine Returns.both ?_ (h.putBack_yields n (by decide))
  exact (h.ofComment fuel false).bind fun _ hx => Returns.both (Returns.pure .none)
    (Returns.last fun _ => Returns.pure hx)

theorem tokenAt_yields (h : TokenRules P) (fuel : ℕ) (hc : c ≠ 0) :
    Returns (tokenAt fuel c) (Yields P) := by
  have hname := h.ofIdentifier fuel c hc
  have hinvalid : ∀ d, Returns (invalidCharacter d) (Yields P) :=
    fun _ => Returns.last fun _ => Returns.pure .none
  have hpair : ∀ second joined single, joined ∉ dataTypes → single ∉ dataTypes →
      Returns (pairToken second joined single) (Yields P) := fun _ _ _ hjoined hsingle =>
    Returns.last fun _ => Returns.both (h.node_yields hjoined)
      (h.putBack_yields _ hsingle)
  refine Returns.both (h.node_yields (by decide)) ?_
  refine Returns.both ?equal ?_
  case equal =>
    exact Returns.last fun _ => Returns.ite
      (fun _ => Returns.last fun _ => h.node_yields (by decide))
      (fun _ => h.putBack_yields _ (by decide))
  refine Returns.both (hpair _ _ _ (by decide) (by decide)) ?_
  refine Returns.both (hpair _ _ _ (by decide) (by decide)) ?_
  refine Returns.both (hpair _ _ _ (by decide) (by decide)) ?_
  refine Returns.both ?period ?_
  case period =>
    exact Returns.last fun _ => Returns.last fun _ => Returns.ite
      (fun _ => h.number_yields fuel _) (fun _ => h.node_yields (by decide))
  refine Returns.both (hpair _ _ _ (by decide) (by decide)) ?_
  refine Returns.both h.lessToken_yields ?_
  refine Returns.both (h.signToken_yields fuel hc) ?_
  refine Returns.both ?caret ?_
  case caret =>
    exact Returns.last fun _ => Returns.both (h.node_yields (by decide))
      (Returns.last fun _ => hinvalid _)
  refine Returns.both ?dollar ?_
  case dollar =>
    exact Returns.last fun _ => Returns.ite (fun _ => h.node_yields (by decide)) (fun _ =>
      Returns.both (tokenOf_yields ((variableToken_type fuel _).mono h.other))
      (h.putBack_yields _ (by decide)))
  refine Returns.both (hpair _ _ _ (by decide) (by decide)) ?_
  refine Returns.both ?star ?_
  case star =>
    exact Returns.last fun _ => Returns.both (h.node_yields (by decide))
      (Returns.both (h.node_yields (by decide))
        (h.putBack_yields _ (by decide)))
  refine Returns.both ?pipe ?_
  case pipe =>
    exact Returns.last fun _ => Returns.both (h.node_yields (by decide))
      (Returns.both (h.node_yields (by decide))
        (h.putBack_yields _ (by decide)))
  refine Returns.both (h.ofString fuel c) ?_
  refine Returns.both (h.slashToken_yields fuel) ?_
  refine Returns.both (Returns.last fun _ => h.node_yields (by decide)) ?_
  refine Returns.both (h.number_yields fuel c) ?_
  refine Returns.both (h.ofHash fuel) ?_
  refine Returns.both ?percent ?_
  case percent =>
    exact Returns.last fun _ => Returns.ite
      (fun _ => Returns.last fun _ => h.markedIdentifier_yields fuel (by decide))
      (fun _ => h.node_yields (by decide))
  refine Returns.both (h.markedIdentifier_yields fuel hc) ?_
  refine Returns.both (h.letterU_yields fuel hc) ?_
  cases hsingle : singleToken c with
  | some type => exact h.node_yields (singleToken_type hsingle)
  | none => exact Returns.both (tokenOf_yields hname) (hinvalid c)

theorem nextToken_returns (h : TokenRules P) : Returns nextToken P := by
  have hturn : Returns turn (Yields P) :=
    Returns.last fun s => getc_returns.bind fun _ hc => h.tokenAt_yields s.turns hc
  have hloop : ∀ fuel, Returns (nextTokenLoop fuel) P := by
    intro fuel
    induction fuel with
    | zero => exact Returns.throw
    | succ fuel ih =>
      rw [nextTokenLoop]
      refine hturn.bind fun x hx => ?_
      cases x with
      | none => exact ih
      | some tok => exact Returns.pure (hx tok rfl)
  exact Returns.last fun s => hloop s.turns

end TokenRules

theorem holdsCodes_rules : TokenRules HoldsCodes where
  other _ h := .of_type fun hmem => h (List.mem_append_left _ hmem)
  ofIdentifier fuel _ hc := identifier_returns fuel hc
  ofHash := hash_returns
  ofComment := comment_returns
  ofRange := unicodeRange_returns
  ofString := stringToken_returns

theorem nextToken_returns : Returns nextToken HoldsCodes := holdsCodes_rules.nextToken_returns

theorem identifier_type (fuel : ℕ) (c : ℤ) :
    Returns (identifier fuel c) fun tok => tok.fType ∉ otherDataTypes := by
  have hrest : ∀ type name, type ∉ otherDataTypes →
      Returns (identifierRest fuel type name) fun tok => tok.fType ∉ otherDataTypes := by
    intro type name htype
    refine Returns.last fun ⟨c, name⟩ => Returns.both ?_ ?_
    · exact Returns.last fun _ => Returns.last fun _ => Returns.pure
        (by simp [eofNode, otherDataTypes])
    refine Returns.both (Returns.both ?_ ?_) ?_
    · refine (urlArgument_returns fuel).mono fun tok ⟨hurl, _⟩ => ?_
      rw [hurl]
      decide
    · exact Returns.pure (by simp [otherDataTypes])
    · exact Returns.last fun _ => Returns.pure htype
  have hstart : ∀ type name c, type ∉ otherDataTypes →
      Returns (identifierStart fuel type name c) fun tok => tok.fType ∉ otherDataTypes := by
    intro type name c htype
    refine Returns.both ?_ (Returns.both ?_ ?_)
    · exact Returns.last fun _ => Returns.both (hrest _ _ htype)
        (Returns.last fun _ => hrest _ _ htype)
    · exact Returns.last fun _ => hrest _ _ htype
    · refine Returns.both ?_ Returns.throw
      exact Returns.last fun _ => Returns.last fun _ => Returns.pure
        (by simp [eofNode, otherDataTypes])
  have hdash : ∀ type c, type ∉ otherDataTypes →
      Returns (identifierDash fuel type c) fun tok => tok.fType ∉ otherDataTypes :=
    fun type c htype => Returns.both (Returns.last fun _ => hstart _ _ _ htype)
      (hstart _ _ _ htype)
  refine Returns.both ?_ (Returns.both ?_ ?_)
  · exact Returns.last fun d => hdash _ d (by decide)
  · exact Returns.last fun d => hdash _ d (by decide)
  · exact hdash _ c (by decide)

/-- A property that only comments and ranges may lack. -/
theorem TokenRules.of_others (hother : ∀ tok, tok.fType ∉ otherDataTypes → P tok)
    (hcomment : ∀ fuel cComment, Returns (comment fuel cComment) (Yields P))
    (hrange : ∀ d, Returns (unicodeRange d) P) : TokenRules P where
  other _ h := hother _ fun hmem => h (List.mem_append_right _ hmem)
  ofIdentifier fuel c _ := (identifier_type fuel c).mono hother
  ofHash _ := Returns.last fun _ => Returns.both (Returns.last fun _ => Returns.pure .none)
    (Returns.pure (.some (hother _ (by simp [otherDataTypes]))))
  ofComment := hcomment
  ofRange := hrange
  ofString _ _ := Returns.last fun _ =>
    Returns.pure (.some (hother _ (by simp [otherDataTypes])))

end Rules

end SnapCpp.Css
