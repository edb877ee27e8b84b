import SnapCpp.Ensures
import SnapCpp.TldEmails

/-!
What the splitter checks for the scanners behind it. Where it stands in a quoted
string, a comment or a domain literal, the scanner of one email stands in the same
place or has given up, so that no email can make it throw. A group name is read by
a scanner that knows comments but neither quoted strings nor literals.
-/
namespace SnapCpp.EmailSplit

open TldEmails

/-- The modes of the scanner of one email while the splitter is in one of its own. -/
def Agrees : SplitMode → Mode → Prop
  | .main, m => m = .main ∨ m = .space ∨ m = .dot ∨ m = .afterQuote
  | .quoted, m => m = .quoted
  | .quotedEscape, m => m = .quotedEscape
  | .comment count, m => m = .comment count
  | .commentEscape count, m => m = .commentEscape count
  | .literal, m => m = .literalStart ∨ m = .literalBody ∨ m = .literalEnd

/-- The scanner of one email has returned a failure or stands where the splitter does. -/
def Safe (mode : SplitMode) : Except Stop Parser → Prop
  | .error (.returned result) => result ≠ .success
  | .error (.thrown _) => False
  | .ok p => Agrees mode p.mode

def nextMode : SplitMode → UInt8 → Option SplitMode
  | .main, b =>
      match kind b with
      | .semicolon => none
      | .colon => none
      | .comma => none
      | .quote => some .quoted
      | .opening => some (.comment 1)
      | .bracket => some .literal
      | _ => some .main
  | .quoted, b =>
      match kind b with
      | .quote => some .main
      | .backslash => some .quotedEscape
      | _ => some .quoted
  | .quotedEscape, b => if isQuotedChar b then some .quoted else none
  | .comment count, b =>
      match kind b with
      | .backslash => some (.commentEscape count)
      | .opening => some (.comment (count + 1))
      | .closing => some (if count ≤ 1 then .main else .comment (count - 1))
      | _ => some (.comment count)
  | .commentEscape count, b => if isQuotedChar b then some (.comment count) else none
  | .literal, b =>
      match kind b with
      | .closeBracket => some .main
      | .bracket => none
      | .backslash => none
      | _ => some .literal

theorem main_of_space {mode : SplitMode} {b : UInt8} (h : nextMode mode b = some .main)
    (hb : isSpace b = true) : mode = .main := by
  have hk : kind b = .space := of_decide_eq_true hb
  cases mode <;> simp [nextMode, hk] at h ⊢

section Scanner

variable {p : Parser} {b : UInt8} {mode mode' : SplitMode}

theorem safe_invalid : Safe mode Parser.invalid := nofun

theorem safe_null : Safe mode Parser.null := nofun

theorem safe_less (p : Parser) : Safe .main p.less := by
  unfold Parser.less
  split_ifs
  · exact safe_invalid
  · exact .inl rfl
  · exact .inl rfl

theorem safe_greater (p : Parser) : Safe .main p.greater := by
  unfold Parser.greater
  split_ifs
  · exact safe_invalid
  · exact safe_null
  · exact .inl rfl
  · exact safe_invalid
  · exact .inl rfl

theorem safe_atSign (p : Parser) : Safe .main p.atSign := by
  unfold Parser.atSign
  split_ifs
  · exact safe_invalid
  · exact safe_null
  · exact .inl rfl

theorem safe_dot (p : Parser) : Safe .main p.dot := by
  unfold Parser.dot
  split_ifs
  · exact safe_invalid
  · exact .inr (.inr (.inl rfl))

theorem safe_mainStep (h : nextMode .main b = some mode') : Safe mode' (p.mainStep b) := by
  cases hk : kind b <;> simp only [nextMode, hk, reduceCtorEq, Option.some.injEq] at h <;>
    subst h <;> simp only [Parser.mainStep, hk]
  case space => exact .inr (.inl rfl)
  case quote =>
    split_ifs
    · exact safe_invalid
    · rfl
  case opening => rfl
  case bracket =>
    split_ifs
    · exact safe_invalid
    · exact .inl rfl
  case less => exact safe_less p
  case greater => exact safe_greater p
  case atSign => exact safe_atSign p
  case dot => exact safe_dot p
  all_goals
    split_ifs
    · exact .inl rfl
    · exact safe_invalid

theorem safe_quotedByte (p : Parser) (b : UInt8) : Safe .quoted (p.quotedByte b) := by
  unfold Parser.quotedByte
  split_ifs
  · exact safe_invalid
  · rfl

theorem safe_literalClose (p : Parser) : Safe .main p.literalClose := by
  unfold Parser.literalClose
  split_ifs
  · exact safe_null
  · exact .inl rfl

theorem safe_literalByte (h : nextMode .literal b = some mode') : Safe mode' (p.literalByte b) := by
  cases hk : kind b <;> simp only [nextMode, hk, reduceCtorEq, Option.some.injEq] at h <;>
    subst h <;> simp only [Parser.literalByte, hk]
  case closeBracket => exact safe_literalClose p
  case space => exact .inr (.inr rfl)
  all_goals
    split_ifs
    · exact safe_invalid
    · exact .inr (.inl rfl)

/-- A byte that the splitter keeps moves both scanners alike. -/
theorem safe_step (hp : Agrees mode p.mode) (h : nextMode mode b = some mode') :
    Safe mode' (p.step b) := by
  cases mode with
  | main =>
    have hmain : Safe mode' (p.mainStep b) := safe_mainStep h
    rcases hp with hm | hm | hm | hm <;> simp only [Parser.step, hm]
    · exact hmain
    · split_ifs with hspace
      · have hk : kind b = .space := of_decide_eq_true hspace
        simp only [nextMode, hk, Option.some.injEq] at h
        subst h
        exact .inr (.inl hm)
      · exact hmain
    · split_ifs
      · exact safe_invalid
      · exact hmain
    · split_ifs with hspace
      · subst hspace
        obtain rfl := Option.some.inj h
        exact .inr (.inr (.inr hm))
      · exact hmain
      · exact safe_invalid
  | quoted =>
    have hm : p.mode = .quoted := hp
    cases hk : kind b <;> simp only [nextMode, hk, Option.some.injEq] at h <;> subst h <;>
      simp only [Parser.step, hm, hk]
    case quote => exact .inr (.inr (.inr rfl))
    case backslash => rfl
    all_goals exact safe_quotedByte p b
  | quotedEscape =>
    have hm : p.mode = .quotedEscape := hp
    simp only [nextMode, Option.ite_none_right_eq_some, Option.some.injEq] at h
    obtain ⟨-, rfl⟩ := h
    simp only [Parser.step, hm]
    exact safe_quotedByte p b
  | comment count =>
    have hm : p.mode = .comment count := hp
    cases hk : kind b <;> simp only [nextMode, hk, Option.some.injEq] at h <;> subst h <;>
      simp only [Parser.step, hm, hk]
    case opening => rfl
    case closing =>
      split_ifs
      · exact .inl rfl
      · rfl
    case space => exact hm
    case backslash => rfl
    all_goals
      split_ifs
      · exact safe_invalid
      · exact hm
  | commentEscape count =>
    have hm : p.mode = .commentEscape count := hp
    simp only [nextMode, Option.ite_none_right_eq_some, Option.some.injEq] at h
    obtain ⟨hquoted, rfl⟩ := h
    simp only [Parser.step, hm, hquoted, if_true]
    split_ifs
    · exact safe_invalid
    · rfl
  | literal =>
    have hbyte : Safe mode' (p.literalByte b) := safe_literalByte h
    rcases hp with hm | hm | hm <;> simp only [Parser.step, hm]
    · split_ifs with hspace
      · have hk : kind b = .space := of_decide_eq_true hspace
        simp only [nextMode, hk, Option.some.injEq] at h
        subst h
        exact .inl hm
      · exact hbyte
    · exact hbyte
    · cases hk : kind b <;> simp only [nextMode, hk, reduceCtorEq, Option.some.injEq] at h <;>
        subst h
      case closeBracket => exact safe_literalClose p
      case space => exact .inr (.inr hm)
      all_goals exact safe_null

end Scanner

section Splitter

variable (towlower : ℕ → ℕ) (tld : Bytes → TldResult) {st st' : Splitter} {stop : Stop}

theorem step_cases (st : Splitter) (b : UInt8) :
    (∃ mode, nextMode st.mode b = some mode ∧ st.step towlower tld b = .ok (st.keep mode b)) ∨
    (st.mode = .main ∧ isSpace b = true ∧ st.pending = [] ∧ st.step towlower tld b = .ok st) ∨
    (st.mode = .main ∧ kind b = .semicolon ∧ st.step towlower tld b = (do
      let st ← st.flush towlower tld
      return { st with fLastGroup := [], group := true })) ∨
    (st.mode = .main ∧ kind b = .colon ∧ st.step towlower tld b = st.colon) ∨
    (st.mode = .main ∧ kind b = .comma ∧ st.step towlower tld b = st.flush towlower tld) ∨
    (st.mode ≠ .main ∧ st.step towlower tld b = .error (.returned .invalid)) := by
  cases hm : st.mode with
  | main =>
    simp only [Splitter.step, hm, Splitter.mainStep, nextMode, isSpace]
    cases hk : kind b <;> simp
    by_cases hpending : st.pending = [] <;> simp [hpending]
  | quoted =>
    simp only [Splitter.step, hm, nextMode]
    cases hk : kind b <;> simp
  | quotedEscape =>
    simp only [Splitter.step, hm, nextMode]
    by_cases hq : isQuotedChar b = true <;> simp [hq]
  | comment count =>
    simp only [Splitter.step, hm, nextMode]
    cases hk : kind b <;> simp
  | commentEscape count =>
    simp only [Splitter.step, hm, nextMode]
    by_cases hq : isQuotedChar b = true <;> simp [hq]
  | literal =>
    simp only [Splitter.step, hm, nextMode]
    cases hk : kind b <;> simp

theorem trim_concat (l : Bytes) (b : UInt8) :
    trim (l ++ [b]) = if isSpace b then trim l else l ++ [b] := List.rdropWhile_concat ..

theorem foldlM_concat {α β ε : Type} (f : β → α → Except ε β) (init : β) (l : List α) (a : α) :
    (l ++ [a]).foldlM f init = l.foldlM f init >>= fun s => f s a := by
  rw [List.foldlM_append]
  simp

/-- The scanner of one email is with the splitter, on all of the text and on the
text without the spaces at its end. -/
structure Checked (st : Splitter) : Prop where
  whole : Safe st.mode (st.pending.foldlM Parser.step {})
  trimmed : st.mode = .main → Safe .main ((trim st.pending).foldlM Parser.step {})
  noGroup : st.group = true → st.fLastGroup = []

theorem safe_nil : Safe .main (([] : Bytes).foldlM Parser.step {}) := .inl rfl

theorem checked_init : Checked {} := ⟨safe_nil, fun _ => safe_nil, fun _ => rfl⟩

/-- After a separator there is no text. -/
theorem checked_empty (hmode : st.mode = .main) (hpending : st.pending = [])
    (hgroup : st.group = true → st.fLastGroup = []) : Checked st := by
  have htrim : trim ([] : Bytes) = [] := rfl
  refine ⟨?_, ?_, hgroup⟩
  · rw [hmode, hpending]
    exact safe_nil
  · rw [hpending, htrim]
    exact fun _ => safe_nil

theorem checked_keep (h : Checked st) {b : UInt8} {mode : SplitMode}
    (hnext : nextMode st.mode b = some mode) : Checked (st.keep mode b) := by
  have hwhole : Safe mode ((st.pending ++ [b]).foldlM Parser.step {}) := by
    have hold := h.whole
    rw [foldlM_concat]
    cases hp : st.pending.foldlM Parser.step {} with
    | error stop =>
      rw [hp] at hold
      cases stop with
      | returned result => exact hold
      | thrown message => exact hold
    | ok p =>
      rw [hp] at hold
      exact safe_step hold hnext
  refine ⟨hwhole, ?_, h.noGroup⟩
  intro hmode
  have hmain : mode = .main := hmode
  subst hmain
  show Safe .main ((trim (st.pending ++ [b])).foldlM Parser.step {})
  rw [trim_concat]
  split_ifs with hspace
  · exact h.trimmed (main_of_space hnext hspace)
  · exact hwhole

variable {towlower tld}

theorem flush_ok (h : st.flush towlower tld = .ok st') :
    ∃ emails, st' = { st with pending := [], fEmailList := st.fEmailList ++ emails } := by
  unfold Splitter.flush at h
  split_ifs at h with htrim
  · exact ⟨[], by rw [← Except.ok.inj h, List.append_nil]⟩
  · obtain ⟨e, he, h⟩ := bind_eq_ok h
    exact ⟨[e], (Except.ok.inj h).symm⟩

theorem colon_ok (h : st.colon = .ok st') : st.group = true ∧
    ∃ g, parseGroup (trim st.pending) = .ok g ∧ st' = { st with
      pending := [], group := false, fLastGroup := g
      fEmailList := st.fEmailList ++ [({ fGroup := g } : Email)] } := by
  unfold Splitter.colon at h
  split_ifs at h with hgroup htrim
  obtain ⟨g, hg, h⟩ := bind_eq_ok h
  exact ⟨by simpa using hgroup, g, hg, (Except.ok.inj h).symm⟩

theorem checked_step (h : Checked st) {b : UInt8}
    (hstep : st.step towlower tld b = .ok st') : Checked st' := by
  rcases step_cases towlower tld st b with ⟨mode, hnext, heq⟩ | ⟨-, -, -, heq⟩ | ⟨hm, -, heq⟩ |
    ⟨hm, -, heq⟩ | ⟨hm, -, heq⟩ | ⟨-, heq⟩ <;> rw [heq] at hstep
  · obtain rfl := Except.ok.inj hstep
    exact checked_keep h hnext
  · obtain rfl := Except.ok.inj hstep
    exact h
  · obtain ⟨st₁, hflush, hstep⟩ := bind_eq_ok hstep
    obtain rfl := Except.ok.inj hstep
    obtain ⟨emails, rfl⟩ := flush_ok hflush
    exact checked_empty hm rfl fun _ => rfl
  · obtain ⟨-, g, -, rfl⟩ := colon_ok hstep
    exact checked_empty hm rfl nofun
  · obtain ⟨emails, rfl⟩ := flush_ok hstep
    exact checked_empty hm rfl h.noGroup
  · cases hstep

theorem checked_foldlM {input : Bytes} (h : Checked st)
    (hrun : input.foldlM (Splitter.step towlower tld) st = .ok st') : Checked st' := by
  induction input generalizing st with
  | nil =>
    obtain rfl := Except.ok.inj hrun
    exact h
  | cons b rest ih =>
    rw [List.foldlM_cons] at hrun
    obtain ⟨st₁, hb, hrun⟩ := bind_eq_ok hrun
    exact ih (checked_step h hb) hrun

/-- A failure that `parse()` returns and does not throw. -/
def Failure (stop : Stop) : Prop := ∃ result, result ≠ .success ∧ stop = .returned result

theorem failure_invalid : Failure (.returned .invalid) := ⟨.invalid, nofun, rfl⟩

theorem failure_null : Failure (.returned .null) := ⟨.null, nofun, rfl⟩

theorem failure_of_lastDomain {p : Parser} (h : p.lastDomain = .error stop) :
    Failure stop := by
  unfold Parser.lastDomain at h
  split_ifs at h <;> obtain rfl := Except.error.inj h
  · exact failure_null
  · exact failure_invalid
  · exact failure_null
  · exact failure_invalid

theorem failure_of_makeEmail {group email fullname username domain : Bytes}
    (h : makeEmail towlower tld group email fullname username domain = .error stop) :
    Failure stop := by
  unfold makeEmail at h
  dsimp only at h
  split_ifs at h with htld hspace <;> obtain rfl := Except.error.inj h
  · exact ⟨_, htld, rfl⟩
  · exact failure_invalid

theorem failure_of_parseEmail {group email : Bytes}
    (hsafe : Safe .main (email.foldlM Parser.step {}))
    (h : parseEmail towlower tld group email = .error stop) : Failure stop := by
  unfold parseEmail at h
  cases hp : email.foldlM Parser.step {} with
  | error stop' =>
    rw [hp] at h hsafe
    obtain rfl := Except.error.inj h
    cases stop' with
    | returned result => exact ⟨result, hsafe, rfl⟩
    | thrown message => exact hsafe.elim
  | ok p =>
    rw [hp] at h hsafe
    have hmode : Agrees .main p.mode := hsafe
    have hend : p.atEnd = .ok p ∨ p.atEnd = Parser.invalid := by
      rcases hmode with hm | hm | hm | hm <;> simp [Parser.atEnd, hm]
    simp only [bind, Except.bind] at h
    rcases hend with he | he <;> rw [he] at h
    · cases hd : p.lastDomain with
      | error stop' =>
        simp only [hd] at h
        obtain rfl := Except.error.inj h
        exact failure_of_lastDomain hd
      | ok domain =>
        simp only [hd] at h
        exact failure_of_makeEmail h
    · obtain rfl := Except.error.inj h
      exact failure_invalid

theorem failure_of_flush (hst : Checked st) (hmode : st.mode = .main)
    (h : st.flush towlower tld = .error stop) : Failure stop := by
  unfold Splitter.flush at h
  split_ifs at h
  cases he : parseEmail towlower tld st.fLastGroup (trim st.pending) with
  | error stop' =>
    rw [he] at h
    obtain rfl := Except.error.inj h
    exact failure_of_parseEmail (hst.trimmed hmode) he
  | ok e =>
    rw [he] at h
    cases h

end Splitter

section Groups

/-- Read without regard to quotes and brackets, a text opens a comment that it does
not close, or one with a backslash before a byte that cannot follow it. The reading
ends at the first control character outside of comments. -/
def opensComment : ℕ → Bytes → Bool
  | 0, [] => false
  | _ + 1, [] => true
  | 0, b :: rest =>
      if kind b = .opening then opensComment 1 rest
      else if !isSpace b && isControl b || b = 0x7F then false
      else opensComment 0 rest
  | depth + 1, [b] => if kind b = .closing then opensComment depth [] else true
  | depth + 1, b :: c :: rest =>
      if kind b = .opening then opensComment (depth + 2) (c :: rest)
      else if kind b = .closing then opensComment depth (c :: rest)
      else if kind b = .backslash then
        if isQuotedChar c then opensComment (depth + 1) rest else true
      else opensComment (depth + 1) (c :: rest)

/-- The mode of `parse_group()` at a depth of comments. -/
def AtDepth : ℕ → GroupMode → Prop
  | 0, m => m = .main ∨ m = .space
  | depth + 1, m => m = .comment (depth + 1)

def Throws {α : Type} (r : Except Stop α) : Prop := ∃ message, r = .error (.thrown message)

theorem throws_atEnd {p : GroupParser} (depth : ℕ) (h : AtDepth depth p.mode) :
    Throws p.atEnd ↔ depth ≠ 0 := by
  cases depth with
  | zero =>
    have hat : ∀ message, p.atEnd ≠ .error (.thrown message) := by
      intro message
      rcases h with hm | hm <;> simp only [GroupParser.atEnd, hm] <;> split_ifs <;> simp
    exact iff_of_false (fun ⟨message, he⟩ => hat message he) (by simp)
  | succ depth =>
    have hm : p.mode = .comment (depth + 1) := h
    have he : p.atEnd = .error (logicError "a quoted string" "checked") := by
      simp only [GroupParser.atEnd, hm]
    exact iff_of_true ⟨_, he⟩ (by simp)

variable {p : GroupParser} {b : UInt8} {depth : ℕ}

theorem step_opening (h : AtDepth 0 p.mode) (hb : kind b = .opening) :
    p.step b = .ok { p with mode := .comment 1 } := by
  rcases h with hm | hm <;> simp [GroupParser.step, hm, GroupParser.mainStep, isSpace, hb]

theorem step_control (h : AtDepth 0 p.mode) (hb : kind b ≠ .opening)
    (hcontrol : (!isSpace b && isControl b || b = 0x7F) = true) :
    p.step b = .error (.returned .invalid) := by
  have hspace : isSpace b = false := by
    by_contra hs
    rw [Bool.not_eq_false] at hs
    have hdel : b = 0x7F := by simpa [hs] using hcontrol
    rw [hdel] at hs
    exact absurd hs (by decide)
  have hbad : (isControl b || b = 0x7F) = true := by simpa [hspace] using hcontrol
  have hmain : p.mainStep b = .error (.returned .invalid) := by
    have hk : kind b ≠ .space := by simpa [isSpace] using hspace
    unfold GroupParser.mainStep
    split
    · exact absurd ‹_› hk
    · exact absurd ‹_› hb
    · exact if_pos hbad
  rcases h with hm | hm <;> simp [GroupParser.step, hm, hmain, hspace]

theorem step_plain (h : AtDepth 0 p.mode) (hb : kind b ≠ .opening)
    (hcontrol : ¬(!isSpace b && isControl b || b = 0x7F) = true) :
    ∃ p', p.step b = .ok p' ∧ AtDepth 0 p'.mode := by
  have hmain : ∃ p', p.mainStep b = .ok p' ∧ AtDepth 0 p'.mode := by
    unfold GroupParser.mainStep
    split
    · exact ⟨_, rfl, .inr rfl⟩
    · exact absurd ‹_› hb
    · have hspace : isSpace b = false := by simpa [isSpace] using ‹kind b = .space → False›
      rw [if_neg (by simpa [hspace] using hcontrol)]
      exact ⟨_, rfl, .inl rfl⟩
  rcases h with hm | hm
  · simpa only [GroupParser.step, hm] using hmain
  · simp only [GroupParser.step, hm]
    split_ifs
    · exact ⟨p, rfl, .inr hm⟩
    · exact hmain

theorem throws_bind_of_step {p p' : GroupParser} {b : UInt8} (rest : Bytes)
    (h : p.step b = .ok p') :
    (((b :: rest).foldlM GroupParser.step p) >>= GroupParser.atEnd) =
      (rest.foldlM GroupParser.step p') >>= GroupParser.atEnd := by
  rw [List.foldlM_cons, h]
  rfl

theorem step_inner_opening (h : AtDepth (depth + 1) p.mode) (hb : kind b = .opening) :
    p.step b = .ok { p with mode := .comment (depth + 2) } := by
  have hm : p.mode = .comment (depth + 1) := h
  simp only [GroupParser.step, hm, hb]

theorem step_inner_closing (h : AtDepth (depth + 1) p.mode) (hb : kind b = .closing) :
    ∃ p', p.step b = .ok p' ∧ AtDepth depth p'.mode := by
  have hm : p.mode = .comment (depth + 1) := h
  refine ⟨_, by simp only [GroupParser.step, hm, hb]; rfl, ?_⟩
  cases depth with
  | zero => exact .inl rfl
  | succ depth => rfl

theorem step_inner_backslash (h : AtDepth (depth + 1) p.mode)
    (hb : kind b = .backslash) : p.step b = .ok { p with mode := .commentEscape (depth + 1) } := by
  have hm : p.mode = .comment (depth + 1) := h
  simp only [GroupParser.step, hm, hb]

theorem step_inner_other (h : AtDepth (depth + 1) p.mode) (hopening : kind b ≠ .opening)
    (hclosing : kind b ≠ .closing) (hbackslash : kind b ≠ .backslash) : p.step b = .ok p := by
  have hm : p.mode = .comment (depth + 1) := h
  simp only [GroupParser.step, hm]

/-- `parse_group()` throws on the names that open a comment. -/
theorem throws_group_iff (l : Bytes) (depth : ℕ) (p : GroupParser) (h : AtDepth depth p.mode) :
    Throws ((l.foldlM GroupParser.step p) >>= GroupParser.atEnd) ↔ opensComment depth l = true := by
  induction depth, l using opensComment.induct generalizing p with
  | case1 =>
    rw [opensComment]
    exact (throws_atEnd _ h).trans (by simp)
  | case2 depth =>
    rw [opensComment]
    exact (throws_atEnd _ h).trans (by simp)
  | case3 b rest hb ih =>
    rw [opensComment, if_pos hb, throws_bind_of_step rest (step_opening h hb)]
    exact ih _ rfl
  | case4 b rest hb hcontrol =>
    rw [opensComment, if_neg hb, if_pos hcontrol, List.foldlM_cons, step_control h hb hcontrol]
    exact iff_of_false (by rintro ⟨message, he⟩; cases he) (by simp)
  | case5 b rest hb hcontrol ih =>
    obtain ⟨p', hp', hdepth⟩ := step_plain h hb hcontrol
    rw [opensComment, if_neg hb, if_neg hcontrol, throws_bind_of_step rest hp']
    exact ih p' hdepth
  | case6 depth b hb ih =>
    obtain ⟨p', hp', hdepth⟩ := step_inner_closing h hb
    rw [opensComment, if_pos hb, throws_bind_of_step [] hp']
    exact ih p' hdepth
  | case7 depth b hb =>
    rw [opensComment, if_neg hb]
    refine iff_of_true ?_ rfl
    by_cases hopening : kind b = .opening
    · rw [throws_bind_of_step [] (step_inner_opening h hopening)]
      exact (throws_atEnd (p := { p with mode := .comment (depth + 2) }) (depth + 2) rfl).mpr
        (by simp)
    by_cases hbackslash : kind b = .backslash
    · rw [throws_bind_of_step [] (step_inner_backslash h hbackslash)]
      exact ⟨_, rfl⟩
    · rw [throws_bind_of_step [] (step_inner_other h hopening hb hbackslash)]
      exact (throws_atEnd _ h).mpr (by simp)
  | case8 depth b c rest hb ih =>
    rw [opensComment, if_pos hb, throws_bind_of_step (c :: rest) (step_inner_opening h hb)]
    exact ih _ rfl
  | case9 depth b c rest hopening hb ih =>
    obtain ⟨p', hp', hdepth⟩ := step_inner_closing h hb
    rw [opensComment, if_neg hopening, if_pos hb, throws_bind_of_step (c :: rest) hp']
    exact ih p' hdepth
  | case10 depth b c rest hopening hclosing hb hc ih =>
    have hescape : ({ p with mode := .commentEscape (depth + 1) } : GroupParser).step c =
        .ok { p with mode := .comment (depth + 1) } := if_pos hc
    rw [opensComment, if_neg hopening, if_neg hclosing, if_pos hb, if_pos hc,
      throws_bind_of_step (c :: rest) (step_inner_backslash h hb),
      throws_bind_of_step rest hescape]
    exact ih _ rfl
  | case11 depth b c rest hopening hclosing hb hc =>
    have hescape : ({ p with mode := .commentEscape (depth + 1) } : GroupParser).step c =
        .error (logicError "a comment" "checked") := if_neg hc
    rw [opensComment, if_neg hopening, if_neg hclosing, if_pos hb, if_neg hc,
      throws_bind_of_step (c :: rest) (step_inner_backslash h hb), List.foldlM_cons, hescape]
    exact iff_of_true ⟨_, rfl⟩ rfl
  | case12 depth b c rest hopening hclosing hbackslash ih =>
    rw [opensComment, if_neg hopening, if_neg hclosing, if_neg hbackslash,
      throws_bind_of_step (c :: rest) (step_inner_other h hopening hclosing hbackslash)]
    exact ih p h

end Groups

section Throwing

variable {towlower : ℕ → ℕ} {tld : Bytes → TldResult}

theorem throws_parseGroup_iff (group : Bytes) :
    Throws (parseGroup group) ↔ opensComment 0 group = true :=
  throws_group_iff group 0 {} (.inl rfl)

theorem throws_step_iff {st : Splitter} (hst : Checked st) (b : UInt8) :
    Throws (st.step towlower tld b) ↔ st.mode = .main ∧ kind b = .colon ∧ st.group = true ∧
      opensComment 0 (trim st.pending) = true := by
  have hflush : ∀ {α : Type} (f : Splitter → Except Stop α), st.mode = .main →
      (∀ st' : Splitter, ¬Throws (f st')) → ¬Throws (st.flush towlower tld >>= f) := by
    rintro α f hm hf ⟨message, he⟩
    cases hr : st.flush towlower tld with
    | error stop =>
      obtain ⟨result, -, rfl⟩ := failure_of_flush hst hm hr
      rw [hr] at he
      cases he
    | ok st' =>
      rw [hr] at he
      exact hf st' ⟨message, he⟩
  rcases step_cases towlower tld st b with ⟨mode, hnext, heq⟩ | ⟨hm, hb, -, heq⟩ | ⟨hm, hb, heq⟩ |
    ⟨hm, hb, heq⟩ | ⟨hm, hb, heq⟩ | ⟨hm, heq⟩ <;> rw [heq]
  · refine iff_of_false (by rintro ⟨message, he⟩; cases he) ?_
    rintro ⟨hm, hb, -⟩
    simp [nextMode, hm, hb] at hnext
  · refine iff_of_false (by rintro ⟨message, he⟩; cases he) ?_
    rintro ⟨-, hcolon, -⟩
    simp [isSpace, hcolon] at hb
  · refine iff_of_false (hflush _ hm ?_) (by simp [hb])
    rintro st' ⟨message, he⟩
    cases he
  · have hgroup := throws_parseGroup_iff (trim st.pending)
    rw [Splitter.colon]
    split_ifs with hnot hempty
    · refine iff_of_false (by rintro ⟨message, he⟩; cases he) ?_
      rintro ⟨-, -, htrue, -⟩
      simp [htrue] at hnot
    · refine iff_of_false (by rintro ⟨message, he⟩; cases he) ?_
      rintro ⟨-, -, -, hopens⟩
      rw [hempty] at hopens
      cases hopens
    · have hparse : Throws (parseGroup (trim st.pending) >>= fun g => (return { st with
          pending := [], group := false, fLastGroup := g
          fEmailList := st.fEmailList ++ [({ fGroup := g } : Email)] } : Except Stop Splitter)) ↔
          Throws (parseGroup (trim st.pending)) := by
        cases parseGroup (trim st.pending) with
        | error stop =>
          constructor <;> rintro ⟨message, he⟩ <;> exact ⟨message, by cases he; rfl⟩
        | ok g => constructor <;> rintro ⟨message, he⟩ <;> cases he
      exact hparse.trans
        (hgroup.trans ⟨fun h => ⟨hm, hb, by simpa using hnot, h⟩, fun h => h.2.2.2⟩)
  · have := hflush pure hm (by rintro st' ⟨message, he⟩; cases he)
    rw [bind_pure] at this
    exact iff_of_false this (by simp [hb])
  · refine iff_of_false (by rintro ⟨message, he⟩; cases he) ?_
    rintro ⟨hmain, -⟩
    exact hm hmain

theorem not_throws_atEnd {st : Splitter} (hst : Checked st) : ¬Throws (st.atEnd towlower tld) := by
  rintro ⟨message, he⟩
  unfold Splitter.atEnd at he
  split_ifs at he with hm hgroup
  · cases he
  · cases he
  · cases hr : st.flush towlower tld with
    | error stop =>
      obtain ⟨result, -, rfl⟩ := failure_of_flush hst (not_not.mp hm) hr
      rw [hr] at he
      cases he
    | ok st' =>
      rw [hr] at he
      cases he

/-- A run that fails does so at some byte. -/
theorem error_of_foldlM {α β ε : Type} {f : β → α → Except ε β} {e : ε} (l : List α) (init : β)
    (h : l.foldlM f init = .error e) : ∃ front a rest s, l = front ++ a :: rest ∧
      front.foldlM f init = .ok s ∧ f s a = .error e := by
  induction l generalizing init with
  | nil => cases h
  | cons a rest ih =>
    rw [List.foldlM_cons] at h
    cases ha : f init a with
    | error e' =>
      rw [ha] at h
      exact ⟨[], a, rest, init, rfl, rfl, ha.trans h⟩
    | ok s =>
      rw [ha] at h
      obtain ⟨front, a', rest', s', rfl, hfront, hs'⟩ := ih s h
      refine ⟨a :: front, a', rest', s', rfl, ?_, hs'⟩
      rw [List.foldlM_cons, ha]
      exact hfront

def NamesClosed (towlower : ℕ → ℕ) (tld : Bytes → TldResult) (input : Bytes) : Prop :=
  ∀ front b rest st, input = front ++ b :: rest → kind b = .colon →
    front.foldlM (Splitter.step towlower tld) {} = .ok st → st.mode = .main → st.group = true →
    opensComment 0 (trim st.pending) = false

theorem throws_parseAllEmails_iff (input : Bytes) :
    Throws (parseAllEmails towlower tld input) ↔ ¬NamesClosed towlower tld input := by
  constructor
  · rintro ⟨message, he⟩ hclosed
    unfold parseAllEmails at he
    cases hr : input.foldlM (Splitter.step towlower tld) {} with
    | ok st =>
      rw [hr] at he
      exact not_throws_atEnd (checked_foldlM checked_init hr) ⟨message, he⟩
    | error stop =>
      rw [hr] at he
      obtain rfl := Except.error.inj he
      obtain ⟨front, b, rest, st, hsplit, hfront, hstep⟩ := error_of_foldlM input _ hr
      obtain ⟨hm, hb, hgroup, hopens⟩ :=
        (throws_step_iff (checked_foldlM checked_init hfront) b).mp ⟨message, hstep⟩
      rw [hclosed front b rest st hsplit hb hfront hm hgroup] at hopens
      cases hopens
  · intro hopen
    simp only [NamesClosed, not_forall, exists_prop] at hopen
    obtain ⟨front, b, rest, st, rfl, hb, hfront, hm, hgroup, hopens⟩ := hopen
    have hthrows : Throws (st.step towlower tld b) :=
      (throws_step_iff (checked_foldlM checked_init hfront) b).mpr
        ⟨hm, hb, hgroup, by simpa using hopens⟩
    obtain ⟨message, hstep⟩ := hthrows
    refine ⟨message, ?_⟩
    rw [parseAllEmails, List.foldlM_append, hfront]
    simp only [bind, Except.bind, List.foldlM_cons, hstep]

/-- `tld_email_list::parse()` throws no `std::logic_error` exactly when no group name
opens a comment that it does not close. -/
theorem no_logic_error_iff (towlower : ℕ → ℕ) (tld : Bytes → TldResult) (s : Bytes) :
    (∀ message, parse towlower tld s ≠ .error message) ↔
      NamesClosed towlower tld (s.takeWhile (· ≠ 0)) := by
  rw [← not_iff_not, ← throws_parseAllEmails_iff, not_forall]
  unfold parse
  cases parseAllEmails towlower tld (s.takeWhile (· ≠ 0)) with
  | ok list => simp [Throws]
  | error stop => cases stop <;> simp [Throws]

/-- The input `"(":`, a parenthesis in the quotes of a group name. -/
theorem quoted_parenthesis_throws :
    ¬∀ message, parse id (fun _ => .success) (ascii "\"(\":") ≠ .error message := by
  intro h
  exact h ("somehow we found a \\0 in a quoted string in tld_email_t which should not happen " ++
    "since it was already checked in tld_email_t::parse()") (by decide)

end Throwing

end SnapCpp.EmailSplit
