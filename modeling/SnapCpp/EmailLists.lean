import SnapCpp.EmailSplit
import SnapCpp.Ensures

/-!
Two lists of emails joined by a comma. At the comma the splitter is where it was at
the start, but for the entries it has, if the first list is one that it accepts. If
it is not, a second list without quotes, comments, literals and groups cannot close
what the first one left open.
-/
namespace SnapCpp.EmailLists

open TldEmails EmailSplit

variable {towlower : ℕ → ℕ} {tld : Bytes → TldResult} {list : List Email} {st : Splitter}
  {x : Bytes} {α : Type}

def prepend (emails : List Email) (st : Splitter) : Splitter :=
  { st with fEmailList := emails ++ st.fEmailList }

section Prepend

variable (emails : List Email) (st : Splitter)

theorem flush_prepend : (prepend emails st).flush towlower tld =
    (st.flush towlower tld).map (prepend emails) := by
  by_cases htrim : trim st.pending = []
  · simp [Splitter.flush, prepend, htrim, Except.map]
  · cases he : parseEmail towlower tld st.fLastGroup (trim st.pending) with
    | error stop => simp [Splitter.flush, prepend, htrim, he, bind, Except.bind, Except.map]
    | ok e =>
      simp [Splitter.flush, prepend, htrim, he, bind, Except.bind, Except.map, pure, Except.pure]

theorem colon_prepend : (prepend emails st).colon = st.colon.map (prepend emails) := by
  by_cases hgroup : st.group = true
  · by_cases htrim : trim st.pending = []
    · simp [Splitter.colon, prepend, hgroup, htrim, Except.map]
    · cases hg : parseGroup (trim st.pending) with
      | error stop =>
        simp [Splitter.colon, prepend, hgroup, htrim, hg, bind, Except.bind, Except.map]
      | ok g =>
        simp [Splitter.colon, prepend, hgroup, htrim, hg, bind, Except.bind, Except.map, pure,
          Except.pure]
  · simp [Splitter.colon, prepend, hgroup, Except.map]

theorem mainStep_prepend (b : UInt8) : (prepend emails st).mainStep towlower tld b =
    (st.mainStep towlower tld b).map (prepend emails) := by
  unfold Splitter.mainStep
  cases kind b
  case space =>
    by_cases hpending : st.pending = [] <;> simp [prepend, hpending, Except.map, Splitter.keep]
  case semicolon =>
    rw [flush_prepend]
    cases st.flush towlower tld <;> rfl
  case colon => exact colon_prepend emails st
  case comma => exact flush_prepend emails st
  all_goals rfl

theorem step_prepend (b : UInt8) : (prepend emails st).step towlower tld b =
    (st.step towlower tld b).map (prepend emails) := by
  unfold Splitter.step
  have hmode : (prepend emails st).mode = st.mode := rfl
  rw [hmode]
  cases st.mode with
  | main => exact mainStep_prepend emails st b
  | quoted => cases kind b <;> rfl
  | quotedEscape =>
    dsimp only
    split_ifs <;> rfl
  | comment count => cases kind b <;> rfl
  | commentEscape count =>
    dsimp only
    split_ifs <;> rfl
  | literal => cases kind b <;> rfl

theorem foldlM_prepend (input : Bytes) :
    input.foldlM (Splitter.step towlower tld) (prepend emails st) =
    (input.foldlM (Splitter.step towlower tld) st).map (prepend emails) := by
  induction input generalizing st with
  | nil => rfl
  | cons b rest ih =>
    rw [List.foldlM_cons, List.foldlM_cons, step_prepend]
    cases hb : st.step towlower tld b with
    | error stop => rfl
    | ok st' => exact ih st'

theorem atEnd_prepend : (prepend emails st).atEnd towlower tld =
    (st.atEnd towlower tld).map (emails ++ ·) := by
  unfold Splitter.atEnd
  have hmode : (prepend emails st).mode = st.mode := rfl
  have hgroup : (prepend emails st).group = st.group := rfl
  rw [hmode, hgroup, flush_prepend]
  by_cases hm : st.mode = .main
  · by_cases hg : st.group = true
    · cases st.flush towlower tld <;> simp [hm, hg, Except.map, bind, Except.bind, pure,
        Except.pure, prepend]
    · simp [hm, hg, Except.map]
  · simp [hm, Except.map]

end Prepend

theorem atEnd_ok (h : st.atEnd towlower tld = .ok list) :
    st.mode = .main ∧ st.group = true ∧
      st.flush towlower tld = .ok { st with pending := [], fEmailList := list } := by
  unfold Splitter.atEnd at h
  split_ifs at h with hm hgroup
  cases hr : st.flush towlower tld with
  | error stop =>
    rw [hr] at h
    cases h
  | ok st' =>
    rw [hr] at h
    obtain rfl := Except.ok.inj h
    obtain ⟨emails, rfl⟩ := flush_ok hr
    exact ⟨not_not.mp hm, by simpa using hgroup, rfl⟩

theorem step_comma (h : st.mode = .main) :
    st.step towlower tld 0x2C = st.flush towlower tld := by
  rw [Splitter.step, h]
  rfl

theorem parseAllEmails_append {y : Bytes} {list' : List Email}
    (hx : parseAllEmails towlower tld x = .ok list)
    (hy : parseAllEmails towlower tld y = .ok list') :
    parseAllEmails towlower tld (x ++ 0x2C :: y) = .ok (list ++ list') := by
  unfold parseAllEmails at hx hy ⊢
  obtain ⟨st, hrun, hx⟩ := bind_eq_ok hx
  obtain ⟨hm, hgroup, hflush⟩ := atEnd_ok hx
  have hlast : st.fLastGroup = [] := (checked_foldlM checked_init hrun).noGroup hgroup
  have hfresh : { st with pending := [], fEmailList := list } = prepend list {} := by
    simp [prepend, hm, hgroup, hlast]
  rw [List.foldlM_append, hrun]
  simp only [bind, Except.bind, List.foldlM_cons, step_comma hm, hflush, hfresh, foldlM_prepend]
  cases hrun' : y.foldlM (Splitter.step towlower tld) {} with
  | error stop =>
    rw [hrun'] at hy
    cases hy
  | ok st' =>
    rw [hrun'] at hy
    have hend : st'.atEnd towlower tld = .ok list' := hy
    simp only [Except.map, atEnd_prepend, hend]

/-- A byte that a list without quotes, comments, literals and groups has. -/
def IsPlain (b : UInt8) : Prop := b ∉ ascii "\"()[]\\:;"

theorem isPlain_kind {b : UInt8} (h : IsPlain b) :
    kind b ∉
      [.quote, .opening, .closing, .bracket, .closeBracket, .backslash, .colon, .semicolon] := by
  have hall : ∀ b : UInt8, b ∉ ascii "\"()[]\\:;" → kind b ∉
      [.quote, .opening, .closing, .bracket, .closeBracket, .backslash, .colon, .semicolon] := by
    decide +kernel
  exact hall b h

def Refused {α : Type} (r : Except Stop α) : Prop := ∃ stop, Failure stop ∧ r = .error stop

/-- Plain bytes do not close a quoted string, a comment or a literal. -/
theorem nextMode_ne_main {mode mode' : SplitMode} {b : UInt8} (hb : IsPlain b)
    (hmode : mode ≠ .main) (h : nextMode mode b = some mode') : mode' ≠ .main := by
  have hk := isPlain_kind hb
  rintro rfl
  cases mode <;> cases hb : kind b <;> simp_all [nextMode]

theorem refused_of_not_main {l : Bytes} (hl : ∀ b ∈ l, IsPlain b) (st : Splitter)
    (hmode : st.mode ≠ .main) :
    Refused (l.foldlM (Splitter.step towlower tld) st >>= Splitter.atEnd towlower tld) := by
  induction l generalizing st with
  | nil => exact ⟨_, failure_invalid, if_pos hmode⟩
  | cons b rest ih =>
    obtain ⟨hb, hrest⟩ := List.forall_mem_cons.mp hl
    rw [List.foldlM_cons]
    rcases step_cases towlower tld st b with ⟨mode, hnext, heq⟩ | ⟨hm, -⟩ | ⟨hm, -⟩ | ⟨hm, -⟩ |
      ⟨hm, -⟩ | ⟨-, heq⟩
    · rw [heq]
      exact ih hrest (st.keep mode b) (nextMode_ne_main hb hmode hnext)
    · exact absurd hm hmode
    · exact absurd hm hmode
    · exact absurd hm hmode
    · exact absurd hm hmode
    · rw [heq]
      exact ⟨_, failure_invalid, rfl⟩

theorem refused_of_group {l : Bytes} (hl : ∀ b ∈ l, IsPlain b) (st : Splitter) (hst : Checked st)
    (hmode : st.mode = .main) (hgroup : st.group = false) :
    Refused (l.foldlM (Splitter.step towlower tld) st >>= Splitter.atEnd towlower tld) := by
  induction l generalizing st with
  | nil =>
    refine ⟨_, failure_invalid, ?_⟩
    show st.atEnd towlower tld = _
    simp [Splitter.atEnd, hmode, hgroup]
  | cons b rest ih =>
    obtain ⟨hb, hrest⟩ := List.forall_mem_cons.mp hl
    have hk := isPlain_kind hb
    rw [List.foldlM_cons]
    cases hstep : st.step towlower tld b with
    | error stop =>
      refine ⟨stop, ?_, rfl⟩
      rcases step_cases towlower tld st b with ⟨mode, -, heq⟩ | ⟨-, -, -, heq⟩ | ⟨-, hsemi, -⟩ |
        ⟨-, hcolon, -⟩ | ⟨-, -, heq⟩ | ⟨hm, -⟩
      · rw [heq] at hstep
        cases hstep
      · rw [heq] at hstep
        cases hstep
      · simp [hsemi] at hk
      · simp [hcolon] at hk
      · exact failure_of_flush hst hmode (heq ▸ hstep)
      · exact absurd hmode hm
    | ok st' =>
      have hkept : st'.mode = .main ∧ st'.group = false := by
        rcases step_cases towlower tld st b with ⟨mode, hnext, heq⟩ | ⟨-, -, -, heq⟩ |
          ⟨-, hsemi, -⟩ | ⟨-, hcolon, -⟩ | ⟨-, -, heq⟩ | ⟨hm, -⟩
        · obtain rfl := Except.ok.inj (heq.symm.trans hstep)
          refine ⟨?_, hgroup⟩
          rw [hmode] at hnext
          cases hb : kind b <;> simp_all [nextMode, Splitter.keep]
        · obtain rfl := Except.ok.inj (heq.symm.trans hstep)
          exact ⟨hmode, hgroup⟩
        · simp [hsemi] at hk
        · simp [hcolon] at hk
        · obtain ⟨emails, rfl⟩ := flush_ok (heq.symm.trans hstep)
          exact ⟨hmode, hgroup⟩
        · exact absurd hmode hm
      exact ih hrest st' (checked_step hst hstep) hkept.1 hkept.2

theorem refused_append {y : Bytes} (hy : ∀ b ∈ y, IsPlain b)
    (hx : Refused (parseAllEmails towlower tld x)) :
    Refused (parseAllEmails towlower tld (x ++ 0x2C :: y)) := by
  unfold parseAllEmails at hx ⊢
  rw [List.foldlM_append]
  cases hrun : x.foldlM (Splitter.step towlower tld) {} with
  | error stop =>
    rw [hrun] at hx
    obtain ⟨stop', hfailure, heq⟩ := hx
    exact ⟨stop', hfailure, heq⟩
  | ok st =>
    have hst : Checked st := checked_foldlM checked_init hrun
    have hcomma : ∀ b ∈ 0x2C :: y, IsPlain b :=
      List.forall_mem_cons.mpr ⟨show 0x2C ∉ ascii _ by decide, hy⟩
    by_cases hmode : st.mode = .main
    · cases hgroup : st.group with
      | false => exact refused_of_group hcomma st hst hmode hgroup
      | true =>
        rw [hrun] at hx
        obtain ⟨stop, hfailure, heq⟩ := hx
        have hend : st.atEnd towlower tld = .error stop := heq
        cases hflush : st.flush towlower tld with
        | ok st' =>
          simp [Splitter.atEnd, hmode, hgroup, hflush, bind, Except.bind, pure, Except.pure] at hend
        | error stop' =>
          have hsame : stop' = stop := by
            simpa [Splitter.atEnd, hmode, hgroup, hflush, bind, Except.bind] using hend
          refine ⟨stop, hfailure, ?_⟩
          simp only [bind, Except.bind, List.foldlM_cons, step_comma hmode, hflush, hsame]
    · exact refused_of_not_main hcomma st hmode

def Proper {α : Type} (r : Except Stop α) : Prop := r ≠ .error (.returned .success)

theorem proper_ok (a : α) : Proper (.ok a) := nofun

theorem Proper.bind {β : Type} {r : Except Stop α} {f : α → Except Stop β} (h : Proper r)
    (hf : ∀ a, r = .ok a → Proper (f a)) : Proper (r >>= f) := by
  cases r with
  | error stop => exact fun he => h (congrArg _ (Except.error.inj he))
  | ok a => exact hf a rfl

theorem proper_of_failure {r : Except Stop α}
    (h : ∀ stop, r = .error stop → Failure stop) : Proper r := by
  intro he
  obtain ⟨result, hne, heq⟩ := h _ he
  exact hne (Stop.returned.inj heq).symm

theorem proper_foldlM {β : Type} {f : β → α → Except Stop β} (h : ∀ s a, Proper (f s a))
    (l : List α) (init : β) : Proper (l.foldlM f init) := by
  intro he
  obtain ⟨front, a, rest, s, -, -, hs⟩ := error_of_foldlM l init he
  exact h s a hs

theorem proper_groupStep (p : GroupParser) (b : UInt8) : Proper (p.step b) := by
  have hmain : Proper (p.mainStep b) := by
    unfold GroupParser.mainStep
    split
    · exact proper_ok _
    · exact proper_ok _
    · split_ifs <;> nofun
  unfold GroupParser.step
  split
  · exact hmain
  · split_ifs
    · exact proper_ok _
    · exact hmain
  · split <;> exact proper_ok _
  · split_ifs <;> nofun

theorem proper_parseGroup (group : Bytes) : Proper (parseGroup group) := by
  refine (proper_foldlM proper_groupStep group {}).bind fun p _ => ?_
  unfold GroupParser.atEnd
  split
  · nofun
  · nofun
  · split_ifs <;> nofun

theorem proper_colon (st : Splitter) : Proper st.colon := by
  unfold Splitter.colon
  split_ifs
  · nofun
  · nofun
  · exact (proper_parseGroup _).bind fun g _ => proper_ok _

theorem proper_flush (hst : Checked st) (hmode : st.mode = .main) :
    Proper (st.flush towlower tld) := proper_of_failure fun _ he => failure_of_flush hst hmode he

theorem proper_step (hst : Checked st) (b : UInt8) :
    Proper (st.step towlower tld b) := by
  rcases step_cases towlower tld st b with ⟨mode, -, heq⟩ | ⟨-, -, -, heq⟩ | ⟨hm, -, heq⟩ |
    ⟨-, -, heq⟩ | ⟨hm, -, heq⟩ | ⟨-, heq⟩ <;> rw [heq]
  · exact proper_ok _
  · exact proper_ok _
  · exact (proper_flush hst hm).bind fun st' _ => proper_ok _
  · exact proper_colon st
  · exact proper_flush hst hm
  · nofun

theorem proper_parseAllEmails (input : Bytes) : Proper (parseAllEmails towlower tld input) := by
  have hrun : Proper (input.foldlM (Splitter.step towlower tld) {}) := by
    intro he
    obtain ⟨front, b, rest, st, -, hfront, hs⟩ := error_of_foldlM input _ he
    exact proper_step (checked_foldlM checked_init hfront) b hs
  refine hrun.bind fun st hst => ?_
  unfold Splitter.atEnd
  split_ifs with hmode
  · nofun
  · nofun
  · exact (proper_flush (checked_foldlM checked_init hst) (not_not.mp hmode)).bind
      fun st' _ => proper_ok _

/-- A text without NUL is all of its C string. -/
theorem takeWhile_eq_self (h : 0 ∉ x) : x.takeWhile (· ≠ 0) = x := by
  rw [List.takeWhile_eq_self_iff]
  intro b hb
  simpa using ne_of_mem_of_not_mem hb h

theorem parse_eq_success_iff (h : 0 ∉ x) :
    parse towlower tld x = .ok (.success, list) ↔ parseAllEmails towlower tld x = .ok list := by
  have hproper : Proper (parseAllEmails towlower tld x) := proper_parseAllEmails x
  unfold parse
  rw [takeWhile_eq_self h]
  cases hr : parseAllEmails towlower tld x with
  | ok list' => simp
  | error stop =>
    cases stop with
    | thrown message => simp
    | returned result =>
      rw [hr] at hproper
      have hne : result ≠ .success := fun he => hproper (by rw [he])
      simp [hne]

theorem refused_iff (h : 0 ∉ x) : Refused (parseAllEmails towlower tld x) ↔
    ∃ result, result ≠ .success ∧ parse towlower tld x = .ok (result, []) := by
  unfold parse Refused Failure
  rw [takeWhile_eq_self h]
  cases parseAllEmails towlower tld x with
  | ok list' =>
    constructor
    · rintro ⟨stop, -, he⟩
      cases he
    · rintro ⟨result, hne, he⟩
      exact absurd (congrArg Prod.fst (Except.ok.inj he)).symm hne
  | error stop =>
    constructor
    · rintro ⟨stop', ⟨result, hne, rfl⟩, he⟩
      obtain rfl := Except.error.inj he
      exact ⟨result, hne, rfl⟩
    · rintro ⟨result, hne, he⟩
      cases stop with
      | thrown message => cases he
      | returned result' =>
        obtain rfl := congrArg Prod.fst (Except.ok.inj he)
        exact ⟨_, ⟨result', hne, rfl⟩, rfl⟩

/-- The list is emptied when something fails. -/
theorem list_of_not_success {result : TldResult} (h : parse towlower tld x = .ok (result, list))
    (hne : result ≠ .success) : list = [] := by
  unfold parse at h
  split at h
  · exact absurd (congrArg Prod.fst (Except.ok.inj h)).symm hne
  · exact (congrArg Prod.snd (Except.ok.inj h)).symm
  · cases h

/-- The lists of two texts joined by a comma are joined, and a text that is refused
is refused before a comma and a second text without quotes, comments, literals and
groups. -/
theorem parse_append (towlower : ℕ → ℕ) (tld : Bytes → TldResult) (x y : Bytes) (hx : 0 ∉ x)
    (hy : 0 ∉ y) :
    (∀ list list', parse towlower tld x = .ok (.success, list) →
      parse towlower tld y = .ok (.success, list') →
      parse towlower tld (x ++ ascii "," ++ y) = .ok (.success, list ++ list')) ∧
    (∀ result list, parse towlower tld x = .ok (result, list) → result ≠ .success →
      (∀ b ∈ y, b ∉ ascii "\"()[]\\:;") →
      ∃ result', result' ≠ .success ∧
        parse towlower tld (x ++ ascii "," ++ y) = .ok (result', [])) := by
  have hjoin : x ++ ascii "," ++ y = x ++ 0x2C :: y := List.append_assoc ..
  have hxy : 0 ∉ x ++ 0x2C :: y := by simp [hx, hy]
  rw [hjoin]
  constructor
  · intro list list' hlist hlist'
    rw [parse_eq_success_iff hx] at hlist
    rw [parse_eq_success_iff hy] at hlist'
    rw [parse_eq_success_iff hxy]
    exact parseAllEmails_append hlist hlist'
  · intro result list hparse hne hplain
    obtain rfl := list_of_not_success hparse hne
    have hrefused : Refused (parseAllEmails towlower tld x) :=
      (refused_iff hx).mpr ⟨result, hne, hparse⟩
    exact (refused_iff hxy).mp (refused_append hplain hrefused)

/-- The entries of `g: a@b.com;`. -/
def groupList : List Email :=
  [{ fGroup := ascii "g" }, {
    fGroup := ascii "g"
    fOriginalEmail := ascii "a@b.com"
    fUsername := ascii "a"
    fDomain := ascii "b.com"
    fEmailOnly := ascii "a@b.com"
    fCanonicalizedEmail := ascii "a@b.com" }]

/-- The entry of `d@e.com`. -/
def emailList : List Email :=
  [{
    fOriginalEmail := ascii "d@e.com"
    fUsername := ascii "d"
    fDomain := ascii "e.com"
    fEmailOnly := ascii "d@e.com"
    fCanonicalizedEmail := ascii "d@e.com" }]

set_option maxRecDepth 20000 in
/-- A group before an email, and a group that is not closed before the same email. -/
theorem parse_append_group_email :
    parse id (fun _ => .success) (ascii "g: a@b.com;" ++ ascii "," ++ ascii "d@e.com") =
      .ok (.success, groupList ++ emailList) ∧
    ∃ result', result' ≠ .success ∧
      parse id (fun _ => .success) (ascii "g: a@b.com" ++ ascii "," ++ ascii "d@e.com") =
        .ok (result', []) := by
  have hclosed : 0 ∉ ascii "g: a@b.com;" := by decide
  have hopen : 0 ∉ ascii "g: a@b.com" := by decide
  have hemail : 0 ∉ ascii "d@e.com" := by decide
  constructor
  · exact (parse_append id (fun _ => .success) _ _ hclosed hemail).1 groupList emailList
      (by decide) (by decide)
  · exact (parse_append id (fun _ => .success) _ _ hopen hemail).2 .invalid []
      (by decide) (by decide) (by decide)

end SnapCpp.EmailLists
