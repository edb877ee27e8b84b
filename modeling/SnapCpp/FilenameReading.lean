import SnapCpp.VersionedFilename

/-!
What a filename that was set is read back as. The filename is written with the name, the version
and the browser of the object; where each number of the version fits in an `int`, it is accepted
again. Calls that meet this, and do not set a version on an object that is not valid, keep the
validity of the object in step.
-/
namespace SnapCpp.SnapVersion.VersionedFilename

open QString QNumber

section Splitting

variable {s w pre post : QString} {c : UInt16}

theorem indexOf_append (h : c ∉ w) : indexOf (w ++ s) c = w.length + indexOf s c := by
  have hall : w.findIdx (· == c) = w.length := by
    rw [List.findIdx_eq_length]
    intro d hd
    rw [beq_eq_false_iff_ne]
    rintro rfl
    exact h hd
  rw [indexOf, List.findIdx_append, hall, if_neg (lt_irrefl _), Nat.add_comm]
  rfl

theorem indexOf_cons_self : indexOf (c :: s) c = 0 := by
  rw [indexOf, List.findIdx_cons, beq_self_eq_true]
  rfl

theorem indexFrom_append (pre s : QString) (h : c ∉ w) : indexFrom (pre ++ (w ++ s)) c pre.length =
    pre.length + (w.length + indexOf s c) := by
  rw [indexFrom, List.drop_left, indexOf_append h]

theorem mid_append (pre w post : QString) :
    mid (pre ++ (w ++ post)) pre.length (pre.length + w.length) = w := by
  rw [mid, if_pos (Nat.le_add_right _ _), List.drop_left, Nat.add_sub_cancel_left, List.take_left]

theorem basenamePos_of_notMem (h : slash ∉ s) : basenamePos s = 0 := by
  have hall : s.reverse.takeWhile (· ≠ slash) = s.reverse := by
    rw [List.takeWhile_eq_self_iff]
    intro c hc
    simp only [ne_eq, decide_eq_true_eq]
    rintro rfl
    exact h (List.mem_reverse.mp hc)
  rw [basenamePos, hall, List.length_reverse, Nat.sub_self]

theorem lt_basenamePos (h : slash ∈ post) : s.length < basenamePos (s ++ post) := by
  obtain ⟨front, back, hback, hpost⟩ : ∃ front back, slash ∉ back ∧
      post = front ++ slash :: back := by
    obtain ⟨u, v, hv, hnot⟩ := List.eq_append_cons_of_mem (List.mem_reverse.mpr h)
    refine ⟨v.reverse, u.reverse, by simpa using hnot, ?_⟩
    rw [← List.reverse_reverse post, hv]
    simp
  have htake : ((s ++ post).reverse.takeWhile (· ≠ slash)).length = back.length := by
    rw [hpost, List.reverse_append, List.reverse_append, List.reverse_cons, List.append_assoc,
      List.append_assoc, List.takeWhile_append_of_pos]
    · simp
    · intro c hc
      simp only [ne_eq, decide_eq_true_eq]
      rintro rfl
      exact hback (List.mem_reverse.mp hc)
  rw [basenamePos, htake, hpost]
  simp only [List.length_append, List.length_cons]
  omega

theorem slash_notMem_of_split {extension : QString} {parts : QString × QString × QString}
    (h : splitFilename extension s = .ok parts) : slash ∉ extension := by
  intro hmem
  rw [splitFilename] at h
  split_ifs at h with hsuffix
  obtain ⟨body, rfl⟩ : extension <:+ s :=
    List.isSuffixOf_iff_suffix.mp (by simpa using hsuffix)
  have hstart := lt_basenamePos (s := body) hmem
  have hlength : (body ++ extension).length - extension.length = body.length := by
    rw [List.length_append, Nat.add_sub_cancel]
  have hunderscore : (body ++ extension).length - extension.length <
      indexFrom (body ++ extension) underscore (basenamePos (body ++ extension)) := by
    rw [hlength]
    exact hstart.trans_le (Nat.le_add_right _ _)
  simp only [if_pos hunderscore] at h
  cases h

/-- What is found between the underscores of a filename, up to its extension. -/
theorem splitFilename_eq {name version browser tail rest filename : QString}
    (htext : filename = name ++ underscore :: (version ++ (tail ++ period :: rest)))
    (htail : tail = [] ∧ browser = [] ∨ browser ≠ [] ∧ tail = underscore :: browser)
    (hslash : slash ∉ filename) (hname : underscore ∉ name) (hversion : underscore ∉ version) :
    splitFilename (period :: rest) filename = .ok (name, version, browser) := by
  have hsuffix : (period :: rest).isSuffixOf filename = true := by
    rw [List.isSuffixOf_iff_suffix, htext]
    exact ⟨name ++ underscore :: (version ++ tail), by simp⟩
  have hmax : filename.length - (period :: rest).length =
      name.length + 1 + version.length + tail.length := by
    rw [htext]
    simp only [List.length_append, List.length_cons]
    omega
  have hpre : (name ++ [underscore]).length = name.length + 1 := by simp
  have hfront : filename = [] ++ (name ++ underscore :: (version ++ (tail ++ period :: rest))) :=
    htext
  have hback : filename = (name ++ [underscore]) ++ (version ++ (tail ++ period :: rest)) := by
    rw [htext]
    simp
  have hp1 : indexFrom filename underscore 0 = name.length := by
    have := indexFrom_append [] (underscore :: (version ++ (tail ++ period :: rest))) hname
    rw [← hfront, indexOf_cons_self] at this
    simpa using this
  have hfound : indexFrom filename underscore (name.length + 1) =
      name.length + 1 + (version.length + indexOf (tail ++ period :: rest) underscore) := by
    have := indexFrom_append (name ++ [underscore]) (tail ++ period :: rest) hversion
    rwa [hpre, ← hback] at this
  have hmidName : mid filename 0 name.length = name := by
    have := mid_append [] name (underscore :: (version ++ (tail ++ period :: rest)))
    rw [← hfront] at this
    simpa using this
  have hmidVersion : mid filename (name.length + 1) (name.length + 1 + version.length) =
      version := by
    have := mid_append (name ++ [underscore]) version (tail ++ period :: rest)
    rwa [hpre, ← hback] at this
  rw [splitFilename, if_neg (by rw [hsuffix]; decide), hmax]
  simp only [basenamePos_of_notMem hslash, hp1, hfound]
  rw [if_neg (by omega)]
  rcases htail with ⟨rfl, rfl⟩ | ⟨hne, rfl⟩
  · have hperiod : 0 < indexOf ([] ++ period :: rest) underscore := by
      have := indexOf_append (w := [period]) (s := rest) (c := underscore) (by decide)
      rw [List.nil_append, ← List.singleton_append, this, List.length_singleton]
      omega
    generalize indexOf ([] ++ period :: rest) underscore = i at hperiod ⊢
    have hlast : name.length + 1 + version.length < name.length + 1 + (version.length + i) := by
      omega
    simp only [List.length_nil, Nat.add_zero]
    rw [if_neg (by omega), if_pos hlast, if_neg (lt_irrefl _), hmidName, hmidVersion]
  · have hlength : 0 < browser.length := List.length_pos_iff.mpr hne
    have hmidBrowser : mid filename (name.length + 1 + version.length + 1)
        (name.length + 1 + version.length + 1 + browser.length) = browser := by
      have := mid_append (name ++ underscore :: (version ++ [underscore])) browser
        (period :: rest)
      have htext' : filename = name ++ underscore :: (version ++ [underscore]) ++
          (browser ++ period :: rest) := by
        rw [htext]
        simp
      rw [← htext'] at this
      convert this using 2 <;> simp <;> omega
    have hlast : ¬ name.length + 1 + version.length + (underscore :: browser).length <
        name.length + 1 + version.length := by omega
    have hmore : name.length + 1 + version.length <
        name.length + 1 + version.length + (underscore :: browser).length := by
      rw [List.length_cons]
      omega
    have hmax' : name.length + 1 + version.length + (underscore :: browser).length =
        name.length + 1 + version.length + 1 + browser.length := by
      rw [List.length_cons]
      omega
    simp only [List.cons_append, indexOf_cons_self, Nat.add_zero, if_neg hlast, if_pos hmore]
    rw [if_neg (by omega), hmidName, hmidVersion, hmax', hmidBrowser]

end Splitting

section Reading

variable {o fresh : VersionedFilename} {c : Call} {extension filename browser : QString}
  {name : Name} {numbers : List UInt32} {rest : QString}

theorem Accepted.inj {name' : Name} {numbers' : List UInt32} {browser' : QString}
    (h : Accepted extension filename name numbers browser)
    (h' : Accepted extension filename name' numbers' browser') :
    name = name' ∧ numbers = numbers' ∧ browser = browser' := by
  obtain ⟨nameText, versionText, hsplit, hname, hversion⟩ := h.split
  obtain ⟨nameText', versionText', hsplit', hname', hversion'⟩ := h'.split
  rw [hsplit] at hsplit'
  obtain ⟨rfl, hrest⟩ := Prod.mk.inj (Except.ok.inj hsplit')
  obtain ⟨rfl, rfl⟩ := Prod.mk.inj hrest
  rw [hname] at hname'
  rw [hversion] at hversion'
  exact ⟨Except.ok.inj hname', Except.ok.inj hversion', rfl⟩

theorem Accepted.basic (h : Accepted extension filename name numbers browser) :
    IsBasic name.name := by
  obtain ⟨_, _, _, hname, _⟩ := h.split
  exact (validateName_iff.mp hname).1.2

theorem setFilename_of_accepted (h : Accepted o.fExtension filename name numbers browser) :
    o.setFilename filename = ({ o with
      fError := none
      fName := ⟨name.name, name.nameSpace, none⟩
      fVersion := ⟨numbers, none⟩
      fBrowser := if browser = [] then o.fBrowser.clear else ⟨browser, [], none⟩ }, true) := by
  rcases setFilename_cases o filename with ⟨e, _, hnone⟩ | ⟨name', numbers', browser', h', heq⟩
  · exact absurd h (hnone name numbers browser)
  · obtain ⟨rfl, rfl, rfl⟩ := h.inj h'
    exact heq

theorem small_of_validateVersion {v : List UInt32} (h : validateVersion (versionString
    ⟨numbers, .unordered⟩) = .ok v) : ∀ n ∈ numbers, IsSmall n := by
  intro n hn
  by_contra hlarge
  obtain ⟨ws, _, hnumber, htext, _⟩ := exists_written h
  have hchars := isVersionChar_join hnumber
  rw [← htext] at hchars
  obtain ⟨k, hk⟩ := number_of_large hlarge
  have hmem : dash ∈ versionString ⟨numbers, .unordered⟩ := by
    rw [versionString]
    refine Pieces.mem_intercalate_of_mem (List.mem_map_of_mem hn) ?_
    rw [hk]
    exact List.mem_cons_self
  exact absurd (hchars dash hmem) (by decide)

/-- The values of `get_name()`, `get_version()` and `get_browser()`. -/
def SameParts (o o' : VersionedFilename) : Prop :=
  o.fName.fName = o'.fName.fName ∧ o.fVersion.fVersion = o'.fVersion.fVersion ∧
    o.fBrowser.fName = o'.fBrowser.fName

/-- What a call has to do: one that succeeds leaves the object valid, one that fails leaves the
parts as they are, and the filename that was set is accepted again for the same parts. -/
structure Keeps (o : VersionedFilename) (c : Call) : Prop where
  valid : (o.call c).2 = true → (o.call c).1.isValid = true
  unchanged : (o.call c).2 = false → (o.call c).1.fName = o.fName ∧
    (o.call c).1.fVersion = o.fVersion ∧ (o.call c).1.fBrowser = o.fBrowser
  reread : ∀ filename fresh, c = .setFilename filename → (o.call c).2 = true →
    new o.fExtension = some fresh →
      ∃ again, fresh.setFilename ((o.call c).1.getFilename true) = (again, true) ∧
        SameParts again (o.call c).1

/-- The numbers of the version of a filename fit in an `int`; a version is set on a valid object
or is refused. -/
def Calm (o : VersionedFilename) : Call → Prop
  | .setFilename filename => ∀ name numbers browser,
      Accepted o.fExtension filename name numbers browser → ∀ n ∈ numbers, IsSmall n
  | .setName _ => True
  | .setVersion s => (∃ numbers, validateVersion s = .ok numbers) → o.isValid = true

theorem slash_notMem_version (v : Version) : slash ∉ versionString v := fun hmem =>
  absurd (isVersionText_version v slash hmem) (by decide)

theorem underscore_notMem_version (v : Version) : underscore ∉ versionString v := fun hmem =>
  absurd (isVersionText_version v underscore hmem) (by decide)

theorem Accepted.splitFilename_getFilename (h : Accepted extension filename name numbers browser)
    (hextension : extension = period :: rest)
    (ho : o.isValid = true) (hoExtension : o.fExtension = extension)
    (hname : o.fName.fName = name.name) (hversion : o.fVersion.fVersion = numbers)
    (hbrowser : o.fBrowser.fName = browser) :
    splitFilename extension (o.getFilename true) =
      .ok (name.name, versionString ⟨numbers, .unordered⟩, browser) := by
  have hslash : slash ∉ extension := by
    obtain ⟨_, _, hsplit, _⟩ := h.split
    exact slash_notMem_of_split hsplit
  have hbrowserSlash : slash ∉ browser := by
    rcases h.browser with rfl | hbasic
    · exact List.not_mem_nil
    · exact hbasic.notMem (by decide)
  have htext : o.getFilename true = name.name ++ underscore ::
      (versionString ⟨numbers, .unordered⟩ ++
        ((if browser = [] then [] else underscore :: browser) ++ period :: rest)) := by
    rw [getFilename, if_neg (by rw [ho]; decide), VersionObject.getVersionString, hname, hversion,
      hbrowser, if_pos rfl, hoExtension, hextension]
    simp
  rw [hextension]
  refine splitFilename_eq htext ?_ ?_ (h.basic.notMem (by decide)) (underscore_notMem_version _)
  · by_cases hempty : browser = []
    · exact Or.inl ⟨if_pos hempty, hempty⟩
    · exact Or.inr ⟨hempty, if_neg hempty⟩
  · rw [htext, ← hextension]
    simp only [List.mem_append, List.mem_cons, not_or]
    refine ⟨h.basic.notMem (by decide), by decide, slash_notMem_version _, ?_, hslash⟩
    split_ifs
    · exact List.not_mem_nil
    · simp only [List.mem_cons, not_or]
      exact ⟨by decide, hbrowserSlash⟩

/-- A filename that was set is read back if and only if its numbers fit in an `int`. -/
theorem Accepted.reread_iff (h : Accepted extension filename name numbers browser)
    (hextension : extension = period :: rest)
    (ho : o.isValid = true) (hoExtension : o.fExtension = extension)
    (hname : o.fName.fName = name.name) (hversion : o.fVersion.fVersion = numbers)
    (hbrowser : o.fBrowser.fName = browser) (hfresh : fresh.fExtension = extension) :
    (∃ again, fresh.setFilename (o.getFilename true) = (again, true) ∧ SameParts again o) ↔
      ∀ n ∈ numbers, IsSmall n := by
  have hsplit := h.splitFilename_getFilename hextension ho hoExtension hname hversion hbrowser
  constructor
  · rintro ⟨again, heq, _⟩
    rcases setFilename_cases fresh (o.getFilename true) with
      ⟨e, heq', _⟩ | ⟨name', numbers', browser', h', _⟩
    · rw [heq'] at heq
      cases (Prod.mk.inj heq).2
    · obtain ⟨_, _, hsplit', _, hversion'⟩ := h'.split
      rw [hfresh, hsplit] at hsplit'
      obtain ⟨_, hrest⟩ := Prod.mk.inj (Except.ok.inj hsplit')
      rw [← (Prod.mk.inj hrest).1] at hversion'
      exact small_of_validateVersion hversion'
  · intro hsmall
    obtain ⟨_, _, _, _, hread⟩ := h.split
    obtain ⟨hne, hcanonical, _⟩ := validateVersion_spec hread
    have haccepted : Accepted fresh.fExtension (o.getFilename true) ⟨[], name.name⟩ numbers
        browser := by
      refine ⟨⟨_, _, hfresh ▸ hsplit, validateName_of_basic h.basic, ?_⟩, h.browser⟩
      exact validateVersion_versionString hne hcanonical hsmall .unordered
    refine ⟨_, setFilename_of_accepted haccepted, hname.symm, hversion.symm, ?_⟩
    rw [hbrowser]
    by_cases hempty : browser = []
    · rw [if_pos hempty, hempty]
      rfl
    · rw [if_neg hempty]

theorem exists_extension {e : QString} (h : new e = some o) :
    ∃ rest, o.fExtension = period :: rest := by
  unfold new at h
  split at h
  · cases h
  · obtain rfl := Option.some.inj h
    rename_i c rest
    by_cases hc : c = period
    · exact ⟨rest, by rw [if_neg (not_not.mpr hc), hc]⟩
    · exact ⟨c :: rest, if_pos hc⟩

/-- One call does what it has to if and only if it meets the condition. -/
theorem PartsValid.extension_iff (h : o.PartsValid) (hextension : o.fExtension = period :: rest)
    (c : Call) : o.Keeps c ↔ o.Calm c := by
  have hparts := (h.call c).1
  cases c with
  | setFilename filename =>
    rcases setFilename_cases o filename with ⟨e, heq, hnone⟩ | ⟨name, numbers, browser, ha, heq⟩
    · refine iff_of_true ⟨fun htrue => ?_, fun _ => ?_, fun _ _ _ htrue => ?_⟩
        fun name numbers browser ha => absurd ha (hnone name numbers browser)
      · rw [VersionedFilename.call, heq] at htrue
        cases htrue
      · rw [VersionedFilename.call, heq]
        exact ⟨rfl, rfl, rfl⟩
      · rw [VersionedFilename.call, heq] at htrue
        cases htrue
    · have hvalid : (o.call (.setFilename filename)).1.isValid = true := by
        rw [hparts.isValid, VersionedFilename.call, heq]
        rfl
      have hsame : ∀ {name' numbers' browser'},
          Accepted o.fExtension filename name' numbers' browser' → numbers' = numbers :=
        fun ha' => (ha'.inj ha).2.1
      have hbrowser : (o.call (.setFilename filename)).1.fBrowser.fName = browser := by
        rw [VersionedFilename.call, heq]
        show (if browser = [] then o.fBrowser.clear else ⟨browser, [], none⟩).fName = browser
        split_ifs with hempty
        · exact hempty.symm
        · rfl
      have hreread : ∀ fresh : VersionedFilename, fresh.fExtension = o.fExtension →
          ((∃ again, fresh.setFilename ((o.call (.setFilename filename)).1.getFilename true) =
            (again, true) ∧ SameParts again (o.call (.setFilename filename)).1) ↔
              ∀ n ∈ numbers, IsSmall n) := by
        intro fresh hfresh
        refine ha.reread_iff hextension hvalid (h.call _).2 ?_ ?_ hbrowser hfresh
        · rw [VersionedFilename.call, heq]
        · rw [VersionedFilename.call, heq]
      have hnew : new o.fExtension = some { fExtension := o.fExtension } := by
        rw [hextension]
        rfl
      constructor
      · intro hkeeps name' numbers' browser' ha'
        rw [hsame ha']
        refine (hreread { fExtension := o.fExtension } rfl).mp
          (hkeeps.reread filename _ rfl ?_ hnew)
        rw [VersionedFilename.call, heq]
      · intro hcalm
        refine ⟨fun _ => hvalid, fun hfalse => ?_, fun _ fresh _ _ hfresh => ?_⟩
        · rw [VersionedFilename.call, heq] at hfalse
          cases hfalse
        · rw [hnew] at hfresh
          obtain rfl := Option.some.inj hfresh
          exact (hreread { fExtension := o.fExtension } rfl).mpr (hcalm name numbers browser ha)
  | setName name =>
    refine iff_of_true ⟨fun htrue => ?_, fun hfalse => ?_, fun _ _ hcall => by cases hcall⟩ trivial
    · rw [hparts.isValid]
      rcases setName_cases o name with ⟨e, _, heq⟩ | ⟨n, _, heq⟩
      · rw [VersionedFilename.call, heq] at htrue
        cases htrue
      · rw [VersionedFilename.call, heq]
        rfl
    · rcases setName_cases o name with ⟨e, _, heq⟩ | ⟨n, _, heq⟩
      · rw [VersionedFilename.call, heq]
        exact ⟨rfl, rfl, rfl⟩
      · rw [VersionedFilename.call, heq] at hfalse
        cases hfalse
  | setVersion s =>
    rcases setVersion_cases o s with ⟨e, herror, heq⟩ | ⟨numbers, hok, heq⟩
    · refine iff_of_true ⟨fun htrue => ?_, fun _ => ?_, fun _ _ hcall => by cases hcall⟩
        fun haccepted => ?_
      · rw [VersionedFilename.call, heq] at htrue
        cases htrue
      · rw [VersionedFilename.call, heq]
        exact ⟨rfl, rfl, rfl⟩
      · obtain ⟨numbers, hok⟩ := haccepted
        rw [herror] at hok
        cases hok
    · have hvalid : (o.call (.setVersion s)).1.isValid = o.isValid := by
        rw [hparts.isValid, h.isValid, VersionedFilename.call, heq]
      constructor
      · intro hkeeps _
        rw [← hvalid]
        refine hkeeps.valid ?_
        rw [VersionedFilename.call, heq]
      · intro hcalm
        refine ⟨fun _ => hvalid.trans (hcalm ⟨numbers, hok⟩), fun hfalse => ?_,
          fun _ _ hcall => by cases hcall⟩
        rw [VersionedFilename.call, heq] at hfalse
        cases hfalse

/-- Every call of a run does what it has to if and only if every call meets the condition. -/
theorem keeps_iff {e : QString} (hnew : new e = some o) (calls : List Call) :
    (∀ front c back, calls = front ++ c :: back → (o.after front).Keeps c) ↔
      ∀ front c back, calls = front ++ c :: back → (o.after front).Calm c := by
  obtain ⟨rest, hextension⟩ := exists_extension hnew
  have hstep : ∀ front c, (o.after front).Keeps c ↔ (o.after front).Calm c := fun front c => by
    obtain ⟨hparts, hsame⟩ := (partsValid_new hnew).1.after front
    exact hparts.extension_iff (hsame.trans hextension) c
  exact forall_congr' fun front => forall_congr' fun c => forall_congr' fun back =>
    imp_congr_right fun _ => hstep front c

theorem keeps_iff_editor :
    (∀ front c back, [.setFilename (ascii "editor_1.2.js"), .setName (ascii "!"),
        .setName (ascii "core"), .setVersion (ascii "2")] = front ++ c :: back →
          (javascript.after front).Keeps c) ↔
      ∀ front c back, [.setFilename (ascii "editor_1.2.js"), .setName (ascii "!"),
        .setName (ascii "core"), .setVersion (ascii "2")] = front ++ c :: back →
          (javascript.after front).Calm c :=
  keeps_iff (by decide : new (ascii ".js") = some javascript) _

/-- After a name was refused, a version is accepted and the object stays invalid. -/
theorem accepted_not_valid : ¬ ∀ (e : QString) (o : VersionedFilename), new e = some o →
    ∀ (calls front : List Call) (c : Call) (back : List Call), calls = front ++ c :: back →
      (o.after front).Keeps c := by
  intro h
  have hkeeps := h _ javascript (by decide : new (ascii ".js") = some javascript) _
    [.setFilename (ascii "editor_1.2.js"), .setName (ascii "!")] (.setVersion (ascii "2")) [] rfl
  have hvalid := hkeeps.valid (by decide)
  revert hvalid
  decide

end Reading

end SnapCpp.SnapVersion.VersionedFilename
