import SnapCpp.DependencyWritten

/-!
The dependency string that is written and what is read from it. What is lost on the way are the
namespaces of the browsers, which are not written, and the numbers of versions that are written
with a minus sign.
-/
namespace SnapCpp.SnapVersion

open QString QNumber
open Pieces (mapM_ok_iff exists_of_forall₂)

structure Accepted (d : QString) (o : Dependency) : Prop where
  order : ¬ (indexOf d openParen ≠ d.length ∧ indexOf d openBracket < indexOf d openParen)
  name : validateName (d.take (namePos d)) = .ok o.name
  parenthesis : hasVersions d = true → closeParen ∈ d.drop (versionsPos d + 1)
  versions : ∃ vss, (parts (versionList d)).mapM readVersionRange = .ok vss ∧
    o.versions = vss.flatten
  bracket : hasBrowsers d = true → closeBracket ∈ d
  browsers : (parts (browserList d)).mapM validateName = .ok o.browsers
  ended : endPos d = d.length

theorem setDependency_ok_iff {s : QString} {o : Dependency} :
    setDependency s = .ok o ↔ Accepted (simplified s) o := by
  unfold setDependency
  simp only [bind, Except.bind, throw, throwThe, MonadExceptOf.throw, pure, Except.pure]
  generalize simplified s = d
  constructor
  · intro h
    split at h
    · cases h
    rename_i horder
    split at h
    · cases h
    rename_i name hname
    split at h
    · cases h
    rename_i hparen
    split at h
    · cases h
    rename_i vss hvss
    split at h
    · cases h
    rename_i hbracket
    split at h
    · cases h
    rename_i browsers hbrowsers
    split at h
    · cases h
    rename_i hended
    obtain rfl := Except.ok.inj h
    exact ⟨horder, hname, fun hhas => by_contra fun hnot => hparen ⟨hhas, hnot⟩, ⟨vss, hvss, rfl⟩,
      fun hhas => by_contra fun hnot => hbracket ⟨hhas, hnot⟩, hbrowsers, not_not.mp hended⟩
  · intro h
    obtain ⟨vss, hvss, hversions⟩ := h.versions
    rw [if_neg h.order, h.name]
    simp only
    rw [if_neg (fun hand => hand.2 (h.parenthesis hand.1)), hvss]
    simp only
    rw [if_neg (fun hand => hand.2 (h.bracket hand.1)), h.browsers]
    simp only
    rw [if_neg (not_not.mpr h.ended), ← hversions]

structure Dependency.Valid (o : Dependency) : Prop where
  name : o.name.Valid
  versions : ∀ v ∈ o.versions, v.Valid
  browsers : ∀ b ∈ o.browsers, b.Valid

theorem Accepted.valid {d : QString} {o : Dependency} (h : Accepted d o) : o.Valid := by
  obtain ⟨vss, hvss, hversions⟩ := h.versions
  refine ⟨(validateName_iff.mp h.name).1, ?_, ?_⟩
  · intro v hv
    rw [hversions] at hv
    obtain ⟨vs, hvs, hv⟩ := List.mem_flatten.mp hv
    obtain ⟨p, _, hp⟩ := exists_of_forall₂ (mapM_ok_iff.mp hvss) hvs
    exact (readVersionRange_spec hp).1 v hv
  · intro b hb
    obtain ⟨p, _, hp⟩ := exists_of_forall₂ (mapM_ok_iff.mp h.browsers) hb
    exact (validateName_iff.mp hp).1

def isVisible (c : UInt16) : Bool := 33 ≤ c && c ≤ 126

variable {c : UInt16}

theorem not_space_of_visible (h : isVisible c = true) : isSpace c = false := by
  have hrange : c.toNat < 128 := by
    rw [isVisible, Bool.and_eq_true, decide_eq_true_eq, decide_eq_true_eq] at h
    exact (UInt16.le_iff_toNat_le.mp h.2).trans_lt (by decide)
  exact of_ascii (p := fun c => isVisible c = true → isSpace c = false) (by decide) hrange h

theorem visible_of_range {low high : UInt16} (h : (decide (low ≤ c) && decide (c ≤ high)) = true)
    (hlow : 33 ≤ low) (hhigh : high ≤ 126) : isVisible c = true := by
  simp only [isVisible, Bool.and_eq_true, decide_eq_true_eq] at h ⊢
  exact ⟨UInt16.le_trans hlow h.1, UInt16.le_trans h.2 hhigh⟩

theorem visible_of_versionText (h : isVersionText c = true) : isVisible c = true := by
  simp only [isVersionText, isVersionChar, Bool.or_eq_true, beq_iff_eq] at h
  rcases h with (((((h | rfl) | rfl) | rfl) | rfl) | rfl) | rfl
  · exact visible_of_range h (by decide) (by decide)
  all_goals decide

theorem isNeat_of_visible {w : QString} (hne : w ≠ []) (h : ∀ c ∈ w, isVisible c = true) :
    IsNeat w := .word hne fun c hc => not_space_of_visible (h c hc)

theorem Name.Valid.visible {n : Name} (h : n.Valid) : ∀ c ∈ fullName n, isVisible c = true := by
  intro c hc
  by_contra hnot
  refine h.notMem_fullName ?_ ?_ hc
  · rintro (rfl | hdigit | hletter)
    · exact hnot (by decide)
    · exact hnot (visible_of_range hdigit (by decide) (by decide))
    · exact hnot (visible_of_range hletter (by decide) (by decide))
  · rintro rfl
    exact hnot (by decide)

theorem Name.Valid.text {n : Name} (h : n.Valid) :
    IsNeat (fullName n) ∧ Plain (fullName n) ∧ comma ∉ fullName n ∧ space ∉ fullName n := by
  refine ⟨isNeat_of_visible h.fullName_ne_nil h.visible, ⟨?_, ?_, ?_, ?_⟩, ?_, ?_⟩
  all_goals exact h.notMem_fullName (by decide) (by decide)

theorem versionString_ne_nil {v : Version} (hv : v.Valid) : versionString v ≠ [] := by
  obtain ⟨n, rest, hnumbers⟩ := List.exists_cons_of_ne_nil hv.numbers_ne
  have hne : number (toInt n) ≠ [] := by
    cases toInt n <;> simp [number, decimal_ne_nil]
  rw [versionString, hnumbers]
  cases rest <;> simp [List.intercalate, hne]

/-- A version is an operator and numbers, without delimiters. -/
theorem Version.Valid.text {v : Version} (hv : v.Valid) :
    IsNeat (opversionString v) ∧ Plain (opversionString v) ∧ comma ∉ opversionString v := by
  refine ⟨?_, ⟨?_, ?_, ?_, ?_⟩, ?_⟩
  · have hop : operatorString v.operator ≠ [] := by
      have hordered := hv.ordered
      revert hordered
      cases v.operator <;> decide
    rw [opversionString_eq hv]
    exact .join
      (isNeat_of_visible hop fun c hc => visible_of_versionText (isVersionText_operator _ c hc))
      (isNeat_of_visible (versionString_ne_nil hv) fun c hc =>
        visible_of_versionText (isVersionText_version v c hc))
  all_goals exact notMem_opversion hv (by decide) (by decide)

def Name.bare (b : Name) : Name := ⟨[], b.name⟩

theorem Name.Valid.bare {b : Name} (h : b.Valid) : b.bare.Valid := ⟨Or.inl rfl, h.2⟩

theorem fullName_bare (b : Name) : fullName b.bare = b.name := rfl

theorem getDependencyString_eq (o : Dependency) : getDependencyString o =
    written (fullName o.name) (o.versions.map opversionString) (o.browsers.map Name.name) := by
  unfold getDependencyString written group
  simp only [List.map_eq_nil_iff]

section RoundTrip

variable {o : Dependency}

theorem Dependency.Valid.simplified_eq (h : o.Valid) :
    simplified (getDependencyString o) = getDependencyString o := by
  have hversions : ∀ t ∈ o.versions.map opversionString, IsNeat t := by
    rw [List.forall_mem_map]
    exact fun v hv => (h.versions v hv).text.1
  have hbrowsers : ∀ t ∈ o.browsers.map Name.name, IsNeat t := by
    rw [List.forall_mem_map]
    exact fun b hb => (h.browsers b hb).bare.text.1
  rw [getDependencyString_eq]
  refine simplified_of_neat (IsNeat.append_group ?_ (by decide) (by decide) hbrowsers)
  exact h.name.text.1.append_group (by decide) (by decide) hversions

/-- The browsers are read without their namespaces. -/
theorem mapM_browsers {browsers : List Name} (h : ∀ b ∈ browsers, b.Valid) :
    (browsers.map Name.name).mapM validateName = .ok (browsers.map Name.bare) := by
  rw [mapM_ok_iff, List.forall₂_map_left_iff, List.forall₂_map_right_iff, List.forall₂_same]
  intro b hb
  rw [validateName_iff]
  exact ⟨(h b hb).bare, (fullName_bare b).symm⟩

/-- What is read of the text that is written. -/
theorem accepted_getDependencyString (h : o.Valid) (r : Dependency) :
    setDependency (getDependencyString o) = .ok r ↔ r.name = o.name ∧
      (∃ vss, (o.versions.map opversionString).mapM readVersionRange = .ok vss ∧
        r.versions = vss.flatten) ∧ r.browsers = o.browsers.map Name.bare := by
  have hversions : ∀ t ∈ o.versions.map opversionString, IsNeat t ∧ Plain t ∧ comma ∉ t := by
    rw [List.forall_mem_map]
    exact fun v hv => (h.versions v hv).text
  have hbrowsers : ∀ t ∈ o.browsers.map Name.name, IsNeat t ∧ Plain t ∧ comma ∉ t := by
    rw [List.forall_mem_map]
    intro b hb
    obtain ⟨hneat, hplain, hcomma, _⟩ := (h.browsers b hb).bare.text
    exact ⟨hneat, hplain, hcomma⟩
  obtain ⟨_, hplain, _, hspace⟩ := h.name.text
  have hvt : ∀ t ∈ o.versions.map opversionString, Plain t := fun t ht => (hversions t ht).2.1
  have hbt : ∀ t ∈ o.browsers.map Name.name, Plain t := fun t ht => (hbrowsers t ht).2.1
  have hpos := namePos_written (v := o.versions.map opversionString)
    (b := o.browsers.map Name.name) hspace hplain
  have hname :
      (getDependencyString o).take (namePos (getDependencyString o)) = fullName o.name := by
    rw [getDependencyString_eq, hpos, written, List.append_assoc, List.take_left]
  obtain ⟨hlist, hparen, _⟩ := versions_written (b := o.browsers.map Name.name) hspace hplain hvt
  obtain ⟨hblist, hbracket, hended⟩ := browsers_written hspace hplain hvt hbt
  have horder := order_written hplain hbt (v := o.versions.map opversionString)
  rw [← getDependencyString_eq] at hlist hparen hblist hbracket hended horder
  have hvparts := parts_joinComma (fun t ht => ⟨(hversions t ht).1, (hversions t ht).2.2⟩)
  have hbparts := parts_joinComma (fun t ht => ⟨(hbrowsers t ht).1, (hbrowsers t ht).2.2⟩)
  rw [setDependency_ok_iff, h.simplified_eq]
  constructor
  · intro hr
    have hrname := hr.name
    have hrversions := hr.versions
    have hrbrowsers := hr.browsers
    rw [hname] at hrname
    rw [hlist, hvparts] at hrversions
    rw [hblist, hbparts, mapM_browsers h.browsers] at hrbrowsers
    rw [validateName_iff.mpr ⟨h.name, rfl⟩] at hrname
    exact ⟨(Except.ok.inj hrname).symm, hrversions, (Except.ok.inj hrbrowsers).symm⟩
  · rintro ⟨hrname, hrversions, hrbrowsers⟩
    refine ⟨horder, ?_, hparen, ?_, hbracket, ?_, hended⟩
    · rw [hname, hrname, validateName_iff]
      exact ⟨h.name, rfl⟩
    · rw [hlist, hvparts]
      exact hrversions
    · rw [hblist, hbparts, mapM_browsers h.browsers, hrbrowsers]

theorem mapM_versions {versions : List Version} (h : ∀ v ∈ versions, v.Valid) :
    (∃ vss, (versions.map opversionString).mapM readVersionRange = .ok vss ∧
      versions = vss.flatten) ↔ ∀ v ∈ versions, ∀ n ∈ v.numbers, IsSmall n := by
  constructor
  · rintro ⟨vss, hvss, -⟩ v hv
    by_contra hlarge
    obtain ⟨e, he⟩ := readVersionRange_large (h v hv) hlarge
    rw [mapM_ok_iff, List.forall₂_map_left_iff] at hvss
    obtain ⟨vs, _, hvs⟩ := exists_of_forall₂ hvss.flip hv
    rw [he] at hvs
    cases hvs
  · intro hsmall
    refine ⟨versions.map ([·]), ?_, ?_⟩
    · rw [mapM_ok_iff, List.forall₂_map_left_iff, List.forall₂_map_right_iff, List.forall₂_same]
      exact fun v hv => readVersionRange_small (h v hv) (hsmall v hv)
    · rw [← List.flatMap_def, List.flatMap_singleton']

/-- The text that is written is accepted, all the parts are read back, and it is written again. -/
def Dependency.Canonicalises (o : Dependency) : Prop :=
  ∃ r, setDependency (getDependencyString o) = .ok r ∧ r.name = o.name ∧
    r.versions = o.versions ∧ r.browsers = o.browsers ∧
    getDependencyString r = getDependencyString o

theorem canonicalises_iff_parts (h : o.Valid) : o.Canonicalises ↔
    (∀ v ∈ o.versions, ∀ n ∈ v.numbers, IsSmall n) ∧ ∀ b ∈ o.browsers, b.nameSpace = [] := by
  have hbare : o.browsers.map Name.bare = o.browsers ↔ ∀ b ∈ o.browsers, b.nameSpace = [] := by
    conv_lhs => rw [← List.map_id o.browsers, List.map_map, List.map_inj_left]
    refine forall₂_congr fun b _ => ?_
    obtain ⟨nameSpace, name⟩ := b
    simp [Name.bare, eq_comm]
  rw [← mapM_versions h.versions, ← hbare]
  constructor
  · rintro ⟨r, hr, hname, hversions, hbrowsers, -⟩
    obtain ⟨_, hvss, hrbrowsers⟩ := (accepted_getDependencyString h r).mp hr
    exact ⟨hversions ▸ hvss, hrbrowsers.symm.trans hbrowsers⟩
  · rintro ⟨hvss, hbrowsers⟩
    exact ⟨o, (accepted_getDependencyString h o).mpr ⟨rfl, hvss, hbrowsers.symm⟩, rfl, rfl, rfl,
      rfl⟩

/-- What a text has to be for its dependency to be written and read back: a number of a version
is below 2^31 in 32 bits, and a browser has no scope operator. -/
def Writable (s : QString) : Prop :=
  (∀ p ∈ parts (versionList (simplified s)), ∀ w ∈ runs (cString p), IsSmall (wrapped w)) ∧
    ∀ p ∈ parts (browserList (simplified s)), colon ∉ p

instance (s : QString) : Decidable (Writable s) := by
  unfold Writable
  infer_instance

theorem nameSpace_eq_nil_iff {b : Name} (h : b.Valid) : b.nameSpace = [] ↔ colon ∉ fullName b := by
  constructor
  · intro hempty
    rw [fullName, if_pos hempty]
    exact h.2.notMem (by decide)
  · intro hcolon
    by_contra hne
    rw [fullName, if_neg hne] at hcolon
    exact hcolon (by simp)

theorem forall_of_forall₂ {α β : Type} {R : α → β → Prop} {P : α → Prop} {Q : β → Prop}
    {l : List α} {r : List β} (h : List.Forall₂ R l r) (hR : ∀ a b, R a b → (P a ↔ Q b)) :
    (∀ a ∈ l, P a) ↔ ∀ b ∈ r, Q b := by
  induction h with
  | nil => simp
  | cons hab _ ih => rw [List.forall_mem_cons, List.forall_mem_cons, hR _ _ hab, ih]

/-- A dependency is written, read back and written again alike exactly when its text is
writable. -/
theorem canonicalises_iff {s : QString} {o : Dependency} (h : setDependency s = .ok o) :
    o.Canonicalises ↔ Writable s := by
  have hread := setDependency_ok_iff.mp h
  obtain ⟨vss, hvss, hversions⟩ := hread.versions
  have hsmall : (∀ p ∈ parts (versionList (simplified s)), ∀ w ∈ runs (cString p),
      IsSmall (wrapped w)) ↔ ∀ vs ∈ vss, ∀ v ∈ vs, ∀ n ∈ v.numbers, IsSmall n :=
    forall_of_forall₂ (mapM_ok_iff.mp hvss) fun p vs hp => (readVersionRange_spec hp).2.symm
  have hscope : (∀ p ∈ parts (browserList (simplified s)), colon ∉ p) ↔
      ∀ b ∈ o.browsers, b.nameSpace = [] := by
    refine forall_of_forall₂ (mapM_ok_iff.mp hread.browsers) fun p b hp => ?_
    obtain ⟨hb, rfl⟩ := validateName_iff.mp hp
    exact (nameSpace_eq_nil_iff hb).symm
  rw [canonicalises_iff_parts hread.valid, Writable, hsmall, hscope, hversions]
  simp only [List.mem_flatten]
  refine and_congr_left fun _ => ⟨fun hall vs hvs v hv => hall v ⟨vs, hvs, hv⟩, ?_⟩
  rintro hall v ⟨vs, hvs, hv⟩
  exact hall vs hvs v hv

theorem canonicalises_iff_jquery :
    ∃ o, setDependency (ascii "jquery (1.0.0, < 1.10) [ie,mozilla]") = .ok o ∧
      (o.Canonicalises ↔ Writable (ascii "jquery (1.0.0, < 1.10) [ie,mozilla]")) := by
  obtain ⟨o, ho⟩ : ∃ o, setDependency (ascii "jquery (1.0.0, < 1.10) [ie,mozilla]") = .ok o :=
    ⟨⟨⟨[], ascii "jquery"⟩, [⟨[1], .laterOrEqual⟩, ⟨[1, 10], .earlier⟩],
      [⟨[], ascii "ie"⟩, ⟨[], ascii "mozilla"⟩]⟩, by decide⟩
  exact ⟨o, ho, canonicalises_iff ho⟩

/-- The namespace of a browser is lost. -/
theorem browser_namespace_lost : ¬ ∀ s o, setDependency s = .ok o → o.Canonicalises := by
  intro hall
  have hread : setDependency (ascii "jquery [ms::ie]") =
      .ok ⟨⟨[], ascii "jquery"⟩, [], [⟨ascii "ms", ascii "ie"⟩]⟩ := by decide
  obtain ⟨r, hr, _, _, hbrowsers, _⟩ := hall _ _ hread
  have hagain : setDependency (getDependencyString
      ⟨⟨[], ascii "jquery"⟩, [], [⟨ascii "ms", ascii "ie"⟩]⟩) =
      .ok ⟨⟨[], ascii "jquery"⟩, [], [⟨[], ascii "ie"⟩]⟩ := by decide
  rw [hagain] at hr
  obtain rfl := Except.ok.inj hr
  exact absurd hbrowsers (by decide)

end RoundTrip

end SnapCpp.SnapVersion
