import SnapCpp.LinkTables

/-!
Tables in which every link has its two sides. A cell is the side of one end of a link towards
the other; the tables are two-way when each cell is matched by one on the other page and the
links table has the entries of the links that are not unique and no other. Adding the two sides
of a link to such tables, or taking the two sides of a link away, leaves them two-way.
-/
namespace SnapCpp

open QString LinkInfo
open CassValue (fromUtf8Array)
open PlaceMarkers (Unmarked)

namespace LinkInfo

variable {uniqueOf : QString → Bool} {s s' : LinkInfo}

/-- An end as the functions are given it: defined, with a verified name that is always used with
the same unique flag, and without a place marker in the key of the page, which comes back from
UTF-8 in the columns of the links table. -/
structure Given (uniqueOf : QString → Bool) (i : LinkInfo) : Prop where
  defined : i.isDefined = true
  verified : Verified i.name
  unmarked : Unmarked 4 i.key
  readable : fromUtf8Array (Utf.toUtf8 i.keyWithBranch) = i.keyWithBranch
  consistent : i.unique = uniqueOf i.name

instance (uniqueOf : QString → Bool) (i : LinkInfo) : Decidable (i.Given uniqueOf) :=
  decidable_of_iff (i.isDefined = true ∧ Verified i.name ∧ Unmarked 4 i.key ∧
      fromUtf8Array (Utf.toUtf8 i.keyWithBranch) = i.keyWithBranch ∧ i.unique = uniqueOf i.name)
    ⟨fun h => ⟨h.1, h.2.1, h.2.2.1, h.2.2.2.1, h.2.2.2.2⟩,
      fun h => ⟨h.defined, h.verified, h.unmarked, h.readable, h.consistent⟩⟩

theorem Given.rowKey_inj (hs : s.Given uniqueOf) (hs' : s'.Given uniqueOf)
    (h : s.rowKey = s'.rowKey) : s.key = s'.key ∧ s.branch = s'.branch :=
  LinkInfo.rowKey_inj (hs.unmarked.mono (by decide)) (hs'.unmarked.mono (by decide)) h

theorem Given.eq (hs : s.Given uniqueOf) (hs' : s'.Given uniqueOf) (hrow : s.rowKey = s'.rowKey)
    (hname : s.name = s'.name) : s = s' := by
  obtain ⟨hkey, hbranch⟩ := hs.rowKey_inj hs' hrow
  have hunique : s.unique = s'.unique := by rw [hs.consistent, hs'.consistent, hname]
  cases s
  cases s'
  simp_all

theorem Given.eq_of_linkKey (hs : s.Given uniqueOf) (hs' : s'.Given uniqueOf)
    (h : s.linkKey = s'.linkKey) : s = s' := by
  obtain ⟨hrow, hname⟩ := linkKey_inj (hs.unmarked.mono (by decide)) (hs'.unmarked.mono (by decide))
    hs.verified hs'.verified h
  exact hs.eq hs' hrow hname

def Apart (s d : LinkInfo) : Prop := ¬ (s.key = d.key ∧ s.name = d.name)

instance (s d : LinkInfo) : Decidable (Apart s d) := by
  unfold Apart
  infer_instance

theorem Apart.symm (h : Apart s s') : Apart s' s := fun hsame => h ⟨hsame.1.symm, hsame.2.symm⟩

theorem Apart.ne (h : Apart s s') : s ≠ s' := by
  rintro rfl
  exact h ⟨rfl, rfl⟩

end LinkInfo

namespace LinkTables

variable {uniqueOf : QString → Bool} {t : LinkTables} {s d s' d' : LinkInfo}
  {column column' value row : QString}

/-- A column for `s` towards `d`. -/
def Named (s d : LinkInfo) (column : QString) : Prop :=
  if s.unique then column = s.cellName d else ∃ number, column = s.cellNameNumber d number

/-- The cell of that column links `s` to `d`. -/
structure IsCell (t : LinkTables) (s d : LinkInfo) (column : QString) : Prop where
  named : Named s d column
  holds : t.branch.value s.rowKey column = some d.data

structure TwoWay (uniqueOf : QString → Bool) (t : LinkTables) : Prop where
  cells : ∀ row column value, t.branch.value row column = some value →
    ∃ s d, s.Given uniqueOf ∧ d.Given uniqueOf ∧ row = s.rowKey ∧ value = d.data ∧
      IsCell t s d column
  matched : ∀ s d column, s.Given uniqueOf → d.Given uniqueOf → IsCell t s d column →
    ∃ column', IsCell t d s column'
  indexed : ∀ s d column, s.Given uniqueOf → d.Given uniqueOf → IsCell t s d column →
    s.unique = false → t.links.value s.linkKey d.keyWithBranch = some column
  entries : ∀ row column value, t.links.value row column = some value →
    ∃ s d, s.Given uniqueOf ∧ d.Given uniqueOf ∧ s.unique = false ∧ row = s.linkKey ∧
      column = d.keyWithBranch ∧ IsCell t s d value

theorem name_of_named (hs : s.Given uniqueOf) (hs' : s'.Given uniqueOf) (h : Named s d column)
    (h' : Named s' d' column) : s.name = s'.name := by
  unfold Named at h h'
  split_ifs at h h' with hu hu' hu'
  · exact (cellName_inj (h.symm.trans h')).1
  · obtain ⟨number, h'⟩ := h'
    exact absurd (h.symm.trans h') (cellName_ne_cellNameNumber hs.verified)
  · obtain ⟨number, h⟩ := h
    exact absurd (h'.symm.trans h) (cellName_ne_cellNameNumber hs'.verified)
  · obtain ⟨number, h⟩ := h
    obtain ⟨number', h'⟩ := h'
    exact (cellNameNumber_inj hs.verified hs'.verified (h.symm.trans h')).1

theorem IsCell.ends_eq (hs : s.Given uniqueOf) (hs' : s'.Given uniqueOf) (hd : d.Given uniqueOf)
    (hd' : d'.Given uniqueOf) (hrow : s.rowKey = s'.rowKey) (h : IsCell t s d column)
    (h' : IsCell t s' d' column) : s = s' ∧ d = d' := by
  have hdata := h.holds
  rw [hrow, h'.holds] at hdata
  exact ⟨hs.eq hs' hrow (name_of_named hs hs' h.named h'.named),
    data_inj hd.unmarked hd'.unmarked hd.verified hd'.verified (Option.some.inj hdata).symm⟩

/-- A link has one cell on each side. -/
theorem TwoWay.column_eq (h : TwoWay uniqueOf t) (hs : s.Given uniqueOf) (hd : d.Given uniqueOf)
    (hcell : IsCell t s d column) (hcell' : IsCell t s d column') : column = column' := by
  cases hu : s.unique with
  | true =>
    have hname := hcell.named
    have hname' := hcell'.named
    rw [Named, if_pos hu] at hname hname'
    rw [hname, hname']
  | false =>
    have hindex := h.indexed s d column hs hd hcell hu
    rw [h.indexed s d column' hs hd hcell' hu] at hindex
    exact (Option.some.inj hindex).symm

section Sides

/-- The side of a link towards `d`, with its entry in the links table. -/
def putSide (t : LinkTables) (s d : LinkInfo) (column : QString) : LinkTables :=
  if s.unique then t.setBranch s.rowKey column d.data
  else (t.setBranch s.rowKey column d.data).setLinks s.linkKey d.keyWithBranch column

def removeSide (t : LinkTables) (s d : LinkInfo) (column : QString) : LinkTables :=
  if s.unique then t.dropBranch s.rowKey column
  else (t.dropBranch s.rowKey column).dropLinks s.linkKey d.keyWithBranch

variable (t s d column) (r c : QString)

@[simp] theorem branch_putSide : (t.putSide s d column).branch.value r c =
    if r = s.rowKey ∧ c = column then some d.data else t.branch.value r c := by
  unfold putSide
  split_ifs <;> simp_all

@[simp] theorem links_putSide : (t.putSide s d column).links.value r c =
    if s.unique = false ∧ r = s.linkKey ∧ c = d.keyWithBranch then some column
    else t.links.value r c := by
  unfold putSide
  cases s.unique <;> simp

@[simp] theorem branch_removeSide : (t.removeSide s d column).branch.value r c =
    if r = s.rowKey ∧ c = column then none else t.branch.value r c := by
  unfold removeSide
  split_ifs <;> simp_all

@[simp] theorem links_removeSide : (t.removeSide s d column).links.value r c =
    if s.unique = false ∧ r = s.linkKey ∧ c = d.keyWithBranch then none
    else t.links.value r c := by
  unfold removeSide
  cases s.unique <;> simp

end Sides

section Links

/-- Where the side of `s` towards `d` may be written: its cell is free or is that very side, and
so is its entry in the links table. -/
structure Fits (t : LinkTables) (s d : LinkInfo) (column : QString) : Prop where
  named : Named s d column
  free : t.branch.value s.rowKey column = none ∨ t.branch.value s.rowKey column = some d.data
  index : s.unique = false → t.links.value s.linkKey d.keyWithBranch = none ∨
    t.links.value s.linkKey d.keyWithBranch = some column

def putLink (t : LinkTables) (s d : LinkInfo) (column column' : QString) : LinkTables :=
  (t.putSide s d column).putSide d s column'

def removeLink (t : LinkTables) (s d : LinkInfo) (column column' : QString) : LinkTables :=
  (t.removeSide s d column).removeSide d s column'

theorem sides_apart (hs : s.Given uniqueOf) (hd : d.Given uniqueOf) (hapart : Apart s d)
    (h : Named s d column) (h' : Named d s column') :
    ¬ (s.rowKey = d.rowKey ∧ column = column') := by
  rintro ⟨hrow, rfl⟩
  exact hapart ⟨(hs.rowKey_inj hd hrow).1, name_of_named hs hd h h'⟩

variable (hs : s.Given uniqueOf) (hd : d.Given uniqueOf) (hapart : Apart s d)

include hs hd hapart

theorem isCell_putLink (hfits : Fits t s d column) (hfits' : Fits t d s column')
    {e f : LinkInfo} {c : QString} (he : e.Given uniqueOf) (hf : f.Given uniqueOf) :
    IsCell (t.putLink s d column column') e f c ↔
      e = s ∧ f = d ∧ c = column ∨ e = d ∧ f = s ∧ c = column' ∨ IsCell t e f c := by
  have hsides := sides_apart hs hd hapart hfits.named hfits'.named
  constructor
  · rintro ⟨hnamed, hholds⟩
    rw [putLink, branch_putSide, branch_putSide] at hholds
    split_ifs at hholds with hdst hsrc
    · obtain ⟨hrow, rfl⟩ := hdst
      have hend := he.eq hd hrow (name_of_named he hd hnamed hfits'.named)
      have hother :=
        data_inj hs.unmarked hf.unmarked hs.verified hf.verified (Option.some.inj hholds)
      exact Or.inr (Or.inl ⟨hend, hother.symm, rfl⟩)
    · obtain ⟨hrow, rfl⟩ := hsrc
      have hend := he.eq hs hrow (name_of_named he hs hnamed hfits.named)
      have hother :=
        data_inj hd.unmarked hf.unmarked hd.verified hf.verified (Option.some.inj hholds)
      exact Or.inl ⟨hend, hother.symm, rfl⟩
    · exact Or.inr (Or.inr ⟨hnamed, hholds⟩)
  · rintro (⟨rfl, rfl, rfl⟩ | ⟨rfl, rfl, rfl⟩ | hcell)
    · exact ⟨hfits.named, by simp [putLink, hsides]⟩
    · exact ⟨hfits'.named, by simp [putLink]⟩
    · refine ⟨hcell.named, ?_⟩
      rw [putLink, branch_putSide, branch_putSide]
      have hholds := hcell.holds
      -- a cell that was there is written over by itself only
      split_ifs with hdst hsrc
      · obtain ⟨hrow, rfl⟩ := hdst
        have hfree := hfits'.free
        rw [← hrow, hholds] at hfree
        simpa [eq_comm] using hfree
      · obtain ⟨hrow, rfl⟩ := hsrc
        have hfree := hfits.free
        rw [← hrow, hholds] at hfree
        simpa [eq_comm] using hfree
      · exact hholds

theorem TwoWay.putLink (h : TwoWay uniqueOf t) (hfits : Fits t s d column)
    (hfits' : Fits t d s column') : TwoWay uniqueOf (t.putLink s d column column') := by
  have hcells : ∀ {e f : LinkInfo} {c : QString}, e.Given uniqueOf → f.Given uniqueOf →
      (IsCell (t.putLink s d column column') e f c ↔
        e = s ∧ f = d ∧ c = column ∨ e = d ∧ f = s ∧ c = column' ∨ IsCell t e f c) :=
    fun he hf => isCell_putLink hs hd hapart hfits hfits' he hf
  have hsrc := (hcells hs hd).mpr (Or.inl ⟨rfl, rfl, rfl⟩)
  have hdst := (hcells hd hs).mpr (Or.inr (Or.inl ⟨rfl, rfl, rfl⟩))
  constructor
  case cells =>
    intro r c v hv
    rw [LinkTables.putLink, branch_putSide, branch_putSide] at hv
    split_ifs at hv with h₁ h₂
    · obtain ⟨rfl, rfl⟩ := h₁
      exact ⟨d, s, hd, hs, rfl, (Option.some.inj hv).symm, hdst⟩
    · obtain ⟨rfl, rfl⟩ := h₂
      exact ⟨s, d, hs, hd, rfl, (Option.some.inj hv).symm, hsrc⟩
    · obtain ⟨e, f, he, hf, hr, hdata, hcell⟩ := h.cells r c v hv
      exact ⟨e, f, he, hf, hr, hdata, (hcells he hf).mpr (Or.inr (Or.inr hcell))⟩
  case matched =>
    intro e f c he hf hcell
    rcases (hcells he hf).mp hcell with ⟨rfl, rfl, _⟩ | ⟨rfl, rfl, _⟩ | hold
    · exact ⟨column', hdst⟩
    · exact ⟨column, hsrc⟩
    · obtain ⟨c', hc'⟩ := h.matched e f c he hf hold
      exact ⟨c', (hcells hf he).mpr (Or.inr (Or.inr hc'))⟩
  case indexed =>
    intro e f c he hf hcell hu
    rw [LinkTables.putLink, links_putSide, links_putSide]
    rcases (hcells he hf).mp hcell with ⟨rfl, rfl, rfl⟩ | ⟨rfl, rfl, rfl⟩ | hold
    · have hother : e.linkKey ≠ f.linkKey := fun heq => hapart.ne (hs.eq_of_linkKey hd heq)
      simp [hu, hother]
    · simp [hu]
    · have hindex := h.indexed e f c he hf hold hu
      split_ifs with h₁ h₂
      · obtain rfl := he.eq_of_linkKey hd h₁.2.1
        have hfree := hfits'.index hu
        rw [← h₁.2.2, hindex] at hfree
        simpa [eq_comm] using hfree
      · obtain rfl := he.eq_of_linkKey hs h₂.2.1
        have hfree := hfits.index hu
        rw [← h₂.2.2, hindex] at hfree
        simpa [eq_comm] using hfree
      · exact hindex
  case entries =>
    intro r c v hv
    rw [LinkTables.putLink, links_putSide, links_putSide] at hv
    split_ifs at hv with h₁ h₂
    · obtain ⟨hu, rfl, rfl⟩ := h₁
      exact ⟨d, s, hd, hs, hu, rfl, rfl, Option.some.inj hv ▸ hdst⟩
    · obtain ⟨hu, rfl, rfl⟩ := h₂
      exact ⟨s, d, hs, hd, hu, rfl, rfl, Option.some.inj hv ▸ hsrc⟩
    · obtain ⟨e, f, he, hf, hu, hr, hc, hcell⟩ := h.entries r c v hv
      exact ⟨e, f, he, hf, hu, hr, hc, (hcells he hf).mpr (Or.inr (Or.inr hcell))⟩

omit hapart in
theorem isCell_removeLink (h : TwoWay uniqueOf t) (hcell : IsCell t s d column)
    (hcell' : IsCell t d s column') {e f : LinkInfo} {c : QString} (he : e.Given uniqueOf)
    (hf : f.Given uniqueOf) : IsCell (t.removeLink s d column column') e f c ↔
      IsCell t e f c ∧ ¬ (e = s ∧ f = d) ∧ ¬ (e = d ∧ f = s) := by
  have hvalue : (t.removeLink s d column column').branch.value e.rowKey c =
      if e.rowKey = d.rowKey ∧ c = column' then none
      else if e.rowKey = s.rowKey ∧ c = column then none else t.branch.value e.rowKey c := by
    rw [removeLink, branch_removeSide, branch_removeSide]
  constructor
  · rintro ⟨hnamed, hholds⟩
    rw [hvalue] at hholds
    split_ifs at hholds with h₁ h₂
    refine ⟨⟨hnamed, hholds⟩, ?_, ?_⟩
    · rintro ⟨rfl, rfl⟩
      exact h₂ ⟨rfl, h.column_eq hs hd ⟨hnamed, hholds⟩ hcell⟩
    · rintro ⟨rfl, rfl⟩
      exact h₁ ⟨rfl, h.column_eq hd hs ⟨hnamed, hholds⟩ hcell'⟩
  · rintro ⟨hold, hsrc, hdst⟩
    refine ⟨hold.named, ?_⟩
    rw [hvalue, if_neg, if_neg]
    · exact hold.holds
    · rintro ⟨hrow, rfl⟩
      exact hsrc (hold.ends_eq he hs hf hd hrow hcell)
    · rintro ⟨hrow, rfl⟩
      exact hdst (hold.ends_eq he hd hf hs hrow hcell')

omit hapart in
theorem TwoWay.removeLink (h : TwoWay uniqueOf t) (hlinked : IsCell t s d column)
    (hlinked' : IsCell t d s column') : TwoWay uniqueOf (t.removeLink s d column column') := by
  have hcells : ∀ {e f : LinkInfo} {c : QString}, e.Given uniqueOf → f.Given uniqueOf →
      (IsCell (t.removeLink s d column column') e f c ↔
        IsCell t e f c ∧ ¬ (e = s ∧ f = d) ∧ ¬ (e = d ∧ f = s)) :=
    fun he hf => isCell_removeLink hs hd h hlinked hlinked' he hf
  constructor
  case cells =>
    intro r c v hv
    have hstays := hv
    rw [LinkTables.removeLink, branch_removeSide, branch_removeSide] at hv
    split_ifs at hv
    obtain ⟨e, f, he, hf, rfl, rfl, hold⟩ := h.cells r c v hv
    exact ⟨e, f, he, hf, rfl, rfl, ⟨hold.named, hstays⟩⟩
  case matched =>
    intro e f c he hf hcell
    obtain ⟨hold, hsrc, hdst⟩ := (hcells he hf).mp hcell
    obtain ⟨c', hc'⟩ := h.matched e f c he hf hold
    refine ⟨c', (hcells hf he).mpr ⟨hc', ?_, ?_⟩⟩
    · exact fun hends => hdst hends.symm
    · exact fun hends => hsrc hends.symm
  case indexed =>
    intro e f c he hf hcell hu
    obtain ⟨hold, hsrc, hdst⟩ := (hcells he hf).mp hcell
    have hindex := h.indexed e f c he hf hold hu
    -- the entry is that of the other link only if the cell is
    have hentry : ∀ {s' d' : LinkInfo} {c' : QString}, s'.Given uniqueOf → d'.Given uniqueOf →
        IsCell t s' d' c' → e.linkKey = s'.linkKey → f.keyWithBranch = d'.keyWithBranch →
        e = s' ∧ f = d' := by
      intro s' d' c' hs' hd' hcell' hlink hkey
      obtain rfl := he.eq_of_linkKey hs' hlink
      rw [hkey, h.indexed e d' c' hs' hd' hcell' hu] at hindex
      obtain rfl := Option.some.inj hindex
      exact hold.ends_eq he hs' hf hd' rfl hcell'
    rw [LinkTables.removeLink, links_removeSide, links_removeSide, if_neg, if_neg]
    · exact hindex
    · rintro ⟨_, hlink, hkey⟩
      exact hsrc (hentry hs hd hlinked hlink hkey)
    · rintro ⟨_, hlink, hkey⟩
      exact hdst (hentry hd hs hlinked' hlink hkey)
  case entries =>
    intro r c v hv
    rw [LinkTables.removeLink, links_removeSide, links_removeSide] at hv
    split_ifs at hv with h₁ h₂
    obtain ⟨e, f, he, hf, hu, rfl, rfl, hold⟩ := h.entries r c v hv
    refine ⟨e, f, he, hf, hu, rfl, rfl, (hcells he hf).mpr ⟨hold, ?_, ?_⟩⟩
    · rintro ⟨rfl, rfl⟩
      exact h₂ ⟨hu, rfl, rfl⟩
    · rintro ⟨rfl, rfl⟩
      exact h₁ ⟨hu, rfl, rfl⟩

end Links

end LinkTables
end SnapCpp
