import SnapCpp.LinkPairs

/-!
What the functions do to two-way tables. A deletion takes links with both their sides away, one
after the other. A creation writes both sides of its link, but where a side has a cell of another
link in its place, the other side of that link is left behind: this is the case when a unique
name is linked again, and when the same two pages are linked under several names.
-/
namespace SnapCpp.LinkTables

open QString LinkInfo

variable {uniqueOf : QString → Bool} {t : LinkTables} {s d : LinkInfo} {column : QString}

structure World where
  tables : LinkTables
  issued : List QString

def World.empty : World := ⟨LinkTables.empty, []⟩

/-- What holds after every call that meets the condition. -/
structure Sound (uniqueOf : QString → Bool) (w : World) : Prop where
  twoWay : TwoWay uniqueOf w.tables
  apart : ∀ s d column, s.Given uniqueOf → d.Given uniqueOf → IsCell w.tables s d column →
    Apart s d
  issued : ∀ s d e number, s.Given uniqueOf → d.Given uniqueOf →
    IsCell w.tables s d (s.cellNameNumber e number) → number ∈ w.issued

theorem sound_empty (uniqueOf : QString → Bool) : Sound uniqueOf World.empty := by
  have hnone : ∀ s d column, ¬ IsCell World.empty.tables s d column := by
    rintro s d column ⟨_, hholds⟩
    cases hholds
  refine ⟨⟨?_, ?_, ?_, ?_⟩, ?_, ?_⟩
  · intro row column value h
    cases h
  · exact fun s d column _ _ h => absurd h (hnone s d column)
  · exact fun s d column _ _ h => absurd h (hnone s d column)
  · intro row column value h
    cases h
  · exact fun s d column _ _ h => absurd h (hnone s d column)
  · exact fun s d e number _ _ h => absurd h (hnone s d _)

/-- The column that is looked for on the side of `s`. -/
def columnOf (t : LinkTables) (s d : LinkInfo) : Option QString :=
  if s.unique then some (s.cellName d) else t.links.value s.linkKey d.keyWithBranch

/-- The place that `s` has for the page of `d` is free, or it is that of `d` already. -/
def Free (t : LinkTables) (s d : LinkInfo) : Prop :=
  ∀ column ∈ t.columnOf s d, t.branch.value s.rowKey column = none ∨
    t.branch.value s.rowKey column = some d.data

/-- The two ends are turned down by `links::create_link()`. -/
def Refused (src dst : LinkInfo) : Prop :=
  src.name = linkBack ∨ dst.name = linkBack ∨ ¬ Apart src dst

instance (t : LinkTables) (s d : LinkInfo) : Decidable (Free t s d) := by
  unfold Free
  infer_instance

instance (s d : LinkInfo) : Decidable (Refused s d) := by
  unfold Refused
  infer_instance

section Deletions

variable {w : World} {i : LinkInfo}

/-- One link of `i` is taken away. -/
def Unlink (uniqueOf : QString → Bool) (i : LinkInfo) (t t' : LinkTables) : Prop :=
  ∃ d column column', d.Given uniqueOf ∧ IsCell t i d column ∧ IsCell t d i column' ∧
    t' = t.removeLink i d column column'

theorem Sound.unlink {t' : LinkTables} (h : Sound uniqueOf w) (hi : i.Given uniqueOf)
    (hstep : Unlink uniqueOf i w.tables t') : Sound uniqueOf ⟨t', w.issued⟩ := by
  obtain ⟨d, c, c', hd, hcell, hcell', rfl⟩ := hstep
  have hold : ∀ {e f : LinkInfo} {k : QString}, e.Given uniqueOf → f.Given uniqueOf →
      IsCell (w.tables.removeLink i d c c') e f k → IsCell w.tables e f k := fun he hf h' =>
    ((isCell_removeLink hi hd h.twoWay hcell hcell' he hf).mp h').1
  exact ⟨h.twoWay.removeLink hi hd hcell hcell',
    fun e f k he hf h' => h.apart e f k he hf (hold he hf h'),
    fun e f g n he hf h' => h.issued e f g n he hf (hold he hf h')⟩

theorem TwoWay.unique_name_none (h : TwoWay uniqueOf t) (hd : d.Given uniqueOf)
    (hu : d.unique = false) : t.branch.value d.rowKey (d.cellName i) = none := by
  cases hv : t.branch.value d.rowKey (d.cellName i) with
  | none => rfl
  | some v =>
    exfalso
    obtain ⟨e, f, he, hf, hrow, _, hcell⟩ := h.cells _ _ _ hv
    have hname := hcell.named
    unfold Named at hname
    split_ifs at hname with hue
    · rw [hd.eq he hrow (cellName_inj hname).1, hue] at hu
      cases hu
    · obtain ⟨number, hnumber⟩ := hname
      exact cellName_ne_cellNameNumber hd.verified hnumber

/-- After the cell of a unique link, the loop takes the cell of the other page away. -/
theorem dropDestination_eq {column' : QString} (h : Sound uniqueOf w) (hi : i.Given uniqueOf)
    (hd : d.Given uniqueOf) (hu : i.unique = true) (hcell : IsCell w.tables i d column)
    (hcell' : IsCell w.tables d i column') :
    (w.tables.dropBranch i.rowKey column).dropDestination i d =
      (w.tables.removeLink i d column column', true) := by
  have hsides := sides_apart hi hd (h.apart i d column hi hd hcell) hcell.named hcell'.named
  have hother : (w.tables.dropBranch i.rowKey column).branch.value d.rowKey column' =
      some i.data := by
    rw [branch_dropBranch, if_neg, hcell'.holds]
    exact fun heq => hsides ⟨heq.1.symm, heq.2.symm⟩
  rw [dropDestination, if_neg (by rw [GroupedMap.hasGroup_of_value hother]; decide)]
  cases hud : d.unique with
  | true =>
    have hname := hcell'.named
    rw [Named, if_pos hud] at hname
    subst hname
    rw [if_pos (by rw [hother]; rfl)]
    simp [removeLink, removeSide, hu, hud]
  | false =>
    have hnone : (w.tables.dropBranch i.rowKey column).branch.value d.rowKey (d.cellName i) =
        none := by
      rw [branch_dropBranch, h.twoWay.unique_name_none hd hud, ite_self]
    have hindex := h.twoWay.indexed d i column' hd hi hcell' hud
    have hgroup : (w.tables.dropBranch i.rowKey column).links.hasGroup d.linkKey = true :=
      GroupedMap.hasGroup_of_value hindex
    rw [hnone, if_neg (by decide), if_neg (by rw [hgroup]; decide), links_dropBranch, hindex]
    simp only [branch_dropLinks, hother, Option.isSome_some, if_true]
    simp [removeLink, removeSide, hu, hud, dropBranch, dropLinks]

/-- The cells read for a unique name link it to other ends. -/
theorem TwoWay.isCell_of_predicate {value : QString} (h : TwoWay uniqueOf t)
    (hi : i.Given uniqueOf) (hread : t.branch.value i.rowKey column = some value)
    (hpredicate : i.cellPredicate column = true) :
    ∃ d, d.Given uniqueOf ∧ value = d.data ∧ IsCell t i d column := by
  obtain ⟨e, f, he, hf, hrow, hdata, hcell⟩ := h.cells _ _ _ hread
  have hname : i.name = e.name := by
    have hnamed := hcell.named
    unfold Named at hnamed
    split_ifs at hnamed
    · exact name_of_cellPredicate hi.verified he.verified (hnamed ▸ hpredicate)
    · obtain ⟨number, rfl⟩ := hnamed
      rw [not_cellPredicate_cellNameNumber hi.verified he.verified] at hpredicate
      cases hpredicate
  obtain rfl := hi.eq he hrow hname
  exact ⟨f, hf, hdata, hcell⟩

theorem deleteUnique_unlinks (h : Sound uniqueOf w) (hi : i.Given uniqueOf) (hu : i.unique = true)
    {cells : List (QString × QString)} (hnodup : (cells.map Prod.fst).Nodup)
    (hread : ∀ cell ∈ cells, w.tables.branch.value i.rowKey cell.1 = some cell.2 ∧
      i.cellPredicate cell.1 = true) :
    Relation.ReflTransGen (Unlink uniqueOf i) w.tables (deleteUnique i cells w.tables).tables := by
  induction cells generalizing w with
  | nil => exact Relation.ReflTransGen.refl
  | cons cell cells ih =>
    obtain ⟨column, value⟩ := cell
    obtain ⟨⟨hvalue, hpredicate⟩, hrest⟩ := List.forall_mem_cons.mp hread
    obtain ⟨d, hd, rfl, hcell⟩ := h.twoWay.isCell_of_predicate hi hvalue hpredicate
    unfold deleteUnique
    cases hdata : fromData d.data with
    | error e => exact Relation.ReflTransGen.refl
    | ok destination =>
      obtain rfl := eq_of_fromData hd.unmarked hd.verified hdata
      obtain ⟨column', hcell'⟩ := h.twoWay.matched i destination column hi hd hcell
      have hstep : Unlink uniqueOf i w.tables (w.tables.removeLink i destination column column') :=
        ⟨destination, column, column', hd, hcell, hcell', rfl⟩
      simp only [dropDestination_eq h hi hd hu hcell hcell']
      have hnodup := List.nodup_cons.mp hnodup
      refine Relation.ReflTransGen.head hstep
        (ih (h.unlink hi hstep) hnodup.2 (fun cell hmem => ?_))
      obtain ⟨hvalue₀, hpredicate₀⟩ := hrest cell hmem
      refine ⟨?_, hpredicate₀⟩
      rw [removeLink, branch_removeSide, branch_removeSide, if_neg, if_neg]
      · exact hvalue₀
      · rintro ⟨_, heq⟩
        have hcolumn := List.mem_map_of_mem (f := Prod.fst) hmem
        rw [heq] at hcolumn
        exact hnodup.1 hcolumn
      · -- the other side has another name
        rintro ⟨hrow, heq⟩
        obtain ⟨f, hf, _, hcell₀⟩ := h.twoWay.isCell_of_predicate hi hvalue₀ hpredicate₀
        have hname := name_of_named hi hd hcell₀.named (heq ▸ hcell'.named)
        exact h.apart i destination column hi hd hcell
          ⟨(hi.rowKey_inj hd hrow).1, hname⟩

/-- After the cell and the entry of one of many links, the loop takes the other page's away. -/
theorem dropOther_eq {column' : QString} (h : Sound uniqueOf w) (hi : i.Given uniqueOf)
    (hd : d.Given uniqueOf) (hu : i.unique = false) (hcell : IsCell w.tables i d column)
    (hcell' : IsCell w.tables d i column') :
    ((w.tables.dropBranch i.rowKey column).dropLinks i.linkKey d.keyWithBranch).dropOther i d =
      w.tables.removeLink i d column column' := by
  unfold dropOther
  cases hud : d.unique with
  | true =>
    have hname := hcell'.named
    rw [Named, if_pos hud] at hname
    simp [removeLink, removeSide, hu, hud, hname]
  | false =>
    have hlink : ¬ (d.linkKey = i.linkKey ∧ i.keyWithBranch = d.keyWithBranch) := fun heq =>
      (h.apart i d column hi hd hcell).ne (hi.eq_of_linkKey hd heq.1.symm)
    have hindex : ((w.tables.dropBranch i.rowKey column).dropLinks i.linkKey
        d.keyWithBranch).links.value d.linkKey i.keyWithBranch = some column' := by
      rw [links_dropLinks, if_neg hlink, links_dropBranch]
      exact h.twoWay.indexed d i column' hd hi hcell' hud
    rw [hindex]
    simp [removeLink, removeSide, hu, hud, dropBranch, dropLinks]

theorem deleteMany_unlinks (h : Sound uniqueOf w) (hi : i.Given uniqueOf) (hu : i.unique = false)
    {cells : List (QString × QString)} (hnodup : (cells.map Prod.fst).Nodup)
    (hread : ∀ cell ∈ cells, w.tables.links.value i.linkKey cell.1 = some cell.2) :
    Relation.ReflTransGen (Unlink uniqueOf i) w.tables (deleteMany i cells w.tables).tables := by
  induction cells generalizing w with
  | nil => exact Relation.ReflTransGen.refl
  | cons cell cells ih =>
    obtain ⟨key, field⟩ := cell
    obtain ⟨hvalue, hrest⟩ := List.forall_mem_cons.mp hread
    obtain ⟨e, d, he, hd, _, hlink, rfl, hcell⟩ := h.twoWay.entries _ _ _ hvalue
    obtain rfl := hi.eq_of_linkKey he hlink
    unfold deleteMany
    rw [hcell.holds, hd.readable]
    cases hdata : fromData d.data with
    | error e => simp [hdata, Relation.ReflTransGen.refl]
    | ok destination =>
      obtain rfl := eq_of_fromData hd.unmarked hd.verified hdata
      obtain ⟨column', hcell'⟩ := h.twoWay.matched i destination field hi hd hcell
      have hstep : Unlink uniqueOf i w.tables (w.tables.removeLink i destination field column') :=
        ⟨destination, field, column', hd, hcell, hcell', rfl⟩
      simp only [hdata, dropOther_eq h hi hd hu hcell hcell']
      have hnodup := List.nodup_cons.mp hnodup
      refine Relation.ReflTransGen.head hstep
        (ih (h.unlink hi hstep) hnodup.2 (fun cell hmem => ?_))
      rw [removeLink, links_removeSide, links_removeSide, if_neg, if_neg]
      · exact hrest cell hmem
      · rintro ⟨_, _, heq⟩
        have hkey := List.mem_map_of_mem (f := Prod.fst) hmem
        rw [heq] at hkey
        exact hnodup.1 hkey
      · rintro ⟨_, heq, _⟩
        exact (h.apart i destination field hi hd hcell).ne (hi.eq_of_linkKey hd heq)

theorem deleteLink_unlinks (h : Sound uniqueOf w) (hi : i.Given uniqueOf) :
    Relation.ReflTransGen (Unlink uniqueOf i) w.tables (w.tables.deleteLink i).tables := by
  unfold deleteLink
  split_ifs with hgroup hu
  · exact Relation.ReflTransGen.refl
  · refine deleteUnique_unlinks h hi hu ?_ (fun cell hmem => ?_)
    · exact (OrderedMap.keys_nodup _).sublist (List.filter_sublist.map Prod.fst)
    · obtain ⟨hmem, hpredicate⟩ := List.mem_filter.mp hmem
      exact ⟨(GroupedMap.mem_group_iff _ _ _ _).mp hmem, hpredicate⟩
  · exact deleteMany_unlinks h hi (Bool.eq_false_iff.mpr hu) (OrderedMap.keys_nodup _)
      (fun cell hmem => (GroupedMap.mem_group_iff _ _ _ _).mp hmem)

theorem Sound.unlinks {t' : LinkTables} (h : Sound uniqueOf w) (hi : i.Given uniqueOf)
    (hsteps : Relation.ReflTransGen (Unlink uniqueOf i) w.tables t') :
    Sound uniqueOf ⟨t', w.issued⟩ := by
  induction hsteps with
  | refl => exact h
  | tail _ hstep ih => exact ih.unlink hi hstep

end Deletions

section Creation

variable {w : World} {number : QString}

/-- The column the side of `s` gets: the one it has, or a new one. -/
def columnOrNew (t : LinkTables) (s d : LinkInfo) (number : QString) : QString :=
  (t.columnOf s d).getD (s.cellNameNumber d number)

def putEntry (t : LinkTables) (s d : LinkInfo) (column : QString) : LinkTables :=
  if s.unique then t else t.setLinks s.linkKey d.keyWithBranch column

theorem columnFor_eq (t : LinkTables) (s d : LinkInfo) (number : QString) :
    t.columnFor s d number =
      (t.putEntry s d (t.columnOrNew s d number), t.columnOrNew s d number) := by
  unfold columnFor putEntry columnOrNew columnOf
  split_ifs with hu
  · rfl
  · cases hv : t.links.value s.linkKey d.keyWithBranch with
    | none => rfl
    | some column =>
      have hsame : t.setLinks s.linkKey d.keyWithBranch column = t := by
        rw [setLinks, GroupedMap.assign_of_value hv]
      simp [hsame]

theorem columnOf_putEntry (hs : s.Given uniqueOf) (hd : d.Given uniqueOf) (hapart : Apart s d) :
    (t.putEntry s d column).columnOf d s = t.columnOf d s := by
  have hlink : d.linkKey ≠ s.linkKey := fun heq => hapart.ne (hs.eq_of_linkKey hd heq.symm)
  unfold putEntry columnOf
  split_ifs <;> simp [hlink]

/-- A creation writes both sides of the link. -/
theorem createLink_eq (t : LinkTables) (srcNumber dstNumber : QString) (hs : s.Given uniqueOf)
    (hd : d.Given uniqueOf) : (t.createLink s d srcNumber dstNumber).tables = t ∨
      ¬ Refused s d ∧ (t.createLink s d srcNumber dstNumber).tables =
        t.putLink s d (t.columnOrNew s d srcNumber) (t.columnOrNew d s dstNumber) := by
  unfold createLink
  split_ifs with hback hsame
  · exact Or.inl rfl
  · exact Or.inl rfl
  · have hprecise := not_or.mp hback
    refine Or.inr ⟨not_or.mpr ⟨hprecise.1, not_or.mpr ⟨hprecise.2, not_not.mpr hsame⟩⟩, ?_⟩
    have hother : (t.putEntry s d (t.columnOrNew s d srcNumber)).columnOrNew d s dstNumber =
        t.columnOrNew d s dstNumber := by
      rw [columnOrNew, columnOf_putEntry hs hd hsame, columnOrNew]
    simp only [columnFor_eq, hother]
    cases hus : s.unique <;> cases hud : d.unique <;>
      simp [putLink, putSide, putEntry, hus, hud, setBranch, setLinks]

theorem Sound.entry_of_free (h : Sound uniqueOf w) (hs : s.Given uniqueOf) (hd : d.Given uniqueOf)
    (hu : s.unique = false) (hfree : Free w.tables s d) {column : QString}
    (hentry : w.tables.links.value s.linkKey d.keyWithBranch = some column) :
    IsCell w.tables s d column := by
  have hcolumn : w.tables.columnOf s d = some column := by
    rw [columnOf, if_neg (by rw [hu]; decide)]
    exact hentry
  have hplace := hfree column hcolumn
  obtain ⟨e, f, he, hf, _, hlink, _, hcell⟩ := h.twoWay.entries _ _ _ hentry
  obtain rfl := hs.eq_of_linkKey he hlink
  rw [hcell.holds] at hplace
  have hdata : f.data = d.data := by simpa using hplace
  rw [← data_inj hf.unmarked hd.unmarked hf.verified hd.verified hdata]
  exact hcell

theorem Sound.fits (h : Sound uniqueOf w) (hs : s.Given uniqueOf) (hd : d.Given uniqueOf)
    (hfree : Free w.tables s d) (hnumber : number ∉ w.issued) :
    Fits w.tables s d (w.tables.columnOrNew s d number) := by
  cases hcolumn : w.tables.columnOf s d with
  | some column =>
    have hplace := hfree column hcolumn
    rw [columnOrNew, hcolumn, Option.getD_some]
    unfold columnOf at hcolumn
    split_ifs at hcolumn with hu
    · refine ⟨?_, hplace, fun hnot => ?_⟩
      · rw [Named, if_pos hu]
        exact (Option.some.inj hcolumn).symm
      · rw [hnot] at hu
        cases hu
    · have hcell := h.entry_of_free hs hd (Bool.eq_false_iff.mpr hu) hfree hcolumn
      exact ⟨hcell.named, hplace, fun _ => Or.inr hcolumn⟩
  | none =>
    rw [columnOrNew, hcolumn, Option.getD_none]
    unfold columnOf at hcolumn
    split_ifs at hcolumn with hu
    have hnamed : Named s d (s.cellNameNumber d number) := by
      rw [Named, if_neg hu]
      exact ⟨number, rfl⟩
    refine ⟨hnamed, Or.inl ?_, fun _ => Or.inl hcolumn⟩
    cases hv : w.tables.branch.value s.rowKey (s.cellNameNumber d number) with
    | none => rfl
    | some v =>
      exfalso
      obtain ⟨e, f, he, hf, hrow, _, hcell⟩ := h.twoWay.cells _ _ _ hv
      obtain rfl := hs.eq he hrow (name_of_named hs he hnamed hcell.named)
      exact hnumber (h.issued s f d number hs hf hcell)

theorem Sound.issued_of_columnOrNew {e : LinkInfo} {number' : QString} (h : Sound uniqueOf w)
    (hs : s.Given uniqueOf)
    (heq : w.tables.columnOrNew s d number = s.cellNameNumber e number') :
    number' = number ∨ number' ∈ w.issued := by
  cases hcolumn : w.tables.columnOf s d with
  | none =>
    rw [columnOrNew, hcolumn, Option.getD_none] at heq
    exact Or.inl (cellNameNumber_inj hs.verified hs.verified heq).2.symm
  | some column =>
    right
    rw [columnOrNew, hcolumn, Option.getD_some] at heq
    subst heq
    unfold columnOf at hcolumn
    split_ifs at hcolumn with hu
    · exact absurd (Option.some.inj hcolumn) (cellName_ne_cellNameNumber hs.verified)
    · obtain ⟨e', f, he, hf, _, hlink, _, hcell⟩ := h.twoWay.entries _ _ _ hcolumn
      obtain rfl := hs.eq_of_linkKey he hlink
      exact h.issued s f e number' hs hf hcell

end Creation

section Calls

def Call.numbers : Call → List QString
  | .createLink _ _ srcNumber dstNumber => [srcNumber, dstNumber]
  | _ => []

def Call.ends : Call → List LinkInfo
  | .createLink src dst _ _ => [src, dst]
  | .deleteLink info => [info]
  | .deleteThisLink source destination => [source, destination]

def World.step (w : World) (c : Call) : World :=
  ⟨(w.tables.call c).tables, c.numbers ++ w.issued⟩

structure Proper (uniqueOf : QString → Bool) (w : World) (c : Call) : Prop where
  given : ∀ i ∈ c.ends, i.Given uniqueOf
  fresh : ∀ number ∈ c.numbers, number ∉ w.issued
  distinct : c.numbers.Nodup

def Calm (t : LinkTables) : Call → Prop
  | .createLink src dst _ _ => ¬ Refused src dst → Free t src dst ∧ Free t dst src
  | .deleteLink _ => True
  | .deleteThisLink source destination =>
      source.unique = false → destination.unique = false →
        Free t source destination ∧ Free t destination source

instance (uniqueOf : QString → Bool) (w : World) (c : Call) : Decidable (Proper uniqueOf w c) :=
  decidable_of_iff ((∀ i ∈ c.ends, i.Given uniqueOf) ∧
      (∀ number ∈ c.numbers, number ∉ w.issued) ∧ c.numbers.Nodup)
    ⟨fun h => ⟨h.1, h.2.1, h.2.2⟩, fun h => ⟨h.given, h.fresh, h.distinct⟩⟩

instance (t : LinkTables) (c : Call) : Decidable (Calm t c) := by
  cases c <;> unfold Calm <;> infer_instance

variable {w : World}

theorem Sound.createLink {srcNumber dstNumber : QString} (h : Sound uniqueOf w)
    (hs : s.Given uniqueOf) (hd : d.Given uniqueOf)
    (hfree : ¬ Refused s d → Free w.tables s d ∧ Free w.tables d s)
    (hsrc : srcNumber ∉ w.issued) (hdst : dstNumber ∉ w.issued) :
    Sound uniqueOf ⟨(w.tables.createLink s d srcNumber dstNumber).tables,
      [srcNumber, dstNumber] ++ w.issued⟩ := by
  rcases createLink_eq w.tables srcNumber dstNumber hs hd with heq | ⟨hrefused, heq⟩
  · rw [heq]
    exact ⟨h.twoWay, h.apart, fun e f g n he hf hcell =>
      List.mem_append_right _ (h.issued e f g n he hf hcell)⟩
  rw [heq]
  have hapart : Apart s d := not_not.mp (not_or.mp (not_or.mp hrefused).2).2
  obtain ⟨hfree, hfree'⟩ := hfree hrefused
  have hfits := h.fits hs hd hfree hsrc
  have hfits' := h.fits hd hs hfree' hdst
  refine ⟨h.twoWay.putLink hs hd hapart hfits hfits', ?_, ?_⟩
  · intro e f c he hf hcell
    rcases (isCell_putLink hs hd hapart hfits hfits' he hf).mp hcell with
      ⟨rfl, rfl, _⟩ | ⟨rfl, rfl, _⟩ | hold
    · exact hapart
    · exact hapart.symm
    · exact h.apart e f c he hf hold
  · intro e f g n he hf hcell
    rcases (isCell_putLink hs hd hapart hfits hfits' he hf).mp hcell with
      ⟨rfl, rfl, hc⟩ | ⟨rfl, rfl, hc⟩ | hold
    · rcases h.issued_of_columnOrNew hs hc.symm with rfl | hissued
      · simp
      · simp [hissued]
    · rcases h.issued_of_columnOrNew hd hc.symm with rfl | hissued
      · simp
      · simp [hissued]
    · simp [h.issued e f g n he hf hold]

/-- Deleting one of many links takes it away, or does nothing. -/
theorem deleteThisLink_eq (h : Sound uniqueOf w) (hs : s.Given uniqueOf) (hd : d.Given uniqueOf)
    (hus : s.unique = false) (hud : d.unique = false) (hfree : Free w.tables s d)
    (hfree' : Free w.tables d s) : (w.tables.deleteThisLink s d).tables = w.tables ∨
      ∃ column column', IsCell w.tables s d column ∧ IsCell w.tables d s column' ∧
        (w.tables.deleteThisLink s d).tables = w.tables.removeLink s d column column' := by
  have hdelete : (w.tables.deleteThisLink s d).tables =
      (w.tables.dropSide s d).dropSide d s := by
    simp [deleteThisLink, hus, hud]
  rw [hdelete]
  cases hentry : w.tables.links.value s.linkKey d.keyWithBranch with
  | none =>
    have hnone : w.tables.links.value d.linkKey s.keyWithBranch = none := by
      cases hother : w.tables.links.value d.linkKey s.keyWithBranch with
      | none => rfl
      | some column' =>
        have hcell' := h.entry_of_free hd hs hud hfree' hother
        obtain ⟨column, hcell⟩ := h.twoWay.matched d s column' hd hs hcell'
        rw [h.twoWay.indexed s d column hs hd hcell hus] at hentry
        cases hentry
    left
    simp [dropSide, hentry, hnone]
  | some column =>
    have hcell := h.entry_of_free hs hd hus hfree hentry
    obtain ⟨column', hcell'⟩ := h.twoWay.matched s d column hs hd hcell
    have hlink : d.linkKey ≠ s.linkKey := fun heq =>
      (h.apart s d column hs hd hcell).ne (hs.eq_of_linkKey hd heq.symm)
    have hother := h.twoWay.indexed d s column' hd hs hcell' hud
    right
    refine ⟨column, column', hcell, hcell', ?_⟩
    simp only [dropSide, hentry, links_dropBranch, links_dropLinks, hlink, false_and, if_false,
      hother]
    simp [removeLink, removeSide, hus, hud, dropBranch, dropLinks]

theorem Sound.step {c : Call} (h : Sound uniqueOf w) (hproper : Proper uniqueOf w c)
    (hcalm : Calm w.tables c) : Sound uniqueOf (w.step c) := by
  have hgiven := hproper.given
  cases c with
  | createLink src dst srcNumber dstNumber =>
    obtain ⟨hs, hd, _⟩ := List.forall_mem_cons.mp hgiven |>.imp_right List.forall_mem_cons.mp
    have hfresh := hproper.fresh
    exact h.createLink hs hd hcalm (hfresh _ (by simp [Call.numbers]))
      (hfresh _ (by simp [Call.numbers]))
  | deleteLink info =>
    have hi := hgiven info (by simp [Call.ends])
    exact h.unlinks hi (deleteLink_unlinks h hi)
  | deleteThisLink source destination =>
    have hs := hgiven source (by simp [Call.ends])
    have hd := hgiven destination (by simp [Call.ends])
    cases hus : source.unique with
    | true =>
      have heq : w.tables.deleteThisLink source destination = w.tables.deleteLink source := by
        simp [deleteThisLink, hus]
      show Sound uniqueOf ⟨(w.tables.deleteThisLink source destination).tables, w.issued⟩
      rw [heq]
      exact h.unlinks hs (deleteLink_unlinks h hs)
    | false =>
      cases hud : destination.unique with
      | true =>
        have heq : w.tables.deleteThisLink source destination =
            w.tables.deleteLink destination := by
          simp [deleteThisLink, hus, hud]
        show Sound uniqueOf ⟨(w.tables.deleteThisLink source destination).tables, w.issued⟩
        rw [heq]
        exact h.unlinks hd (deleteLink_unlinks h hd)
      | false =>
        obtain ⟨hfree, hfree'⟩ := hcalm hus hud
        show Sound uniqueOf ⟨(w.tables.deleteThisLink source destination).tables, w.issued⟩
        rcases deleteThisLink_eq h hs hd hus hud hfree hfree' with heq | ⟨c, c', hc, hc', heq⟩
        · rw [heq]
          exact h
        · exact h.unlink hs ⟨destination, c, c', hd, hc, hc', heq⟩

def ProperStep (uniqueOf : QString → Bool) (w : World) (c : Call) (w' : World) : Prop :=
  Proper uniqueOf w c ∧ w' = w.step c

/-- A call that finds the places of its two sides free or their own. -/
def CalmStep (uniqueOf : QString → Bool) (w : World) (c : Call) (w' : World) : Prop :=
  (Proper uniqueOf w c ∧ Calm w.tables c) ∧ w' = w.step c

theorem sound_of_runs {calls : List Call}
    (h : Runs (CalmStep uniqueOf) World.empty calls w) : Sound uniqueOf w := by
  refine h.invariant _ (sound_empty uniqueOf) ?_
  rintro w c _ hw ⟨⟨hproper, hcalm⟩, rfl⟩
  exact hw.step hproper hcalm

/-- In every state that calls reach from the empty tables, the links are two-way, as long as no
call finds the place of a side taken by another link. -/
theorem twoWay_of_calm {calls : List Call}
    (h : Runs (CalmStep uniqueOf) World.empty calls w) : TwoWay uniqueOf w.tables :=
  (sound_of_runs h).twoWay

def parentUnique (name : QString) : Bool := name == ascii "content::parent"

def parentOf (key : String) : LinkInfo := ⟨true, ascii "content::parent", ascii key, 1⟩

def childrenOf (key : String) : LinkInfo := ⟨false, ascii "content::children", ascii key, 1⟩

def relinkCalls : List Call :=
  [.createLink (parentOf "x.org/a") (childrenOf "x.org/b") (ascii "server-1") (ascii "server-2"),
    .createLink (parentOf "x.org/a") (childrenOf "x.org/c") (ascii "server-3") (ascii "server-4")]

/-- The children of the first parent still have the page. -/
theorem relinked_one_way : ¬ ∀ (uniqueOf : QString → Bool) (calls : List Call) (w : World),
    Runs (ProperStep uniqueOf) World.empty calls w → TwoWay uniqueOf w.tables := by
  intro h
  have hrun := Runs.of_checked World.step (Proper parentUnique) World.empty relinkCalls
    (by decide +kernel)
  have htwoWay := h parentUnique relinkCalls _ hrun
  have hchild : IsCell (relinkCalls.foldl World.step World.empty).tables (childrenOf "x.org/b")
      (parentOf "x.org/a") (ascii "links::content::children-server-2#1") :=
    ⟨⟨ascii "server-2", by decide +kernel⟩, by decide +kernel⟩
  obtain ⟨column, hnamed, hholds⟩ := htwoWay.matched _ _ _ (by decide +kernel) (by decide +kernel)
    hchild
  obtain rfl : column = (parentOf "x.org/a").cellName (childrenOf "x.org/b") := hnamed
  exact absurd hholds (by decide +kernel)

/-- A page is linked to a parent, the link is deleted, and another parent is taken. -/
theorem twoWay_of_calm_moved : TwoWay parentUnique (([
    .createLink (parentOf "x.org/a") (childrenOf "x.org/b") (ascii "server-1") (ascii "server-2"),
    .deleteLink (parentOf "x.org/a"),
    .createLink (parentOf "x.org/a") (childrenOf "x.org/c") (ascii "server-3") (ascii "server-4")
    ] : List Call).foldl World.step World.empty).tables :=
  twoWay_of_calm (Runs.of_checked World.step
    (fun w c => Proper parentUnique w c ∧ Calm w.tables c) World.empty _ (by decide +kernel))

end Calls

end SnapCpp.LinkTables
