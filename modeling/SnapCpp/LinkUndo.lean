import SnapCpp.LinkData
import SnapCpp.LinkTwoWay

/-!
A deletion of one of many links undoes its creation. The columns of a new link have numbers that
no column or entry of the tables has, so what the creation writes was not there before, and the
deletion finds all of it again through the entries of the links table. The tables may hold
anything else: other code of the server writes the branch table too, but no number that was not
issued yet.
-/
namespace SnapCpp.LinkTables

open QString LinkInfo

variable {w w' : World} {t t' t₀ : LinkTables} {s d : LinkInfo} {column c₁ c₂ : QString}

def Numbered (number column : QString) : Prop :=
  ∃ s d : LinkInfo, Verified s.name ∧ column = s.cellNameNumber d number

structure Valid (w : World) (c : Call) : Prop where
  defined : ∀ i ∈ c.ends, i.isDefined = true
  verified : ∀ i ∈ c.ends, Verified i.name
  fresh : ∀ number ∈ c.numbers, number ∉ w.issued
  distinct : c.numbers.Nodup

/-- What the server can bring about with these functions and with other code. -/
inductive Reachable : World → Prop
  | empty : Reachable World.empty
  | call {w : World} {c : Call} : Reachable w → Valid w c → Reachable (w.step c)
  | issue {w : World} (number : QString) : Reachable w →
      Reachable ⟨w.tables, number :: w.issued⟩
  | setBranch {w : World} (row column value : QString) : Reachable w →
      (∀ number, Numbered number column → number ∈ w.issued) →
      Reachable ⟨w.tables.setBranch row column value, w.issued⟩
  | setLinks {w : World} (row column value : QString) : Reachable w →
      (∀ number, Numbered number value → number ∈ w.issued) →
      Reachable ⟨w.tables.setLinks row column value, w.issued⟩
  | dropBranch {w : World} (row column : QString) : Reachable w →
      Reachable ⟨w.tables.dropBranch row column, w.issued⟩
  | dropLinks {w : World} (row column : QString) : Reachable w →
      Reachable ⟨w.tables.dropLinks row column, w.issued⟩

structure Known (issued : List QString) (t : LinkTables) : Prop where
  columns : ∀ row column value, t.branch.value row column = some value →
    ∀ number, Numbered number column → number ∈ issued
  entries : ∀ row column value, t.links.value row column = some value →
    ∀ number, Numbered number value → number ∈ issued

section Numbers

variable {issued issued' : List QString} {number : QString}

theorem known_empty (issued : List QString) : Known issued LinkTables.empty where
  columns := fun _ _ _ h => by cases h
  entries := fun _ _ _ h => by cases h

theorem Known.mono (h : Known issued t) (hsub : ∀ number ∈ issued, number ∈ issued') :
    Known issued' t :=
  ⟨fun row column value hv number hn => hsub _ (h.columns row column value hv number hn),
    fun row column value hv number hn => hsub _ (h.entries row column value hv number hn)⟩

theorem Known.setBranch (h : Known issued t) (row value : QString)
    (hcolumn : ∀ number, Numbered number column → number ∈ issued) :
    Known issued (t.setBranch row column value) := by
  refine ⟨fun row' column' value' hv number hn => ?_, h.entries⟩
  rw [branch_setBranch] at hv
  split_ifs at hv with hplace
  · exact hcolumn number (hplace.2 ▸ hn)
  · exact h.columns _ _ _ hv number hn

theorem Known.setLinks (h : Known issued t) (row column : QString) {value : QString}
    (hvalue : ∀ number, Numbered number value → number ∈ issued) :
    Known issued (t.setLinks row column value) := by
  refine ⟨h.columns, fun row' column' value' hv number hn => ?_⟩
  rw [links_setLinks] at hv
  split_ifs at hv with hplace
  · exact hvalue number (Option.some.inj hv ▸ hn)
  · exact h.entries _ _ _ hv number hn

theorem Known.dropBranch (h : Known issued t) (row column : QString) :
    Known issued (t.dropBranch row column) := by
  refine ⟨fun row' column' value' hv number hn => ?_, h.entries⟩
  rw [branch_dropBranch] at hv
  split_ifs at hv with hplace
  exact h.columns _ _ _ hv number hn

theorem Known.dropLinks (h : Known issued t) (row column : QString) :
    Known issued (t.dropLinks row column) := by
  refine ⟨h.columns, fun row' column' value' hv number hn => ?_⟩
  rw [links_dropLinks] at hv
  split_ifs at hv with hplace
  exact h.entries _ _ _ hv number hn

theorem Known.dropDestination (h : Known issued t) (info destination : LinkInfo) :
    Known issued (t.dropDestination info destination).1 := by
  unfold LinkTables.dropDestination
  split_ifs with hrow hcell hlinks
  · exact h
  · exact h.dropBranch _ _
  · exact h
  · split
    · exact h
    · dsimp only
      split_ifs with hmulti
      · exact (h.dropLinks _ _).dropBranch _ _
      · exact h.dropLinks _ _

theorem Known.deleteUnique (info : LinkInfo) (cells : List (QString × QString))
    (h : Known issued t) : Known issued (deleteUnique info cells t).tables := by
  fun_induction LinkTables.deleteUnique info cells t with
  | case1 t => exact h
  | case2 column value cells t e => exact h
  | case3 column value cells t destination _ t' heq =>
    have hstep := (h.dropBranch info.rowKey column).dropDestination info destination
    rwa [heq] at hstep
  | case4 column value cells t destination _ t' heq ih =>
    have hstep := (h.dropBranch info.rowKey column).dropDestination info destination
    rw [heq] at hstep
    exact ih hstep

theorem Known.dropOther (h : Known issued t) (info destination : LinkInfo) :
    Known issued (t.dropOther info destination) := by
  unfold LinkTables.dropOther
  split_ifs with hunique
  · exact h.dropBranch _ _
  · split
    · exact h
    · exact (h.dropLinks _ _).dropBranch _ _

theorem Known.deleteMany (info : LinkInfo) (cells : List (QString × QString))
    (h : Known issued t) : Known issued (deleteMany info cells t).tables := by
  fun_induction LinkTables.deleteMany info cells t with
  | case1 t => exact h
  | case2 key fieldName cells t _ ih => exact ih h
  | case3 key fieldName cells t value _ e => exact h
  | case4 key fieldName cells t value _ destination _ t' ih =>
    exact ih (((h.dropBranch _ _).dropLinks _ _).dropOther info destination)

theorem Known.deleteLink (h : Known issued t) (info : LinkInfo) :
    Known issued (t.deleteLink info).tables := by
  unfold LinkTables.deleteLink
  split_ifs with hrow hunique
  · exact h
  · exact h.deleteUnique info _
  · exact h.deleteMany info _

theorem Known.dropSide (h : Known issued t) (source destination : LinkInfo) :
    Known issued (t.dropSide source destination) := by
  unfold LinkTables.dropSide
  split
  · exact h
  · exact (h.dropLinks _ _).dropBranch _ _

theorem Known.deleteThisLink (h : Known issued t) (source destination : LinkInfo) :
    Known issued (t.deleteThisLink source destination).tables := by
  unfold LinkTables.deleteThisLink
  split_ifs with hsource hdestination
  · exact h.deleteLink source
  · exact h.deleteLink destination
  · exact (h.dropSide _ _).dropSide _ _

theorem eq_of_numbered {number' : QString} (hs : Verified s.name)
    (h : Numbered number (s.cellNameNumber d number')) : number = number' := by
  obtain ⟨e, f, he, heq⟩ := h
  exact (cellNameNumber_inj hs he heq).2.symm

theorem not_numbered_cellName (hs : Verified s.name) :
    ¬ Numbered number (s.cellName d) := fun ⟨_, _, _, heq⟩ =>
  cellName_ne_cellNameNumber hs heq

/-- The column of one side, and the tables with its entry, have the new number only. -/
theorem Known.columnFor (h : Known issued t) (hs : Verified s.name) (hnumber : number ∈ issued) :
    Known issued (t.columnFor s d number).1 ∧
      ∀ n, Numbered n (t.columnFor s d number).2 → n ∈ issued := by
  have hnew (n : QString) (hn : Numbered n (s.cellNameNumber d number)) : n ∈ issued :=
    eq_of_numbered hs hn ▸ hnumber
  unfold LinkTables.columnFor
  split_ifs with hunique
  · exact ⟨h, fun n hn => absurd hn (not_numbered_cellName hs)⟩
  · split
    · exact ⟨h.setLinks _ _ hnew, hnew⟩
    · rename_i value hvalue
      exact ⟨h, h.entries _ _ _ hvalue⟩

theorem Known.createLink (h : Known issued t) (hs : Verified s.name) (hd : Verified d.name)
    {srcNumber dstNumber : QString} (hsrc : srcNumber ∈ issued) (hdst : dstNumber ∈ issued) :
    Known issued (t.createLink s d srcNumber dstNumber).tables := by
  unfold LinkTables.createLink
  split_ifs with hback hsame
  · exact h
  · exact h
  · obtain ⟨hsource, hcolumn⟩ := h.columnFor (d := d) hs hsrc
    obtain ⟨hdestination, hcolumn'⟩ := hsource.columnFor (d := s) hd hdst
    exact (hdestination.setBranch _ _ hcolumn).setBranch _ _ hcolumn'

theorem Reachable.known (h : Reachable w) : Known w.issued w.tables := by
  induction h with
  | empty => exact known_empty _
  | @call w c _ hvalid ih =>
    cases c with
    | createLink src dst srcNumber dstNumber =>
      refine (ih.mono fun n hn => List.mem_append_right _ hn).createLink
        (hvalid.verified src (by simp [Call.ends])) (hvalid.verified dst (by simp [Call.ends]))
        ?_ ?_ <;> simp [Call.numbers]
    | deleteLink info => exact ih.deleteLink info
    | deleteThisLink source destination => exact ih.deleteThisLink source destination
  | issue number _ ih => exact ih.mono fun n hn => List.mem_cons_of_mem _ hn
  | setBranch row column value _ hcolumn ih => exact ih.setBranch row value hcolumn
  | setLinks row column value _ hvalue ih => exact ih.setLinks row column hvalue
  | dropBranch row column _ ih => exact ih.dropBranch row column
  | dropLinks row column _ ih => exact ih.dropLinks row column

end Numbers

/-- The tables `t₀` with the entries of a link and something in its two columns, all of which were
free. -/
structure Linked (t₀ : LinkTables) (s d : LinkInfo) (c₁ c₂ : QString) (t : LinkTables) : Prop where
  source : t.links.value s.linkKey d.keyWithBranch = some c₁
  destination : t.links.value d.linkKey s.keyWithBranch = some c₂
  noSource : t₀.links.value s.linkKey d.keyWithBranch = none
  noDestination : t₀.links.value d.linkKey s.keyWithBranch = none
  freeSource : t₀.branch.value s.rowKey c₁ = none
  freeDestination : t₀.branch.value d.rowKey c₂ = none
  links : ∀ row column, ¬ (row = s.linkKey ∧ column = d.keyWithBranch) →
    ¬ (row = d.linkKey ∧ column = s.keyWithBranch) →
    t.links.value row column = t₀.links.value row column
  branch : ∀ row column, ¬ (row = s.rowKey ∧ column = c₁) → ¬ (row = d.rowKey ∧ column = c₂) →
    t.branch.value row column = t₀.branch.value row column

theorem ext_tables (hbranch : ∀ row column, t.branch.value row column = t'.branch.value row column)
    (hlinks : ∀ row column, t.links.value row column = t'.links.value row column) : t = t' := by
  cases t
  cases t'
  rw [mk.injEq]
  exact ⟨GroupedMap.ext_value hbranch, GroupedMap.ext_value hlinks⟩

theorem Linked.symm (h : Linked t₀ s d c₁ c₂ t) : Linked t₀ d s c₂ c₁ t where
  source := h.destination
  destination := h.source
  noSource := h.noDestination
  noDestination := h.noSource
  freeSource := h.freeDestination
  freeDestination := h.freeSource
  links := fun row column hd hs => h.links row column hs hd
  branch := fun row column hd hs => h.branch row column hs hd

theorem columnFor_of_entry {number : QString} (hunique : s.unique = false)
    (h : t.links.value s.linkKey d.keyWithBranch = some column) :
    t.columnFor s d number = (t, column) := by
  rw [columnFor, hunique, if_neg Bool.false_ne_true, h]

theorem columnFor_new {number : QString} (hunique : s.unique = false)
    (h : t.links.value s.linkKey d.keyWithBranch = none) :
    t.columnFor s d number =
      (t.setLinks s.linkKey d.keyWithBranch (s.cellNameNumber d number),
        s.cellNameNumber d number) := by
  rw [columnFor, hunique, if_neg Bool.false_ne_true, h]

theorem createLink_cases (t : LinkTables) (s d : LinkInfo) (n m : QString) :
    (t.createLink s d n m).tables = t ∨ (t.createLink s d n m).tables =
      ((((t.columnFor s d n).1.columnFor d s m).1.setBranch s.rowKey (t.columnFor s d n).2
        d.data).setBranch d.rowKey ((t.columnFor s d n).1.columnFor d s m).2 s.data) := by
  unfold createLink
  split_ifs with hback hsame
  · exact Or.inl rfl
  · exact Or.inl rfl
  · exact Or.inr rfl

/-- A link that is created once more has its columns already. -/
theorem Linked.createLink (h : Linked t₀ s d c₁ c₂ t) (hs : s.unique = false)
    (hd : d.unique = false) (n m : QString) :
    Linked t₀ s d c₁ c₂ (t.createLink s d n m).tables := by
  rcases createLink_cases t s d n m with heq | heq
  · rwa [heq]
  · rw [heq, columnFor_of_entry hs h.source, columnFor_of_entry hd h.destination]
    refine ⟨h.source, h.destination, h.noSource, h.noDestination, h.freeSource, h.freeDestination,
      h.links, fun row column hnot hnot' => ?_⟩
    rw [branch_setBranch, if_neg hnot', branch_setBranch, if_neg hnot]
    exact h.branch row column hnot hnot'

/-- What a first creation writes was not there. -/
theorem linked_createLink {issued : List QString} {n m : QString} (hknown : Known issued t)
    (hs : s.unique = false) (hd : d.unique = false) (hverified : Verified s.name)
    (hverified' : Verified d.name) (hn : n ∉ issued) (hm : m ∉ issued)
    (hsource : t.links.value s.linkKey d.keyWithBranch = none)
    (hdestination : t.links.value d.linkKey s.keyWithBranch = none) :
    (t.createLink s d n m).tables = t ∨
      ∃ c₁ c₂, Linked t s d c₁ c₂ (t.createLink s d n m).tables := by
  have hfree {e f : LinkInfo} {number : QString} (he : Verified e.name) (hnumber : number ∉ issued)
      (row : QString) : t.branch.value row (e.cellNameNumber f number) = none := by
    cases hv : t.branch.value row (e.cellNameNumber f number) with
    | none => rfl
    | some v => exact absurd (hknown.columns _ _ _ hv number ⟨e, f, he, rfl⟩) hnumber
  rcases createLink_cases t s d n m with heq | heq
  · exact Or.inl heq
  · right
    rw [heq, columnFor_new hs hsource]
    by_cases hsame : d.linkKey = s.linkKey ∧ s.keyWithBranch = d.keyWithBranch
    · -- both sides have one entry, so they share its column
      have hentry : (t.setLinks s.linkKey d.keyWithBranch (s.cellNameNumber d n)).links.value
          d.linkKey s.keyWithBranch = some (s.cellNameNumber d n) := by
        rw [links_setLinks, if_pos hsame]
      rw [columnFor_of_entry hd hentry]
      refine ⟨s.cellNameNumber d n, s.cellNameNumber d n, ?_, hentry, hsource, hdestination,
        hfree hverified hn _, hfree hverified hn _, fun row column hnot _ => ?_,
        fun row column hnot hnot' => ?_⟩
      · simp
      · simp [hnot]
      · rw [branch_setBranch, if_neg hnot', branch_setBranch, if_neg hnot]
        rfl
    · have hentry : (t.setLinks s.linkKey d.keyWithBranch (s.cellNameNumber d n)).links.value
          d.linkKey s.keyWithBranch = none := by
        rw [links_setLinks, if_neg hsame, hdestination]
      rw [columnFor_new hd hentry]
      refine ⟨s.cellNameNumber d n, d.cellNameNumber s m, ?_, ?_, hsource, hdestination,
        hfree hverified hn _, hfree hverified' hm _, fun row column hnot hnot' => ?_,
        fun row column hnot hnot' => ?_⟩
      · have hother : ¬ (s.linkKey = d.linkKey ∧ d.keyWithBranch = s.keyWithBranch) :=
          fun h => hsame ⟨h.1.symm, h.2.symm⟩
        simp [hother]
      · simp
      · simp [hnot, hnot']
      · rw [branch_setBranch, if_neg hnot', branch_setBranch, if_neg hnot]
        rfl

theorem dropSide_of_entry (h : t.links.value s.linkKey d.keyWithBranch = some column) :
    t.dropSide s d = (t.dropLinks s.linkKey d.keyWithBranch).dropBranch s.rowKey column := by
  rw [dropSide, h]

theorem dropSide_of_none (h : t.links.value s.linkKey d.keyWithBranch = none) :
    t.dropSide s d = t := by
  rw [dropSide, h]

theorem deleteThisLink_many (hs : s.unique = false) (hd : d.unique = false) :
    (t.deleteThisLink s d).tables = (t.dropSide s d).dropSide d s := by
  rw [deleteThisLink, hs, hd, if_neg Bool.false_ne_true, if_neg Bool.false_ne_true]

/-- Dropping both sides gives the tables from before the link. -/
theorem Linked.deleteThisLink (h : Linked t₀ s d c₁ c₂ t) (hs : s.unique = false)
    (hd : d.unique = false) : (t.deleteThisLink s d).tables = t₀ := by
  rw [deleteThisLink_many hs hd, dropSide_of_entry h.source]
  by_cases hsame : d.linkKey = s.linkKey ∧ s.keyWithBranch = d.keyWithBranch
  · have hrow : s.rowKey = d.rowKey := hsame.2
    have hcolumn : c₁ = c₂ := by
      have hsource := h.source
      rw [← hsame.1, ← hsame.2, h.destination] at hsource
      exact (Option.some.inj hsource).symm
    rw [dropSide_of_none (by simp [hsame.1, hsame.2])]
    refine ext_tables (fun row column => ?_) (fun row column => ?_)
    · rw [branch_dropBranch]
      split_ifs with hplace
      · rw [hplace.1, hplace.2, h.freeSource]
      · exact h.branch row column hplace (by rwa [← hrow, ← hcolumn])
    · rw [links_dropBranch, links_dropLinks]
      split_ifs with hplace
      · rw [hplace.1, hplace.2, h.noSource]
      · exact h.links row column hplace (by rwa [hsame.1, hsame.2])
  · have hentry : ((t.dropLinks s.linkKey d.keyWithBranch).dropBranch s.rowKey c₁).links.value
        d.linkKey s.keyWithBranch = some c₂ := by
      rw [links_dropBranch, links_dropLinks, if_neg hsame, h.destination]
    rw [dropSide_of_entry hentry]
    refine ext_tables (fun row column => ?_) (fun row column => ?_)
    · rw [branch_dropBranch]
      split_ifs with hplace'
      · rw [hplace'.1, hplace'.2, h.freeDestination]
      · rw [branch_dropLinks, branch_dropBranch]
        split_ifs with hplace
        · rw [hplace.1, hplace.2, h.freeSource]
        · exact h.branch row column hplace hplace'
    · rw [links_dropBranch, links_dropLinks]
      split_ifs with hplace'
      · rw [hplace'.1, hplace'.2, h.noDestination]
      · rw [links_dropBranch, links_dropLinks]
        split_ifs with hplace
        · rw [hplace.1, hplace.2, h.noSource]
        · exact h.links row column hplace hplace'

/-- A creation of the link between `s` and `d`, from either side. -/
inductive Between (s d : LinkInfo) : Call → Prop
  | forward (n m : QString) : Between s d (.createLink s d n m)
  | backward (n m : QString) : Between s d (.createLink d s n m)

theorem linked_of_run {labels : List Call} (hknown : Known w.issued w.tables)
    (hs : s.unique = false) (hd : d.unique = false)
    (hsource : w.tables.links.value s.linkKey d.keyWithBranch = none)
    (hdestination : w.tables.links.value d.linkKey s.keyWithBranch = none)
    (hrun : Runs (fun a c b => Between s d c ∧ Valid a c ∧ b = a.step c) w labels w') :
    (w'.tables = w.tables ∧ ∀ number ∈ w.issued, number ∈ w'.issued) ∨
      ∃ c₁ c₂, Linked w.tables s d c₁ c₂ w'.tables := by
  refine Runs.invariant (fun a => (a.tables = w.tables ∧ ∀ number ∈ w.issued, number ∈ a.issued) ∨
    ∃ c₁ c₂, Linked w.tables s d c₁ c₂ a.tables) hrun (Or.inl ⟨rfl, fun _ hn => hn⟩) ?_
  rintro a c b ha ⟨hbetween, hvalid, rfl⟩
  have hfresh (number : QString) (hn : number ∈ c.numbers)
      (hsub : ∀ number ∈ w.issued, number ∈ a.issued) : number ∉ w.issued :=
    fun hmem => hvalid.fresh number hn (hsub number hmem)
  have hissued (hsub : ∀ number ∈ w.issued, number ∈ a.issued) :
      ∀ number ∈ w.issued, number ∈ (a.step c).issued :=
    fun number hn => List.mem_append_right _ (hsub number hn)
  cases hbetween with
  | forward n m =>
    have hname : Verified s.name := hvalid.verified s (by simp [Call.ends])
    have hname' : Verified d.name := hvalid.verified d (by simp [Call.ends])
    rcases ha with ⟨heq, hsub⟩ | ⟨c₁, c₂, hlinked⟩
    · have hfirst := linked_createLink hknown hs hd hname hname'
        (hfresh n (List.mem_cons_self ..) hsub) (hfresh m (by simp [Call.numbers]) hsub) hsource
        hdestination
      rw [← heq] at hfirst ⊢
      exact hfirst.imp (fun h => ⟨h, hissued hsub⟩) id
    · exact Or.inr ⟨c₁, c₂, hlinked.createLink hs hd n m⟩
  | backward n m =>
    have hname : Verified s.name := hvalid.verified s (by simp [Call.ends])
    have hname' : Verified d.name := hvalid.verified d (by simp [Call.ends])
    rcases ha with ⟨heq, hsub⟩ | ⟨c₁, c₂, hlinked⟩
    · have hfirst := linked_createLink hknown hd hs hname' hname
        (hfresh n (List.mem_cons_self ..) hsub) (hfresh m (by simp [Call.numbers]) hsub)
        hdestination hsource
      rw [← heq] at hfirst ⊢
      refine hfirst.imp (fun h => ⟨h, hissued hsub⟩) ?_
      rintro ⟨c₂, c₁, hlinked⟩
      exact ⟨c₁, c₂, hlinked.symm⟩
    · exact Or.inr ⟨c₁, c₂, (hlinked.symm.createLink hd hs n m).symm⟩

/-- A deletion undoes the creations of one of many links. -/
theorem deleteThisLink_createLink {labels : List Call} (h : Reachable w)
    (hs : s.unique = false) (hd : d.unique = false)
    (hsource : w.tables.links.value s.linkKey d.keyWithBranch = none)
    (hdestination : w.tables.links.value d.linkKey s.keyWithBranch = none)
    (hrun : Runs (fun a c b => Between s d c ∧ Valid a c ∧ b = a.step c) w labels w') :
    (w'.tables.deleteThisLink s d).tables = w.tables := by
  rcases linked_of_run h.known hs hd hsource hdestination hrun with ⟨heq, _⟩ | ⟨c₁, c₂, hlinked⟩
  · rw [heq, deleteThisLink_many hs hd, dropSide_of_none hsource, dropSide_of_none hdestination]
  · exact hlinked.deleteThisLink hs hd

theorem valid_createLink_tag {w : World} {key key' : String} {n m : QString}
    (hkey : ascii key ≠ []) (hkey' : ascii key' ≠ []) (hn : n ∉ w.issued) (hm : m ∉ w.issued)
    (hne : n ≠ m) : Valid w (.createLink (tagOfPage key) (tagOfPage key') n m) where
  defined := by
    have hdefined (key : String) (h : ascii key ≠ []) : (tagOfPage key).isDefined = true := by
      have hname : ascii "content::tag" ≠ [] := by decide
      simp [isDefined, tagOfPage, h, hname, SPECIAL_VERSION_INVALID, SPECIAL_VERSION_UNDEFINED,
        SPECIAL_VERSION_EXTENDED]
    simp [Call.ends, hdefined key hkey, hdefined key' hkey']
  verified := by simp [Call.ends, verified_tagOfPage]
  fresh := by simp [Call.numbers, hn, hm]
  distinct := by simp [Call.numbers, hne]

def linked : World :=
  World.empty.step (.createLink (tagOfPage "a") (tagOfPage "c") (ascii "1") (ascii "2"))

/-- A page with a tag is tagged with a second one, which is asked for from both sides. -/
def tagged : World :=
  (linked.step (.createLink (tagOfPage "a") (tagOfPage "b") (ascii "3") (ascii "4"))).step
    (.createLink (tagOfPage "b") (tagOfPage "a") (ascii "5") (ascii "6"))

theorem deleteThisLink_createLink_tagged :
    (tagged.tables.deleteThisLink (tagOfPage "a") (tagOfPage "b")).tables = linked.tables :=
  have hlinked : Reachable linked := Reachable.call Reachable.empty
    (valid_createLink_tag (by decide) (by decide) (by decide) (by decide) (by decide))
  deleteThisLink_createLink hlinked rfl rfl (by decide) (by decide)
    (Runs.snoc (Runs.snoc (Runs.nil _) ⟨.forward _ _, valid_createLink_tag (by decide) (by decide)
      (by decide) (by decide) (by decide), rfl⟩) ⟨.backward _ _, valid_createLink_tag (by decide)
      (by decide) (by decide) (by decide) (by decide), rfl⟩)

end SnapCpp.LinkTables
