import SnapCpp.LinkTwoWay

/-!
What a deletion leaves alone. From two-way tables only cells of the links to delete are taken
out; every cell of another link keeps its value. A cell left behind by a link that was written
over is another matter: deleting it takes the cell that is now in the place of its other side.
-/
namespace SnapCpp.LinkTables

open QString LinkInfo

variable {uniqueOf : QString → Bool} {w : World} {t t' t'' : LinkTables} {s d i : LinkInfo}
  {belongs : LinkInfo → LinkInfo → Prop} {column : QString}

/-- The entry of the links table for `s` towards `d`. -/
structure IsEntry (t : LinkTables) (s d : LinkInfo) (row column : QString) : Prop where
  many : s.unique = false
  row_eq : row = s.linkKey
  column_eq : column = d.keyWithBranch
  named : ∃ cell, t.links.value row column = some cell ∧ IsCell t s d cell

/-- Between two states only cells of some of the links were taken out. -/
structure Removes (uniqueOf : QString → Bool) (belongs : LinkInfo → LinkInfo → Prop)
    (t t' : LinkTables) : Prop where
  branch : ∀ row column, t'.branch.value row column = t.branch.value row column ∨
    t'.branch.value row column = none ∧ ∃ s d, s.Given uniqueOf ∧ d.Given uniqueOf ∧
      belongs s d ∧ row = s.rowKey ∧ IsCell t s d column
  links : ∀ row column, t'.links.value row column = t.links.value row column ∨
    t'.links.value row column = none ∧ ∃ s d, s.Given uniqueOf ∧ d.Given uniqueOf ∧
      belongs s d ∧ IsEntry t s d row column

structure OnlyRemoves (uniqueOf : QString → Bool) (belongs : LinkInfo → LinkInfo → Prop)
    (t t' : LinkTables) : Prop extends Removes uniqueOf belongs t t' where
  others : ∀ s d column, s.Given uniqueOf → d.Given uniqueOf → ¬ belongs s d →
    IsCell t s d column → IsCell t' s d column ∧
      (s.unique = false → t'.links.value s.linkKey d.keyWithBranch = some column)

theorem Removes.refl (belongs : LinkInfo → LinkInfo → Prop) (t : LinkTables) :
    Removes uniqueOf belongs t t :=
  ⟨fun _ _ => Or.inl rfl, fun _ _ => Or.inl rfl⟩

theorem Removes.value_of_some {row value : QString} (h : Removes uniqueOf belongs t t')
    (hvalue : t'.branch.value row column = some value) :
    t.branch.value row column = some value := by
  rcases h.branch row column with heq | ⟨hnone, _⟩
  · rwa [← heq]
  · rw [hvalue] at hnone
    cases hnone

theorem Removes.isCell (h : Removes uniqueOf belongs t t')
    (hcell : IsCell t' s d column) : IsCell t s d column :=
  ⟨hcell.named, h.value_of_some hcell.holds⟩

theorem Removes.isEntry {row : QString} (h : Removes uniqueOf belongs t t')
    (hentry : IsEntry t' s d row column) : IsEntry t s d row column := by
  obtain ⟨cell, hvalue, hcell⟩ := hentry.named
  refine ⟨hentry.many, hentry.row_eq, hentry.column_eq, cell, ?_, h.isCell hcell⟩
  rcases h.links row column with heq | ⟨hnone, _⟩
  · rwa [← heq]
  · rw [hvalue] at hnone
    cases hnone

theorem Removes.trans (h : Removes uniqueOf belongs t t') (h' : Removes uniqueOf belongs t' t'') :
    Removes uniqueOf belongs t t'' := by
  constructor
  · intro row column
    rcases h'.branch row column with heq | ⟨hnone, s, d, hs, hd, hends, hrow, hcell⟩
    · rw [heq]
      exact h.branch row column
    · exact Or.inr ⟨hnone, s, d, hs, hd, hends, hrow, h.isCell hcell⟩
  · intro row column
    rcases h'.links row column with heq | ⟨hnone, s, d, hs, hd, hends, hentry⟩
    · rw [heq]
      exact h.links row column
    · exact Or.inr ⟨hnone, s, d, hs, hd, hends, h.isEntry hentry⟩

theorem removes_of_removeLink {c c' : QString} (h : TwoWay uniqueOf t) (hi : i.Given uniqueOf)
    (hd : d.Given uniqueOf) (hcell : IsCell t i d c) (hcell' : IsCell t d i c')
    (hsrc : belongs i d) (hdst : belongs d i) :
    Removes uniqueOf belongs t (t.removeLink i d c c') := by
  constructor
  · intro row column
    rw [removeLink, branch_removeSide, branch_removeSide]
    split_ifs with h₁ h₂
    · exact Or.inr ⟨rfl, d, i, hd, hi, hdst, h₁.1, h₁.2 ▸ hcell'⟩
    · exact Or.inr ⟨rfl, i, d, hi, hd, hsrc, h₂.1, h₂.2 ▸ hcell⟩
    · exact Or.inl rfl
  · intro row column
    rw [removeLink, links_removeSide, links_removeSide]
    split_ifs with h₁ h₂
    · obtain ⟨hu, rfl, rfl⟩ := h₁
      exact Or.inr ⟨rfl, d, i, hd, hi, hdst, hu, rfl, rfl, c',
        h.indexed d i c' hd hi hcell' hu, hcell'⟩
    · obtain ⟨hu, rfl, rfl⟩ := h₂
      exact Or.inr ⟨rfl, i, d, hi, hd, hsrc, hu, rfl, rfl, c,
        h.indexed i d c hi hd hcell hu, hcell⟩
    · exact Or.inl rfl

theorem Removes.onlyRemoves (h : TwoWay uniqueOf t)
    (hremoves : Removes uniqueOf belongs t t') : OnlyRemoves uniqueOf belongs t t' := by
  refine ⟨hremoves, fun s d column hs hd hother hcell => ⟨⟨hcell.named, ?_⟩, fun hu => ?_⟩⟩
  · rcases hremoves.branch s.rowKey column with heq | ⟨_, e, f, he, hf, hends, hrow, hcell₀⟩
    · rw [heq, hcell.holds]
    · obtain ⟨rfl, rfl⟩ := hcell.ends_eq hs he hd hf hrow hcell₀
      exact absurd hends hother
  · have hindex := h.indexed s d column hs hd hcell hu
    rcases hremoves.links s.linkKey d.keyWithBranch with
      heq | ⟨_, e, f, he, hf, hends, hentry⟩
    · rw [heq, hindex]
    · obtain ⟨cell, hvalue, hcell₀⟩ := hentry.named
      rw [hindex] at hvalue
      obtain rfl := Option.some.inj hvalue
      obtain rfl := hs.eq_of_linkKey he hentry.row_eq
      obtain ⟨_, rfl⟩ := hcell.ends_eq hs he hd hf rfl hcell₀
      exact absurd hends hother

def HasEnd (i s d : LinkInfo) : Prop := s = i ∨ d = i

def AreEnds (source destination s d : LinkInfo) : Prop :=
  s = source ∧ d = destination ∨ s = destination ∧ d = source

theorem deleteLink_removes (h : Sound uniqueOf w) (hi : i.Given uniqueOf) :
    OnlyRemoves uniqueOf (HasEnd i) w.tables (w.tables.deleteLink i).tables := by
  have hsteps : ∀ {t'}, Relation.ReflTransGen (Unlink uniqueOf i) w.tables t' →
      Removes uniqueOf (HasEnd i) w.tables t' := by
    intro t' hsteps
    induction hsteps with
    | refl => exact Removes.refl _ _
    | tail hfront hstep ih =>
      obtain ⟨d, c, c', hd, hcell, hcell', rfl⟩ := hstep
      exact ih.trans (removes_of_removeLink (h.unlinks hi hfront).twoWay hi hd hcell hcell'
        (Or.inl rfl) (Or.inr rfl))
  exact Removes.onlyRemoves h.twoWay (hsteps (deleteLink_unlinks h hi))

theorem deleteThisLink_removes (h : Sound uniqueOf w) (hs : s.Given uniqueOf)
    (hd : d.Given uniqueOf) (hus : s.unique = false) (hud : d.unique = false)
    (hfree : Free w.tables s d) (hfree' : Free w.tables d s) :
    OnlyRemoves uniqueOf (AreEnds s d) w.tables (w.tables.deleteThisLink s d).tables := by
  refine Removes.onlyRemoves h.twoWay ?_
  rcases deleteThisLink_eq h hs hd hus hud hfree hfree' with heq | ⟨c, c', hcell, hcell', heq⟩
  · rw [heq]
    exact Removes.refl _ _
  · rw [heq]
    exact removes_of_removeLink h.twoWay hs hd hcell hcell' (Or.inl ⟨rfl, rfl⟩) (Or.inr ⟨rfl, rfl⟩)

def TouchesOnly (uniqueOf : QString → Bool) (w : World) : Prop :=
  (∀ info, info.Given uniqueOf →
    OnlyRemoves uniqueOf (HasEnd info) w.tables (w.tables.deleteLink info).tables) ∧
  ∀ source destination, source.Given uniqueOf → destination.Given uniqueOf →
    source.unique = false → destination.unique = false →
      OnlyRemoves uniqueOf (AreEnds source destination) w.tables
        (w.tables.deleteThisLink source destination).tables

/-- In every state that calls reach, deletions touch the links they are to delete only, as long
as no call finds the place of a side taken by another link, the deletion of one of many links
itself included. -/
theorem deletions_of_calm {calls : List Call}
    (h : Runs (CalmStep uniqueOf) World.empty calls w) :
    (∀ info, info.Given uniqueOf →
      OnlyRemoves uniqueOf (HasEnd info) w.tables (w.tables.deleteLink info).tables) ∧
    ∀ source destination, source.Given uniqueOf → destination.Given uniqueOf →
      source.unique = false → destination.unique = false →
      Calm w.tables (.deleteThisLink source destination) →
        OnlyRemoves uniqueOf (AreEnds source destination) w.tables
          (w.tables.deleteThisLink source destination).tables := by
  have hsound := sound_of_runs h
  refine ⟨fun info hi => deleteLink_removes hsound hi, ?_⟩
  intro source destination hs hd hus hud hcalm
  obtain ⟨hfree, hfree'⟩ := hcalm hus hud
  exact deleteThisLink_removes hsound hs hd hus hud hfree hfree'

/-- Deleting the children of the first parent takes the page from its second parent. -/
theorem other_parent_touched : ¬ ∀ (uniqueOf : QString → Bool) (calls : List Call) (w : World),
    Runs (ProperStep uniqueOf) World.empty calls w → TouchesOnly uniqueOf w := by
  intro h
  have hrun := Runs.of_checked World.step (Proper parentUnique) World.empty relinkCalls
    (by decide +kernel)
  have honly := (h parentUnique relinkCalls _ hrun).1 (childrenOf "x.org/b") (by decide +kernel)
  have hparent : IsCell (relinkCalls.foldl World.step World.empty).tables (parentOf "x.org/a")
      (childrenOf "x.org/c") ((parentOf "x.org/a").cellName (childrenOf "x.org/c")) :=
    ⟨rfl, by decide +kernel⟩
  have hother : ¬ HasEnd (childrenOf "x.org/b") (parentOf "x.org/a") (childrenOf "x.org/c") := by
    unfold HasEnd
    decide +kernel
  obtain ⟨hstays, _⟩ := honly.others _ _ _ (by decide +kernel) (by decide +kernel) hother hparent
  exact absurd hstays.holds (by decide +kernel)

def tagOf (key : String) : LinkInfo := ⟨false, ascii "content::tag", ascii key, 1⟩

def taggedOf (key : String) : LinkInfo := ⟨false, ascii "content::tagged", ascii key, 0⟩

def tagCalls : List Call :=
  [.createLink (tagOf "x.org/a") (taggedOf "x.org/t") (ascii "server-1") (ascii "server-2"),
    .createLink (tagOf "x.org/a") (taggedOf "x.org/u") (ascii "server-3") (ascii "server-4")]

/-- The page loses the tag that is deleted and nothing else. -/
theorem deletions_of_calm_tags :
    OnlyRemoves (fun _ => false) (AreEnds (tagOf "x.org/a") (taggedOf "x.org/t"))
      (tagCalls.foldl World.step World.empty).tables
      ((tagCalls.foldl World.step World.empty).tables.deleteThisLink (tagOf "x.org/a")
        (taggedOf "x.org/t")).tables :=
  (deletions_of_calm (Runs.of_checked World.step
    (fun w c => Proper (fun _ => false) w c ∧ Calm w.tables c) World.empty tagCalls
    (by decide +kernel))).2 _ _ (by decide +kernel) (by decide +kernel) rfl rfl (by decide +kernel)

end SnapCpp.LinkTables
