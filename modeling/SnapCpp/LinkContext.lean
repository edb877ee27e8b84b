import SnapCpp.LinkTables

/-!
The reading of a unique link. A unique name can have a link for each branch of the other page; a
context finds the one that is asked for when it is made. It reads the cells of the name in
batches, in the reversed order of their columns, where "9" comes before "10", and remembers the
best link so far for all of them, but the branch it looks for only for the first one. The
contexts of the names that are not unique are left out.
-/
namespace SnapCpp

open QString LinkInfo
open PlaceMarkers (Unmarked)

/-- `link_context::mode_t`. -/
inductive LinkMode where
  | current
  | currentOrNewest
  | working
  | workingOrNewest
  | newest
  | oldest
  | all
deriving DecidableEq, Repr

/-- The branches of a page by its key, as `path_info_t::get_branch()` finds them. -/
structure PageBranches where
  current : QString → UInt32
  working : QString → UInt32

inductive ContextException where
  | invalidCount
  | invalidData (e : LinksException)
deriving DecidableEq, Repr

abbrev LinkCell := QString × QString

/-- A context of a unique name with the batches its row can still read. -/
structure LinkContext where
  row : Option (List (List LinkCell))
  cells : List LinkCell
  link : LinkInfo

namespace LinkContext

/-- A `link_info` that was given nothing. -/
def undefinedInfo : LinkInfo := ⟨false, [], [], SPECIAL_VERSION_UNDEFINED⟩

/-- The batches that `QCassandraRow::readCells()` gives one after the other. -/
def batches {α : Type} (count : ℕ) (cells : List α) : List (List α) :=
  if cells = [] ∨ count = 0 then [] else cells.take count :: batches count (cells.drop count)
termination_by cells.length
decreasing_by
  rw [List.length_drop]
  have := List.length_pos_iff.mpr (not_or.mp ‹_›).1
  omega

def reading {α : Type} (mode : LinkMode) (count : ℕ) (cells : List α) : List (List α) :=
  if mode = .oldest ∨ mode = .all then batches count cells
  else (batches count cells.reverse).map List.reverse

def branchSought (pages : PageBranches) (mode : LinkMode) (key : QString) : UInt32 :=
  match mode with
  | .current | .currentOrNewest => pages.current key
  | .working | .workingOrNewest => pages.working key
  | .newest | .oldest | .all => SPECIAL_VERSION_UNDEFINED

def better (mode : LinkMode) (last info : LinkInfo) : LinkInfo :=
  match mode with
  | .current | .working | .all => last
  | .currentOrNewest | .workingOrNewest | .newest =>
      if info.branch > last.branch then info else last
  | .oldest => if info.branch < last.branch then info else last

def searchBatch (pages : PageBranches) (mode : LinkMode) : LinkInfo → UInt32 → List LinkCell →
    Except LinksException (LinkInfo × Option LinkInfo)
  | last, _, [] => .ok (last, none)
  | last, sought, (_, value) :: cells =>
      match fromData value with
      | .error e => .error e
      | .ok info =>
          let sought := if last.isDefined then sought else branchSought pages mode info.key
          let last := if last.isDefined then better mode last info else info
          if info.branch = sought ∧ sought ≠ SPECIAL_VERSION_UNDEFINED then .ok (last, some info)
          else searchBatch pages mode last sought cells

def searchBatches (pages : PageBranches) (mode : LinkMode) : LinkInfo → List (List LinkCell) →
    Except LinksException (LinkInfo × Option LinkInfo)
  | last, [] => .ok (last, none)
  | last, batch :: rest =>
      match searchBatch pages mode last SPECIAL_VERSION_UNDEFINED batch with
      | .error e => .error e
      | .ok (last, some info) => .ok (last, some info)
      | .ok (last, none) => searchBatches pages mode last rest

/-- The constructor of a `link_context` for a unique name. -/
def linkContext (t : LinkTables) (pages : PageBranches) (info : LinkInfo) (mode : LinkMode)
    (count : ℤ) : Except ContextException LinkContext :=
  if t.branch.hasGroup info.rowKey = false then .ok ⟨none, [], undefinedInfo⟩
  else if count < 10 then .error .invalidCount
  else
    let cells := (t.branch.group info.rowKey).entries.filter fun cell => info.cellPredicate cell.1
    let row := reading mode count.toNat cells
    if mode = .all then .ok ⟨some row, [], undefinedInfo⟩
    else
      match searchBatches pages mode undefinedInfo row with
      | .error e => .error (.invalidData e)
      | .ok (_, some link) => .ok ⟨none, [], link⟩
      | .ok (last, none) =>
          if mode = .current ∨ mode = .working then .ok ⟨none, [], undefinedInfo⟩
          else .ok ⟨none, [], last⟩

def cellLink (row : List (List LinkCell)) (cells : List LinkCell) (link : LinkInfo) :
    Except LinksException (Option LinkInfo × LinkContext) :=
  match cells with
  | [] => .ok (none, ⟨none, [], link⟩)
  | (_, value) :: cells =>
      match fromData value with
      | .error e => .error e
      | .ok info => .ok (some info, ⟨some row, cells, link⟩)

/-- `link_context::next_link()` for a unique name. -/
def nextLink (c : LinkContext) : Except LinksException (Option LinkInfo × LinkContext) :=
  match c.row with
  | some row =>
      if c.cells = [] then cellLink row.tail (row.head?.getD []) c.link
      else cellLink row c.cells c.link
  | none =>
      if c.link.name = [] then .ok (none, c)
      else .ok (some c.link, { c with link := undefinedInfo })

def takeLinks : ℕ → LinkContext → Except LinksException (List LinkInfo)
  | 0, _ => .ok []
  | n + 1, c =>
      match c.nextLink with
      | .error e => .error e
      | .ok (link, c) => (takeLinks n c).map (link.toList ++ ·)

section Batches

variable {α β : Type} {count : ℕ} {mode : LinkMode} {cells : List α}

theorem batches_nil : batches count ([] : List α) = [] := by
  rw [batches, if_pos (Or.inl rfl)]

theorem batches_eq (hcount : 0 < count) (hcells : cells ≠ []) :
    batches count cells = cells.take count :: batches count (cells.drop count) := by
  rw [batches, if_neg (not_or.mpr ⟨hcells, hcount.ne'⟩)]

theorem map_batches (f : α → β) (cells : List α) :
    batches count (cells.map f) = (batches count cells).map (List.map f) := by
  fun_induction batches count cells with
  | case1 cells h =>
    rw [batches, if_pos (h.imp_left fun hnil => by rw [hnil, List.map_nil]), List.map_nil]
  | case2 cells h ih =>
    rw [batches, if_neg (by simpa using h), ← List.map_take, ← List.map_drop, ih, List.map_cons]

theorem flatten_batches (hcount : 0 < count) (cells : List α) :
    (batches count cells).flatten = cells := by
  fun_induction batches count cells with
  | case1 cells h => exact (h.resolve_right hcount.ne').symm
  | case2 cells h ih => rw [List.flatten_cons, ih, List.take_append_drop]

theorem map_reading (f : α → β) (cells : List α) :
    reading mode count (cells.map f) = (reading mode count cells).map (List.map f) := by
  unfold reading
  split_ifs
  · exact map_batches f cells
  · rw [← List.map_reverse, map_batches, List.map_map, List.map_map]
    exact List.map_congr_left fun batch _ => (List.map_reverse ..).symm

theorem mem_reading (mode : LinkMode) (hcount : 0 < count) {a : α} :
    a ∈ (reading mode count cells).flatten ↔ a ∈ cells := by
  unfold reading
  split_ifs
  · rw [flatten_batches hcount]
  · calc a ∈ ((batches count cells.reverse).map List.reverse).flatten
        ↔ a ∈ (batches count cells.reverse).flatten := by
          simp only [List.mem_flatten, List.mem_map, exists_exists_and_eq_and, List.mem_reverse]
      _ ↔ a ∈ cells := by rw [flatten_batches hcount, List.mem_reverse]

theorem reading_cons (mode : LinkMode) (hcount : 0 < count) (hcells : cells ≠ []) :
    ∃ first batch later, reading mode count cells = (first :: batch) :: later ∧
      (mode ≠ .oldest → mode ≠ .all → ∀ a, a ∈ first :: batch ↔ a ∈ cells.reverse.take count) := by
  have htake {l : List α} (hl : l ≠ []) : l.take count ≠ [] := by
    rw [ne_eq, List.take_eq_nil_iff, not_or]
    exact ⟨hcount.ne', hl⟩
  have hreverse : cells.reverse ≠ [] := fun h => hcells (List.reverse_eq_nil_iff.mp h)
  unfold reading
  split_ifs with hmode
  · obtain ⟨first, batch, hfirst⟩ := List.exists_cons_of_ne_nil (htake hcells)
    refine ⟨first, batch, _, by rw [batches_eq hcount hcells, hfirst], fun hold hall => ?_⟩
    exact absurd hmode (not_or.mpr ⟨hold, hall⟩)
  · have hfirst : (cells.reverse.take count).reverse ≠ [] := fun h =>
      htake hreverse (List.reverse_eq_nil_iff.mp h)
    obtain ⟨first, batch, hfirst⟩ := List.exists_cons_of_ne_nil hfirst
    refine ⟨first, batch, _, by rw [batches_eq hcount hreverse, List.map_cons, hfirst],
      fun _ _ a => ?_⟩
    rw [← hfirst, List.mem_reverse]

end Batches

section Search

variable {pages : PageBranches} {mode : LinkMode} {info last link : LinkInfo} {sought : UInt32}
  {links : List LinkInfo}

def cellsOf (info : LinkInfo) (links : List LinkInfo) : List LinkCell :=
  links.map fun link => (info.cellName link, link.data)

def Readable (link : LinkInfo) : Prop := link.isDefined = true ∧ fromData link.data = .ok link

theorem better_cases (mode : LinkMode) (last info : LinkInfo) :
    better mode last info = last ∨ better mode last info = info := by
  cases mode with
  | current | working | all => exact Or.inl rfl
  | _ =>
    simp only [better]
    split_ifs
    · exact Or.inr rfl
    · exact Or.inl rfl

theorem foldl_better_mem (mode : LinkMode) (last : LinkInfo) (links : List LinkInfo) :
    links.foldl (better mode) last ∈ last :: links := by
  induction links generalizing last with
  | nil => exact List.mem_cons_self ..
  | cons info links ih =>
    rw [List.foldl_cons]
    have hmem := ih (better mode last info)
    rw [List.mem_cons] at hmem ⊢
    rw [List.mem_cons]
    rcases better_cases mode last info with heq | heq <;> rw [heq] at hmem ⊢
    · exact hmem.imp_right Or.inr
    · exact Or.inr hmem

theorem searchBatch_defined (pages : PageBranches) (mode : LinkMode) (info : LinkInfo)
    (sought : UInt32) (hlast : last.isDefined = true) (hlinks : ∀ l ∈ links, Readable l) :
    (∃ best link, searchBatch pages mode last sought (cellsOf info links) = .ok (best, some link) ∧
      link ∈ links ∧ link.branch = sought ∧ sought ≠ SPECIAL_VERSION_UNDEFINED) ∨
    (searchBatch pages mode last sought (cellsOf info links) =
      .ok (links.foldl (better mode) last, none) ∧
      ∀ l ∈ links, l.branch = sought → sought = SPECIAL_VERSION_UNDEFINED) := by
  induction links generalizing last with
  | nil => exact Or.inr ⟨rfl, fun l hl => by cases hl⟩
  | cons first links ih =>
    obtain ⟨hfirst, hrest⟩ := List.forall_mem_cons.mp hlinks
    have hbetter : (better mode last first).isDefined = true := by
      rcases better_cases mode last first with heq | heq <;> rw [heq]
      · exact hlast
      · exact hfirst.1
    have hcells : cellsOf info (first :: links) =
        (info.cellName first, first.data) :: cellsOf info links := rfl
    rw [hcells, searchBatch, hfirst.2]
    simp only [hlast, if_true]
    by_cases hfound : first.branch = sought ∧ sought ≠ SPECIAL_VERSION_UNDEFINED
    · rw [if_pos hfound]
      exact Or.inl ⟨_, first, rfl, List.mem_cons_self .., hfound.1, hfound.2⟩
    · rw [if_neg hfound, List.foldl_cons]
      rcases ih hbetter hrest with ⟨best, link, heq, hmem, hlink⟩ | ⟨heq, hnone⟩
      · exact Or.inl ⟨best, link, heq, List.mem_cons_of_mem _ hmem, hlink⟩
      · refine Or.inr ⟨heq, List.forall_mem_cons.mpr ⟨fun hbranch => ?_, hnone⟩⟩
        exact not_not.mp fun hsought => hfound ⟨hbranch, hsought⟩

theorem better_self (mode : LinkMode) (link : LinkInfo) : better mode link link = link := by
  cases mode <;> simp [better]

theorem searchBatch_first (hlink : Readable link) :
    searchBatch pages mode undefinedInfo SPECIAL_VERSION_UNDEFINED
      (cellsOf info (link :: links)) =
    searchBatch pages mode link (branchSought pages mode link.key)
      (cellsOf info (link :: links)) := by
  have hcells : cellsOf info (link :: links) =
      (info.cellName link, link.data) :: cellsOf info links := rfl
  rw [hcells, searchBatch, searchBatch, hlink.2]
  simp only [hlink.1, if_true, better_self]
  rfl

/-- After the first batch nothing is sought. -/
theorem searchBatches_defined {rest : List (List LinkInfo)} (hlast : last.isDefined = true)
    (hrest : ∀ l ∈ rest.flatten, Readable l) :
    searchBatches pages mode last (rest.map (cellsOf info)) =
      .ok (rest.flatten.foldl (better mode) last, none) := by
  induction rest generalizing last with
  | nil => rfl
  | cons batch rest ih =>
    rw [List.flatten_cons, List.forall_mem_append] at hrest
    rw [List.map_cons, searchBatches]
    rcases searchBatch_defined pages mode info SPECIAL_VERSION_UNDEFINED hlast hrest.1 with
      ⟨_, _, _, _, _, hsought⟩ | ⟨heq, _⟩
    · exact absurd rfl hsought
    · have hbest : (batch.foldl (better mode) last).isDefined = true := by
        rcases List.mem_cons.mp (foldl_better_mem mode last batch) with hmem | hmem
        · rw [hmem]
          exact hlast
        · exact (hrest.1 _ hmem).1
      rw [heq]
      simp only
      rw [ih hbest hrest.2, List.flatten_cons, List.foldl_append]

theorem le_foldl_better (hmode : mode = .newest ∨ mode = .currentOrNewest ∨
    mode = .workingOrNewest) (last : LinkInfo) (links : List LinkInfo) :
    ∀ l ∈ last :: links, l.branch ≤ (links.foldl (better mode) last).branch := by
  have hstep (last info : LinkInfo) : last.branch ≤ (better mode last info).branch ∧
      info.branch ≤ (better mode last info).branch := by
    have hnewer : better mode last info = if info.branch > last.branch then info else last := by
      rcases hmode with rfl | rfl | rfl <;> rfl
    rw [hnewer]
    split_ifs with hlt
    · exact ⟨UInt32.le_of_lt hlt, UInt32.le_refl _⟩
    · exact ⟨UInt32.le_refl _, UInt32.not_lt.mp hlt⟩
  induction links generalizing last with
  | nil => simp
  | cons info links ih =>
    rw [List.foldl_cons]
    obtain ⟨hlast, hlinks⟩ := List.forall_mem_cons.mp (ih (better mode last info))
    exact List.forall_mem_cons.mpr ⟨UInt32.le_trans (hstep last info).1 hlast,
      List.forall_mem_cons.mpr ⟨UInt32.le_trans (hstep last info).2 hlast, hlinks⟩⟩

theorem foldl_better_le (last : LinkInfo) (links : List LinkInfo) :
    ∀ l ∈ last :: links, (links.foldl (better .oldest) last).branch ≤ l.branch := by
  have hstep (last info : LinkInfo) : (better .oldest last info).branch ≤ last.branch ∧
      (better .oldest last info).branch ≤ info.branch := by
    simp only [better]
    split_ifs with hlt
    · exact ⟨UInt32.le_of_lt hlt, UInt32.le_refl _⟩
    · exact ⟨UInt32.le_refl _, UInt32.not_lt.mp hlt⟩
  induction links generalizing last with
  | nil => simp
  | cons info links ih =>
    rw [List.foldl_cons]
    obtain ⟨hlast, hlinks⟩ := List.forall_mem_cons.mp (ih (better .oldest last info))
    exact List.forall_mem_cons.mpr ⟨UInt32.le_trans hlast (hstep last info).1,
      List.forall_mem_cons.mpr ⟨UInt32.le_trans hlast (hstep last info).2, hlinks⟩⟩

end Search

structure Stored (t : LinkTables) (info : LinkInfo) (page : QString) (links : List LinkInfo) :
    Prop where
  cells : ((t.branch.group info.rowKey).entries.filter fun cell => info.cellPredicate cell.1) =
    cellsOf info links
  readable : ∀ link ∈ links, Readable link
  samePage : ∀ link ∈ links, link.key = page

def Wanted (mode : LinkMode) (sought : UInt32) (links : List LinkInfo) (link : LinkInfo) : Prop :=
  link ∈ links ∧
    match mode with
    | .current | .working => link.branch = sought
    | .currentOrNewest | .workingOrNewest => link.branch = sought ∨
        (∀ l ∈ links, l.branch ≠ sought) ∧ ∀ l ∈ links, l.branch ≤ link.branch
    | .newest => ∀ l ∈ links, l.branch ≤ link.branch
    | .oldest => ∀ l ∈ links, link.branch ≤ l.branch
    | .all => True

def Right (mode : LinkMode) (sought : UInt32) (links : List LinkInfo) (c : LinkContext) : Prop :=
  ∃ given : Option LinkInfo, (∀ link, given = some link ↔ Wanted mode sought links link) ∧
    ∀ n, takeLinks (n + 1) c = .ok given.toList

def Reached (mode : LinkMode) (sought : UInt32) (count : ℕ) (links : List LinkInfo) : Prop :=
  ∀ link ∈ links, link.branch = sought → link ∈ links.reverse.take count ∨
    (mode = .currentOrNewest ∨ mode = .workingOrNewest) ∧ ∀ l ∈ links, l.branch ≤ link.branch

section Contexts

variable {t : LinkTables} {pages : PageBranches} {info link : LinkInfo} {mode : LinkMode}
  {page : QString} {links : List LinkInfo} {count : ℤ}

theorem Stored.branch_inj (h : Stored t info page links) :
    links.Pairwise fun l l' => l.branch ≠ l'.branch := by
  have hsorted := (t.branch.group info.rowKey).sorted
  have hcells := (hsorted.filter fun cell => info.cellPredicate cell.1)
  rw [h.cells, cellsOf, List.pairwise_map] at hcells
  refine hcells.imp fun {l l'} hlt hbranch => ?_
  have hcolumn : info.cellName l = info.cellName l' := by
    rw [cellName, cellName, hbranch]
  simp only [hcolumn] at hlt
  exact lt_irrefl _ hlt

theorem takeLinks_undefined (n : ℕ) : takeLinks n ⟨none, [], undefinedInfo⟩ = .ok [] := by
  induction n with
  | zero => rfl
  | succ n ih =>
    have hnext : nextLink ⟨none, [], undefinedInfo⟩ =
        .ok (none, ⟨none, [], undefinedInfo⟩) := rfl
    rw [takeLinks, hnext]
    simp only
    rw [ih]
    rfl

theorem takeLinks_link (n : ℕ) (hlink : link.isDefined = true) :
    takeLinks (n + 1) ⟨none, [], link⟩ = .ok [link] := by
  have hname : link.name ≠ [] := by
    rintro hnil
    simp [isDefined, hnil] at hlink
  have hnext : nextLink ⟨none, [], link⟩ = .ok (some link, ⟨none, [], undefinedInfo⟩) := by
    rw [nextLink]
    simp only [if_neg hname]
  rw [takeLinks, hnext]
  simp only
  rw [takeLinks_undefined]
  rfl

theorem right_iff (hlink : link.isDefined = true) {sought : UInt32} :
    Right mode sought links ⟨none, [], link⟩ ↔
      ∀ l, link = l ↔ Wanted mode sought links l := by
  constructor
  · rintro ⟨given, hwanted, htake⟩
    have hgiven := htake 0
    rw [takeLinks_link 0 hlink] at hgiven
    cases given with
    | none => cases hgiven
    | some l =>
      obtain ⟨rfl, _⟩ := List.cons.inj (Except.ok.inj hgiven)
      exact fun l => by rw [← hwanted l, Option.some_inj]
  · intro h
    exact ⟨some link, fun l => by rw [Option.some_inj, h l], fun n => takeLinks_link n hlink⟩

theorem right_undefined_iff {sought : UInt32} : Right mode sought links ⟨none, [], undefinedInfo⟩ ↔
    ∀ l, ¬ Wanted mode sought links l := by
  constructor
  · rintro ⟨given, hwanted, htake⟩ l hl
    have hgiven := htake 0
    rw [takeLinks_undefined, (hwanted l).mpr hl] at hgiven
    cases hgiven
  · intro h
    refine ⟨none, fun l => iff_of_false (fun hnone => ?_) (h l), fun n => takeLinks_undefined _⟩
    cases hnone

/-- What the constructor does with the cells of the name. -/
theorem linkContext_search (h : Stored t info page links)
    (hrow : t.branch.hasGroup info.rowKey = true) (hcount : 10 ≤ count) (hmode : mode ≠ .all) :
    linkContext t pages info mode count =
      match searchBatches pages mode undefinedInfo
          ((reading mode count.toNat links).map (cellsOf info)) with
      | .error e => .error (.invalidData e)
      | .ok (_, some link) => .ok ⟨none, [], link⟩
      | .ok (last, none) =>
          .ok ⟨none, [], if mode = .current ∨ mode = .working then undefinedInfo else last⟩ := by
  have hcells : reading mode count.toNat (cellsOf info links) =
      (reading mode count.toNat links).map (cellsOf info) := by
    rw [cellsOf, map_reading]
    rfl
  rw [linkContext, hrow, if_neg (by decide), if_neg (by omega)]
  simp only [h.cells, hcells, if_neg hmode]
  split
  · rfl
  · rfl
  · split_ifs <;> rfl

theorem linkContext_nil (h : Stored t info page []) (hcount : 10 ≤ count) (hmode : mode ≠ .all) :
    linkContext t pages info mode count = .ok ⟨none, [], undefinedInfo⟩ := by
  cases hrow : t.branch.hasGroup info.rowKey with
  | false => rw [linkContext, if_pos hrow]
  | true =>
    have hreading : reading mode count.toNat ([] : List LinkInfo) = [] := by
      simp [reading, batches_nil]
    rw [linkContext_search h hrow hcount hmode, hreading, List.map_nil, searchBatches]
    simp only [ite_self]

theorem linkContext_cons (pages : PageBranches) (h : Stored t info page links)
    (hcount : 10 ≤ count) (hmode : mode ≠ .all) {first : LinkInfo} {batch : List LinkInfo}
    {later : List (List LinkInfo)}
    (hreading : reading mode count.toNat links = (first :: batch) :: later) :
    (∃ link ∈ first :: batch, link.branch = branchSought pages mode page ∧
      branchSought pages mode page ≠ SPECIAL_VERSION_UNDEFINED ∧
      linkContext t pages info mode count = .ok ⟨none, [], link⟩) ∨
    ((∀ l ∈ first :: batch, l.branch = branchSought pages mode page →
        branchSought pages mode page = SPECIAL_VERSION_UNDEFINED) ∧
      linkContext t pages info mode count =
        .ok ⟨none, [], if mode = .current ∨ mode = .working then undefinedInfo
          else (first :: batch ++ later.flatten).foldl (better mode) first⟩) := by
  have hpos : 0 < count.toNat := by omega
  have hmem (l : LinkInfo) : l ∈ (first :: batch) ++ later.flatten ↔ l ∈ links := by
    have hmem : l ∈ (reading mode count.toNat links).flatten ↔ l ∈ links := mem_reading mode hpos
    rwa [hreading, List.flatten_cons] at hmem
  have hfirst : first ∈ links := (hmem first).mp (by simp)
  have hread := List.forall_mem_append.mp fun l hl => h.readable l ((hmem l).mp hl)
  have hrow : t.branch.hasGroup info.rowKey = true := by
    have hcell : (info.cellName first, first.data) ∈
        (t.branch.group info.rowKey).entries.filter fun cell => info.cellPredicate cell.1 := by
      rw [h.cells]
      exact List.mem_map_of_mem hfirst
    rw [GroupedMap.hasGroup, Bool.not_eq_true', List.isEmpty_eq_false_iff]
    exact List.ne_nil_of_mem (List.mem_filter.mp hcell).1
  rw [linkContext_search h hrow hcount hmode, hreading, List.map_cons, searchBatches,
    searchBatch_first (h.readable first hfirst), h.samePage first hfirst]
  rcases searchBatch_defined pages mode info (branchSought pages mode page)
    (h.readable first hfirst).1 hread.1 with
    ⟨best, link, heq, hlink, hbranch, hsought⟩ | ⟨heq, hnone⟩
  · refine Or.inl ⟨link, hlink, hbranch, hsought, ?_⟩
    rw [heq]
  · refine Or.inr ⟨hnone, ?_⟩
    have hbest : ((first :: batch).foldl (better mode) first).isDefined = true := by
      rcases List.mem_cons.mp (foldl_better_mem mode first (first :: batch)) with heq | hbest
      · rw [heq]
        exact (h.readable first hfirst).1
      · exact (hread.1 _ hbest).1
    rw [heq]
    simp only
    rw [searchBatches_defined hbest hread.2, List.foldl_append]

theorem Stored.eq_of_branch (h : Stored t info page links) {l l' : LinkInfo} (hl : l ∈ links)
    (hl' : l' ∈ links) (hbranch : l.branch = l'.branch) : l = l' := by
  by_contra hne
  have hsymm : Std.Symm fun l l' : LinkInfo => l.branch ≠ l'.branch :=
    ⟨fun _ _ hdiffer => hdiffer.symm⟩
  exact h.branch_inj.forall hl hl' hne hbranch

theorem Stored.branch_ne (h : Stored t info page links) {l : LinkInfo} (hl : l ∈ links) :
    l.branch ≠ SPECIAL_VERSION_UNDEFINED := by
  have hdefined := (h.readable l hl).1
  simp only [isDefined, Bool.and_eq_true, decide_eq_true_eq] at hdefined
  exact hdefined.1.2

section Modes

variable {sought : UInt32} {best : LinkInfo}

theorem wanted_of_found (h : Stored t info page links)
    (hmode : mode = .current ∨ mode = .working ∨ mode = .currentOrNewest ∨
      mode = .workingOrNewest) (hlink : link ∈ links) (hbranch : link.branch = sought)
    (l : LinkInfo) : link = l ↔ Wanted mode sought links l := by
  have hsame : link = l ↔ l ∈ links ∧ l.branch = sought := by
    constructor
    · rintro rfl
      exact ⟨hlink, hbranch⟩
    · rintro ⟨hl, hsought⟩
      exact h.eq_of_branch hlink hl (hbranch.trans hsought.symm)
  have hnewest : l ∈ links ∧ l.branch = sought ↔ l ∈ links ∧ (l.branch = sought ∨
      (∀ l ∈ links, l.branch ≠ sought) ∧ ∀ l' ∈ links, l'.branch ≤ l.branch) := by
    refine and_congr_right fun _ => ⟨Or.inl, fun hor => hor.resolve_right fun hnone => ?_⟩
    exact hnone.1 link hlink hbranch
  rcases hmode with rfl | rfl | rfl | rfl
  · exact hsame
  · exact hsame
  · exact hsame.trans hnewest
  · exact hsame.trans hnewest

theorem wanted_newest_iff (h : Stored t info page links)
    (hmode : mode = .currentOrNewest ∨ mode = .workingOrNewest) (hbest : best ∈ links)
    (hle : ∀ l ∈ links, l.branch ≤ best.branch) :
    (∀ l, best = l ↔ Wanted mode sought links l) ↔
      ∀ l ∈ links, l.branch = sought → ∀ l' ∈ links, l'.branch ≤ l.branch := by
  have hwanted (l : LinkInfo) : Wanted mode sought links l ↔ l ∈ links ∧ (l.branch = sought ∨
      (∀ l ∈ links, l.branch ≠ sought) ∧ ∀ l' ∈ links, l'.branch ≤ l.branch) := by
    rcases hmode with rfl | rfl <;> rfl
  have hsame {l : LinkInfo} (hl : l ∈ links) (hmax : ∀ l' ∈ links, l'.branch ≤ l.branch) :
      best = l :=
    h.eq_of_branch hbest hl (UInt32.le_antisymm (hmax best hbest) (hle l hl))
  constructor
  · intro heq l hl hbranch
    obtain rfl := (heq l).mpr ((hwanted l).mpr ⟨hl, Or.inl hbranch⟩)
    exact hle
  · intro hmax l
    rw [hwanted]
    constructor
    · rintro rfl
      refine ⟨hbest, ?_⟩
      by_cases hnone : ∀ l ∈ links, l.branch ≠ sought
      · exact Or.inr ⟨hnone, hle⟩
      · push Not at hnone
        obtain ⟨l, hl, hbranch⟩ := hnone
        obtain rfl := hsame hl (hmax l hl hbranch)
        exact Or.inl hbranch
    · rintro ⟨hl, hbranch | ⟨_, hmax'⟩⟩
      · exact hsame hl (hmax l hl hbranch)
      · exact hsame hl hmax'

theorem wanted_newest (h : Stored t info page links) (hbest : best ∈ links)
    (hle : ∀ l ∈ links, l.branch ≤ best.branch) (l : LinkInfo) :
    best = l ↔ Wanted .newest sought links l := by
  constructor
  · rintro rfl
    exact ⟨hbest, hle⟩
  · rintro ⟨hl, hmax⟩
    exact h.eq_of_branch hbest hl (UInt32.le_antisymm (hmax best hbest) (hle l hl))

theorem wanted_oldest (h : Stored t info page links) (hbest : best ∈ links)
    (hle : ∀ l ∈ links, best.branch ≤ l.branch) (l : LinkInfo) :
    best = l ↔ Wanted .oldest sought links l := by
  constructor
  · rintro rfl
    exact ⟨hbest, hle⟩
  · rintro ⟨hl, hmin⟩
    exact h.eq_of_branch hbest hl (UInt32.le_antisymm (hle l hl) (hmin best hbest))

end Modes

theorem exists_linkContext (pages : PageBranches) (h : Stored t info page links)
    (hcount : 10 ≤ count) (hmode : mode ≠ .all) :
    ∃ c, linkContext t pages info mode count = .ok c ∧
      (Right mode (branchSought pages mode page) links c ↔
        Reached mode (branchSought pages mode page) count.toNat links) := by
  by_cases hne : links = []
  · subst hne
    refine ⟨_, linkContext_nil h hcount hmode, iff_of_true ?_ fun link hlink => by cases hlink⟩
    exact right_undefined_iff.mpr fun l hl => by cases hl.1
  have hpos : 0 < count.toNat := by omega
  obtain ⟨first, batch, later, hreading, hbatch⟩ := reading_cons mode hpos hne
  have hmem (l : LinkInfo) : l ∈ (first :: batch) ++ later.flatten ↔ l ∈ links := by
    have hmem : l ∈ (reading mode count.toNat links).flatten ↔ l ∈ links := mem_reading mode hpos
    rwa [hreading, List.flatten_cons] at hmem
  have hlinks {l : LinkInfo} (hl : l ∈ first :: batch) : l ∈ links :=
    (hmem l).mp (List.mem_append_left _ hl)
  rcases linkContext_cons pages h hcount hmode hreading with
    ⟨link, hlink, hbranch, hsought, heq⟩ | ⟨hnone, heq⟩
  · -- the link was found in the first batch
    have hmode' : mode = .current ∨ mode = .working ∨ mode = .currentOrNewest ∨
        mode = .workingOrNewest := by
      cases mode <;> simp_all [branchSought]
    have hin := (hbatch (by rintro rfl; simp at hmode') hmode link).mp hlink
    refine ⟨_, heq, iff_of_true ((right_iff (h.readable link (hlinks hlink)).1).mpr
      (wanted_of_found h hmode' (hlinks hlink) hbranch)) fun l hl hl' => Or.inl ?_⟩
    rwa [← h.eq_of_branch (hlinks hlink) hl (hbranch.trans hl'.symm)]
  · -- the link remembered after all batches
    have hlate {l : LinkInfo} (hl : l ∈ first :: batch) :
        l.branch ≠ branchSought pages mode page := fun hbranch =>
      h.branch_ne (hlinks hl) (hbranch.trans (hnone l hl hbranch))
    have hfirst {l : LinkInfo} (hold : mode ≠ .oldest)
        (hbranch : l.branch = branchSought pages mode page) : l ∉ links.reverse.take count.toNat :=
      fun hl => hlate ((hbatch hold hmode l).mpr hl) hbranch
    refine ⟨_, heq, ?_⟩
    by_cases hone : mode = .current ∨ mode = .working
    · have hwanted (l : LinkInfo) : Wanted mode (branchSought pages mode page) links l ↔
          l ∈ links ∧ l.branch = branchSought pages mode page := by
        rcases hone with rfl | rfl <;> rfl
      have hnot : ¬ (mode = .currentOrNewest ∨ mode = .workingOrNewest) := by
        rcases hone with rfl | rfl <;> decide
      rw [if_pos hone, right_undefined_iff]
      constructor
      · exact fun hmissing l hl hbranch => absurd ((hwanted l).mpr ⟨hl, hbranch⟩) (hmissing l)
      · intro hreached l hl
        obtain ⟨hl, hbranch⟩ := (hwanted l).mp hl
        rcases hreached l hl hbranch with hin | hnewest
        · exact hfirst (by rintro rfl; simp at hone) hbranch hin
        · exact hnot hnewest.1
    · have hbest : (first :: batch ++ later.flatten).foldl (better mode) first ∈ links := by
        rcases List.mem_cons.mp (foldl_better_mem mode first (first :: batch ++ later.flatten)) with
          heq | hbest
        · rw [heq]
          exact hlinks (List.mem_cons_self ..)
        · exact (hmem _).mp hbest
      rw [if_neg hone, right_iff (h.readable _ hbest).1]
      generalize hfold : (first :: batch ++ later.flatten).foldl (better mode) first = best
        at hbest ⊢
      by_cases hor : mode = .currentOrNewest ∨ mode = .workingOrNewest
      · have hle (l : LinkInfo) (hl : l ∈ links) : l.branch ≤ best.branch := by
          rw [← hfold]
          exact le_foldl_better (Or.inr hor) first _ l
            (List.mem_cons_of_mem _ ((hmem l).mpr hl))
        rw [wanted_newest_iff h hor hbest hle]
        refine forall₃_congr fun l hl hbranch => ?_
        have hold : mode ≠ .oldest := by rintro rfl; simp at hor
        exact ⟨fun hmax => Or.inr ⟨hor, hmax⟩,
          fun hreached => (hreached.resolve_left (hfirst hold hbranch)).2⟩
      · -- no branch is sought
        have hsought : branchSought pages mode page = SPECIAL_VERSION_UNDEFINED := by
          cases mode <;> first | rfl | simp_all
        refine iff_of_true ?_ fun l hl hbranch =>
          absurd (hbranch.trans hsought) (h.branch_ne hl)
        have hall (l : LinkInfo) (hl : l ∈ links) :
            l ∈ first :: (first :: batch ++ later.flatten) :=
          List.mem_cons_of_mem _ ((hmem l).mpr hl)
        cases mode with
        | newest =>
          refine wanted_newest h hbest fun l hl => ?_
          rw [← hfold]
          exact le_foldl_better (Or.inl rfl) first _ l (hall l hl)
        | oldest =>
          refine wanted_oldest h hbest fun l hl => ?_
          rw [← hfold]
          exact foldl_better_le first _ l (hall l hl)
        | _ => simp_all

/-- A context gives the link its mode asks for just when that link is reached: for the newest and
the oldest link, and where no link has the branch sought, always. -/
theorem linkContext_right_iff (pages : PageBranches) (h : Stored t info page links)
    (hcount : 10 ≤ count) (hmode : mode ≠ .all) :
    (∃ c, linkContext t pages info mode count = .ok c ∧
      Right mode (branchSought pages mode page) links c) ↔
    Reached mode (branchSought pages mode page) count.toNat links := by
  obtain ⟨c, heq, hiff⟩ := exists_linkContext pages h hcount hmode
  rw [heq]
  simpa only [Except.ok.injEq, exists_eq_left'] using hiff

end Contexts

def versionOf (branch : UInt32) : LinkInfo :=
  { unique := true, name := ascii "a::b", key := ascii "p", branch }

def versions : List UInt32 := [0, 1, 10, 2, 3, 4, 5, 6, 7, 8, 9]

def versionParent : LinkInfo :=
  { unique := true, name := ascii "a::c", key := ascii "q", branch := 1 }

theorem readable_versionOf {branch : UInt32} (h : branch ∈ versions) :
    Readable (versionOf branch) := by
  have hdefined : ∀ branch ∈ versions, (versionOf branch).isDefined = true :=
    List.forall_iff_forall_mem.mp (by decide)
  have hverified : Verified (ascii "a::b") := by decide
  have hkey : PlaceMarkers.percent ∉ ascii "p" ∧ newline ∉ ascii "p" ∧ equal ∉ ascii "p" := by
    decide
  exact ⟨hdefined branch h, fromData_data (Unmarked.of_plain hkey.1) hverified hkey.2.1 hkey.2.2⟩

def versionCells : OrderedMap QString QString :=
  ⟨cellsOf versionParent (versions.map versionOf), by
    rw [cellsOf, List.map_map, List.pairwise_map]
    have hdecimal : versions.Pairwise fun b b' =>
        hash :: decimal b.toNat < hash :: decimal b'.toNat := by decide
    refine hdecimal.imp fun {b b'} hlt => ?_
    exact List.append_left_lt hlt⟩

def versionTables : LinkTables where
  branch :=
    { groups := OrderedMap.empty.insert versionParent.rowKey versionCells
      nonempty := by
        intro row cells h
        rw [OrderedMap.find?_insert] at h
        split_ifs at h
        · obtain rfl := Option.some.inj h
          decide
        · cases h }
  links := GroupedMap.empty

theorem stored_versions :
    Stored versionTables versionParent (ascii "p") (versions.map versionOf) where
  cells := by
    have hgroup : versionTables.branch.group versionParent.rowKey = versionCells := by
      simp [versionTables, GroupedMap.group]
    rw [hgroup]
    refine List.filter_eq_self.mpr fun cell hcell => ?_
    obtain ⟨link, _, rfl⟩ := List.mem_map.mp hcell
    exact cellPredicate_cellName _ _
  readable := by
    intro link hlink
    obtain ⟨branch, hbranch, rfl⟩ := List.mem_map.mp hlink
    exact readable_versionOf hbranch
  samePage := by
    intro link hlink
    obtain ⟨branch, _, rfl⟩ := List.mem_map.mp hlink
    rfl

/-- Twenty cells at once have the link of the current branch. -/
theorem linkContext_right_iff_versions :
    (∃ c, linkContext versionTables ⟨fun _ => 0, fun _ => 9⟩ versionParent .current 20 = .ok c ∧
      Right .current 0 (versions.map versionOf) c) ↔
    Reached .current 0 20 (versions.map versionOf) :=
  linkContext_right_iff ⟨fun _ => 0, fun _ => 9⟩ stored_versions (by decide) (by decide)

/-- The current branch is in the second batch and is not found there. -/
theorem linkContext_missed :
    Stored versionTables versionParent (ascii "p") (versions.map versionOf) ∧
      ¬ ∃ c, linkContext versionTables ⟨fun _ => 0, fun _ => 9⟩ versionParent .current 10 = .ok c ∧
        Right .current 0 (versions.map versionOf) c := by
  refine ⟨stored_versions, ?_⟩
  rintro ⟨c, hc, hright⟩
  obtain ⟨c', hc', hiff⟩ := exists_linkContext ⟨fun _ => 0, fun _ => 9⟩ stored_versions
    (le_refl 10) (by decide : LinkMode.current ≠ .all)
  rw [hc] at hc'
  obtain rfl := Except.ok.inj hc'
  have hreached := hiff.mp hright (versionOf 0) (List.mem_map_of_mem (by decide)) rfl
  have hlast : (versions.map versionOf).reverse.take 10 =
      (versions.reverse.take 10).map versionOf := by
    rw [← List.map_reverse, ← List.map_take]
  rcases hreached with hin | hnewest
  · have hcount : (10 : ℤ).toNat = 10 := rfl
    rw [hcount, hlast] at hin
    obtain ⟨branch, hbranch, heq⟩ := List.mem_map.mp hin
    have hzero : branch = 0 := congrArg LinkInfo.branch heq
    rw [hzero] at hbranch
    revert hbranch
    decide
  · exact absurd hnewest.1 (by decide)

end LinkContext
end SnapCpp
