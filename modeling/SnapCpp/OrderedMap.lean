import Mathlib

/-!
Ordered associative containers. An `OrderedMap` lists its entries by strictly
increasing key, so the first entry is the smallest one and iteration follows
the key order. A `GroupedMap` is a map of such maps in which no group is ever
empty: erasing the last key of a group erases the group. Both types carry
their ordering and non-emptiness conditions as fields.
-/
namespace SnapCpp

/-- Entries sorted by strictly increasing key, at most one for each key. -/
structure OrderedMap (K V : Type*) [LinearOrder K] where
  entries : List (K × V)
  sorted : entries.Pairwise (fun a b => a.1 < b.1)

namespace OrderedMap

variable {K V : Type*} [LinearOrder K] {m : OrderedMap K V} {k : K}

def empty : OrderedMap K V := ⟨[], List.Pairwise.nil⟩

instance : Inhabited (OrderedMap K V) := ⟨empty⟩

theorem ext_entries {m' : OrderedMap K V} (h : m.entries = m'.entries) : m = m' := by
  cases m
  cases m'
  cases h
  rfl

instance [DecidableEq V] : DecidableEq (OrderedMap K V) := fun m m' =>
  decidable_of_iff (m.entries = m'.entries) ⟨ext_entries, fun h => by rw [h]⟩

def findEntry (k : K) : List (K × V) → Option V
  | [] => none
  | e :: rest => if e.1 = k then some e.2 else findEntry k rest

def find? (m : OrderedMap K V) (k : K) : Option V := findEntry k m.entries

def insertEntry (k : K) (v : V) : List (K × V) → List (K × V)
  | [] => [(k, v)]
  | e :: rest =>
      if k < e.1 then (k, v) :: e :: rest
      else if k = e.1 then (k, v) :: rest
      else e :: insertEntry k v rest

theorem mem_insertEntry (k : K) (v : V) (l : List (K × V)) (e : K × V)
    (h : e ∈ insertEntry k v l) : e = (k, v) ∨ e ∈ l := by
  induction l with
  | nil => simpa [insertEntry] using h
  | cons a rest ih =>
    unfold insertEntry at h
    split_ifs at h with hlt heq
    · simpa using h
    · rcases List.mem_cons.mp h with he | he
      · exact Or.inl he
      · exact Or.inr (List.mem_cons_of_mem _ he)
    · rcases List.mem_cons.mp h with he | he
      · exact Or.inr (by simp [he])
      · rcases ih he with hk | hr
        · exact Or.inl hk
        · exact Or.inr (List.mem_cons_of_mem _ hr)

theorem insertEntry_sorted (k : K) (v : V) (l : List (K × V))
    (h : l.Pairwise (fun a b => a.1 < b.1)) :
    (insertEntry k v l).Pairwise (fun a b => a.1 < b.1) := by
  induction l with
  | nil => simp [insertEntry]
  | cons a rest ih =>
    obtain ⟨hhead, htail⟩ := List.pairwise_cons.mp h
    unfold insertEntry
    split_ifs with hlt heq
    · refine List.pairwise_cons.mpr ⟨?_, h⟩
      intro b hb
      rcases List.mem_cons.mp hb with rfl | hb
      · exact hlt
      · exact lt_trans hlt (hhead b hb)
    · refine List.pairwise_cons.mpr ⟨?_, htail⟩
      intro b hb
      simpa [heq] using hhead b hb
    · refine List.pairwise_cons.mpr ⟨?_, ih htail⟩
      intro b hb
      rcases mem_insertEntry k v rest b hb with rfl | hb
      · exact lt_of_le_of_ne (not_lt.mp hlt) (Ne.symm heq)
      · exact hhead b hb

/-- Assign a value to a key, replacing the previous value if any. -/
def insert (m : OrderedMap K V) (k : K) (v : V) : OrderedMap K V :=
  ⟨insertEntry k v m.entries, insertEntry_sorted k v m.entries m.sorted⟩

def erase (m : OrderedMap K V) (k : K) : OrderedMap K V :=
  ⟨m.entries.filter (fun e => e.1 ≠ k), m.sorted.filter _⟩

def retain (m : OrderedMap K V) (p : V → Bool) : OrderedMap K V :=
  ⟨m.entries.filter (fun e => p e.2), m.sorted.filter _⟩

def keys (m : OrderedMap K V) : List K := m.entries.map Prod.fst

def size (m : OrderedMap K V) : ℕ := m.entries.length

def isEmpty (m : OrderedMap K V) : Bool := m.entries.isEmpty

def Has (m : OrderedMap K V) (k : K) : Prop := m.find? k ≠ none

instance (m : OrderedMap K V) (k : K) : Decidable (m.Has k) :=
  inferInstanceAs (Decidable (¬ m.find? k = none))

@[simp] theorem find?_empty (k : K) : (empty : OrderedMap K V).find? k = none := rfl

theorem findEntry_insertEntry (k k' : K) (v : V) (l : List (K × V)) :
    findEntry k' (insertEntry k v l) = if k' = k then some v else findEntry k' l := by
  induction l with
  | nil => simp [insertEntry, findEntry, eq_comm]
  | cons a rest ih =>
    by_cases hk : k' = k
    · subst hk
      simp only [insertEntry]
      split_ifs with hlt heq
      · simp [findEntry]
      · simp [findEntry]
      · simpa [findEntry, Ne.symm heq] using ih
    · simp only [insertEntry]
      split_ifs with hlt heq
      · simp [findEntry, Ne.symm hk]
      · subst heq
        simp [findEntry, Ne.symm hk]
      · simpa [findEntry, hk] using congrArg (fun r => if a.1 = k' then some a.2 else r) ih

/-- Assignment changes the value of its own key and nothing else. -/
@[simp] theorem find?_insert (m : OrderedMap K V) (k k' : K) (v : V) :
    (m.insert k v).find? k' = if k' = k then some v else m.find? k' :=
  findEntry_insertEntry k k' v m.entries

theorem findEntry_filter_ne (k k' : K) (l : List (K × V)) :
    findEntry k' (l.filter (fun e => e.1 ≠ k)) =
      if k' = k then none else findEntry k' l := by
  induction l with
  | nil => simp [findEntry]
  | cons a rest ih =>
    by_cases ha : a.1 = k
    · subst ha
      by_cases hk : k' = a.1
      · simpa [findEntry, hk] using ih
      · simpa [findEntry, hk, Ne.symm hk] using ih
    · by_cases hk : k' = k
      · subst hk
        simpa [findEntry, ha] using ih
      · simpa [findEntry, ha, hk] using congrArg (fun r => if a.1 = k' then some a.2 else r) ih

/-- Erasing forgets its own key and nothing else. -/
@[simp] theorem find?_erase (m : OrderedMap K V) (k k' : K) :
    (m.erase k).find? k' = if k' = k then none else m.find? k' :=
  findEntry_filter_ne k k' m.entries

theorem mem_of_findEntry (k : K) (v : V) (l : List (K × V)) (h : findEntry k l = some v) :
    (k, v) ∈ l := by
  induction l with
  | nil => cases h
  | cons a rest ih =>
    unfold findEntry at h
    split_ifs at h with ha
    · cases h
      subst ha
      exact List.mem_cons_self ..
    · exact List.mem_cons_of_mem _ (ih h)

theorem findEntry_of_mem (k : K) (v : V) (l : List (K × V))
    (hs : l.Pairwise (fun a b => a.1 < b.1)) (h : (k, v) ∈ l) : findEntry k l = some v := by
  induction l with
  | nil => cases h
  | cons a rest ih =>
    obtain ⟨hhead, htail⟩ := List.pairwise_cons.mp hs
    rcases List.mem_cons.mp h with rfl | hrest
    · simp [findEntry]
    · have hlt : a.1 < k := hhead (k, v) hrest
      simpa [findEntry, ne_of_lt hlt] using ih htail hrest

/-- The entries are exactly the keys paired with their values. -/
theorem mem_entries_iff (m : OrderedMap K V) (k : K) (v : V) :
    (k, v) ∈ m.entries ↔ m.find? k = some v :=
  ⟨findEntry_of_mem k v m.entries m.sorted, mem_of_findEntry k v m.entries⟩

theorem find?_retain {p : V → Bool} {v : V}
    (h : m.find? k = some v) (hv : p v = true) : (m.retain p).find? k = some v := by
  rw [← mem_entries_iff] at h ⊢
  exact List.mem_filter.mpr ⟨h, hv⟩

theorem has_of_has_retain {p : V → Bool} (h : (m.retain p).Has k) :
    m.Has k := by
  obtain ⟨v, hv⟩ := Option.ne_none_iff_exists'.mp h
  have hmem := (mem_entries_iff _ k v).mpr hv
  exact Option.ne_none_iff_exists'.mpr
    ⟨v, (mem_entries_iff m k v).mp (List.mem_filter.mp hmem).1⟩

theorem has_iff_mem_keys (m : OrderedMap K V) (k : K) : m.Has k ↔ k ∈ m.keys := by
  constructor
  · intro h
    obtain ⟨v, hv⟩ := Option.ne_none_iff_exists'.mp h
    exact List.mem_map.mpr ⟨(k, v), (mem_entries_iff m k v).mpr hv, rfl⟩
  · intro h
    obtain ⟨⟨k', v⟩, hmem, rfl⟩ := List.mem_map.mp h
    intro hnone
    rw [(mem_entries_iff m k' v).mp hmem] at hnone
    cases hnone

theorem insert_entries_ne_nil (m : OrderedMap K V) (k : K) (v : V) :
    (m.insert k v).entries ≠ [] := by
  intro h
  have hf := find?_insert m k k v
  have hnone : (m.insert k v).find? k = none := by simp [find?, h, findEntry]
  rw [hnone] at hf
  simp at hf

/-- Maps that store the same values under the same keys are equal. -/
theorem ext_find? (m m' : OrderedMap K V) (h : ∀ k, m.find? k = m'.find? k) : m = m' := by
  have hmem : ∀ e : K × V, e ∈ m.entries ↔ e ∈ m'.entries := by
    intro e
    rw [mem_entries_iff m e.1 e.2, mem_entries_iff m' e.1 e.2, h e.1]
  have hnodup : ∀ x : OrderedMap K V, x.entries.Nodup := fun x =>
    x.sorted.imp (fun {a b} hlt heq => absurd (congrArg Prod.fst heq) (ne_of_lt hlt))
  have hperm : m.entries.Perm m'.entries :=
    (List.perm_ext_iff_of_nodup (hnodup m) (hnodup m')).mpr hmem
  have heq : m.entries = m'.entries := hperm.eq_of_pairwise
    (fun a b _ _ hab hba => absurd hab (lt_asymm hba)) m.sorted m'.sorted
  exact ext_entries heq

theorem length_insertEntry (k : K) (v : V) (l : List (K × V)) (h : findEntry k l = none) :
    (insertEntry k v l).length = l.length + 1 := by
  induction l with
  | nil => rfl
  | cons a rest ih =>
    unfold findEntry at h
    split_ifs at h with ha
    unfold insertEntry
    split_ifs with hlt heq
    · rfl
    · exact absurd heq.symm ha
    · simpa using ih h

theorem size_insert (m : OrderedMap K V) (k : K) (v : V) (h : ¬ m.Has k) :
    (m.insert k v).size = m.size + 1 :=
  length_insertEntry k v m.entries (not_not.mp h)

theorem keys_nodup (m : OrderedMap K V) : m.keys.Nodup := by
  unfold keys
  rw [List.Nodup, List.pairwise_map]
  exact m.sorted.imp (fun hlt => ne_of_lt hlt)

theorem keys_sorted (m : OrderedMap K V) : m.keys.Pairwise (· < ·) := by
  unfold keys
  rw [List.pairwise_map]
  exact m.sorted

theorem keys_eq_of_has {V' : Type*} (m : OrderedMap K V) (m' : OrderedMap K V')
    (h : ∀ k, m.Has k ↔ m'.Has k) : m.keys = m'.keys := by
  have hperm : m.keys.Perm m'.keys := by
    refine (List.perm_ext_iff_of_nodup m.keys_nodup m'.keys_nodup).mpr ?_
    intro k
    rw [← has_iff_mem_keys, ← has_iff_mem_keys]
    exact h k
  exact hperm.eq_of_pairwise (fun a b _ _ hab hba => absurd hab (lt_asymm hba))
    m.keys_sorted m'.keys_sorted

theorem size_eq_length_keys (m : OrderedMap K V) : m.size = m.keys.length := by
  simp [size, keys]

theorem insertEntry_last {v : V} {l : List (K × V)} (h : ∀ a ∈ l, a.1 < k) :
    insertEntry k v l = l ++ [(k, v)] := by
  induction l with
  | nil => rfl
  | cons a l ih =>
    obtain ⟨ha, hl⟩ := List.forall_mem_cons.mp h
    rw [insertEntry, if_neg (not_lt.mpr ha.le), if_neg ha.ne', ih hl, List.cons_append]

theorem entries_foldl_insert {l : List (K × V)} (h : l.Pairwise fun a b => a.1 < b.1) :
    (l.foldl (fun m e => m.insert e.1 e.2) (empty : OrderedMap K V)).entries = l := by
  induction l using List.reverseRecOn with
  | nil => rfl
  | append_singleton l e ih =>
    obtain ⟨hl, -, hlast⟩ := List.pairwise_append.mp h
    rw [List.foldl_append, List.foldl_cons, List.foldl_nil]
    show insertEntry _ _ _ = _
    rw [ih hl]
    exact insertEntry_last fun a ha => hlast a ha e (List.mem_singleton_self e)

theorem foldl_insert_entries (m : OrderedMap K V) :
    m.entries.foldl (fun m e => m.insert e.1 e.2) empty = m :=
  ext_entries (entries_foldl_insert m.sorted)

end OrderedMap

/-- A map of non-empty maps: a group exists exactly while it has a key. -/
structure GroupedMap (G K V : Type*) [LinearOrder G] [LinearOrder K] where
  groups : OrderedMap G (OrderedMap K V)
  nonempty : ∀ g m, groups.find? g = some m → m.entries ≠ []

namespace GroupedMap

variable {G K V : Type*} [LinearOrder G] [LinearOrder K] {m : GroupedMap G K V}

def empty : GroupedMap G K V := ⟨OrderedMap.empty, by simp⟩

instance : Inhabited (GroupedMap G K V) := ⟨empty⟩

def group (m : GroupedMap G K V) (g : G) : OrderedMap K V :=
  (m.groups.find? g).getD OrderedMap.empty

def names (m : GroupedMap G K V) : List G := m.groups.keys

def assign (m : GroupedMap G K V) (g : G) (k : K) (v : V) : GroupedMap G K V where
  groups := m.groups.insert g ((m.group g).insert k v)
  nonempty := by
    intro g' inner h
    rw [OrderedMap.find?_insert] at h
    split_ifs at h with hg
    · cases h
      exact OrderedMap.insert_entries_ne_nil _ _ _
    · exact m.nonempty g' inner h

def eraseKey (m : GroupedMap G K V) (g : G) (k : K) : GroupedMap G K V :=
  if h : ((m.group g).erase k).entries = [] then
    { groups := m.groups.erase g
      nonempty := by
        intro g' inner hf
        rw [OrderedMap.find?_erase] at hf
        split_ifs at hf with hg
        exact m.nonempty g' inner hf }
  else
    { groups := m.groups.insert g ((m.group g).erase k)
      nonempty := by
        intro g' inner hf
        rw [OrderedMap.find?_insert] at hf
        split_ifs at hf with hg
        · cases hf
          exact h
        · exact m.nonempty g' inner hf }

@[simp] theorem group_empty (g : G) :
    (empty : GroupedMap G K V).group g = OrderedMap.empty := rfl

theorem OrderedMap.eq_empty_of_entries (m : OrderedMap K V) (h : m.entries = []) :
    m = OrderedMap.empty := by
  cases m
  cases h
  rfl

@[simp] theorem group_assign (m : GroupedMap G K V) (g g' : G) (k : K) (v : V) :
    (m.assign g k v).group g' =
      if g' = g then (m.group g).insert k v else m.group g' := by
  unfold group assign
  rw [OrderedMap.find?_insert]
  split_ifs <;> rfl

@[simp] theorem group_eraseKey (m : GroupedMap G K V) (g g' : G) (k : K) :
    (m.eraseKey g k).group g' = if g' = g then (m.group g).erase k else m.group g' := by
  unfold eraseKey
  split_ifs with hempty hg hg
  · subst hg
    have hnone : (m.groups.erase g').find? g' = none := by simp
    rw [OrderedMap.eq_empty_of_entries _ hempty]
    simp [group]
  · simp [group, hg]
  · simp [group, hg]
  · simp [group, hg]

theorem mem_names_iff (m : GroupedMap G K V) (g : G) :
    g ∈ m.names ↔ (m.group g).entries ≠ [] := by
  unfold names group
  rw [← OrderedMap.has_iff_mem_keys]
  unfold OrderedMap.Has
  cases h : m.groups.find? g with
  | none => simp [OrderedMap.empty]
  | some inner => simpa using m.nonempty g inner h

def value (m : GroupedMap G K V) (g : G) (k : K) : Option V := (m.group g).find? k

def hasGroup (m : GroupedMap G K V) (g : G) : Bool := !(m.group g).entries.isEmpty

@[simp] theorem value_empty (g : G) (k : K) : (empty : GroupedMap G K V).value g k = none := rfl

@[simp] theorem value_assign (m : GroupedMap G K V) (g g' : G) (k k' : K) (v : V) :
    (m.assign g k v).value g' k' = if g' = g ∧ k' = k then some v else m.value g' k' := by
  unfold value
  rw [group_assign]
  by_cases hg : g' = g
  · subst hg
    simp
  · simp [hg]

@[simp] theorem value_eraseKey (m : GroupedMap G K V) (g g' : G) (k k' : K) :
    (m.eraseKey g k).value g' k' = if g' = g ∧ k' = k then none else m.value g' k' := by
  unfold value
  rw [group_eraseKey]
  by_cases hg : g' = g
  · subst hg
    simp
  · simp [hg]

theorem hasGroup_of_value {g : G} {k : K} {v : V}
    (h : m.value g k = some v) : m.hasGroup g = true := by
  have hmem := OrderedMap.mem_of_findEntry k v _ h
  simp [hasGroup, List.ne_nil_of_mem hmem]

theorem mem_group_iff (m : GroupedMap G K V) (g : G) (k : K) (v : V) :
    (k, v) ∈ (m.group g).entries ↔ m.value g k = some v :=
  OrderedMap.mem_entries_iff _ k v

/-- Two maps with the same values are the same. -/
theorem ext_value {m' : GroupedMap G K V} (h : ∀ g k, m.value g k = m'.value g k) : m = m' := by
  have hgroup (g : G) : m.group g = m'.group g := OrderedMap.ext_find? _ _ (h g)
  have hfind (m : GroupedMap G K V) (g : G) : m.groups.find? g =
      if (m.group g).entries = [] then none else some (m.group g) := by
    cases hg : m.groups.find? g with
    | none => simp [group, hg, OrderedMap.empty]
    | some inner => simp [group, hg, m.nonempty g inner hg]
  have hgroups : m.groups = m'.groups := by
    refine OrderedMap.ext_find? _ _ (fun g => ?_)
    rw [hfind m g, hfind m' g, hgroup g]
  cases m
  cases m'
  simp only at hgroups
  subst hgroups
  rfl

theorem assign_of_value {g : G} {k : K} {v : V}
    (h : m.value g k = some v) : m.assign g k v = m := by
  have hgroup : m.groups.find? g = some (m.group g) := by
    cases hg : m.groups.find? g with
    | none => simp [value, group, hg] at h
    | some inner => simp [group, hg]
  have hinner : (m.group g).insert k v = m.group g := by
    refine OrderedMap.ext_find? _ _ (fun k' => ?_)
    rw [OrderedMap.find?_insert]
    split_ifs with hk
    · rw [hk]
      exact h.symm
    · rfl
  have hgroups : m.groups.insert g (m.group g) = m.groups := by
    refine OrderedMap.ext_find? _ _ (fun g' => ?_)
    rw [OrderedMap.find?_insert]
    split_ifs with hg
    · rw [hg, hgroup]
    · rfl
  cases m
  simp only [assign, hinner, hgroups]

end GroupedMap
end SnapCpp
