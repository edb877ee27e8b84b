import SnapCpp.CssNode

/-!
The copies of trees that `clone()` makes. All the nodes of a copy are new ones, and those of the
original are left as they were. Each of them holds what the node it was made from holds, apart from
the lowercase string, which no copy has.
-/
namespace SnapCpp.CssNode

open Css (Bytes)

variable {s t u v : State} {p q r result : ℕ}

def copyVariable (clone : State → ℕ → Option (ℕ × State)) (s : State) (p source : ℕ) :
    Option State :=
  (s.node source).fVariables.entries.foldlM (fun s v => do
    let (q, s) ← clone s v.2
    return s.set p { s.node p with fVariables := (s.node p).fVariables.insert v.1 q }) s

def cloneValues (s : State) (p : ℕ) : ℕ × State :=
  let (result, s) := s.make (s.node p).fType (s.node p).fPosition
  (result, s.set result { s.node result with
    fBoolean := (s.node p).fBoolean
    fInteger := (s.node p).fInteger
    fDecimalNumber := (s.node p).fDecimalNumber
    fString := (s.node p).fString
    fFlags := (s.node p).fFlags })

/-- `clone()`, with a number of levels that the tree may have. -/
def clone : ℕ → State → ℕ → Option (ℕ × State)
  | 0, _, _ => none
  | levels + 1, s, p => do
      let (result, s) := cloneValues s p
      let s ← (s.node p).fChildren.foldlM (fun s c => do
        let (q, s) ← clone levels s c
        return s.set result { s.node result with fChildren := (s.node result).fChildren ++ [q] }) s
      let s ← copyVariable (clone levels) s result p
      return (result, s)

/-- What `clone()` returns, whatever the number of levels from some on. -/
def Clones (s : State) (p q : ℕ) (t : State) : Prop :=
  ∃ levels, ∀ k, levels ≤ k → clone k s p = some (q, t)

def Node.pointers (n : Node) : List ℕ := n.fChildren ++ n.fVariables.entries.map Prod.snd

def Reach (s : State) : ℕ → ℕ → Prop :=
  Relation.ReflTransGen fun p c => c ∈ (s.node p).pointers

/-- The pointers below a node end after some levels, and lead to nodes that were made. -/
inductive IsTree (s : State) : ℕ → Prop
  | node {p : ℕ} (made : p < s.size) (parts : ∀ c ∈ (s.node p).pointers, IsTree s c) : IsTree s p

inductive Alike (related : Node → Node → Prop) (s t : State) : ℕ → ℕ → Prop
  | node {p q : ℕ} (values : related (s.node p) (t.node q))
      (number : (t.node q).fChildren.length = (s.node p).fChildren.length)
      (names : (t.node q).fVariables.keys = (s.node p).fVariables.keys)
      (parts : ∀ e ∈ (s.node p).pointers.zip (t.node q).pointers, Alike related s t e.1 e.2) :
      Alike related s t p q

/-- What two nodes hold is the same, children and variables apart. -/
structure SameValues (n m : Node) : Prop where
  type : m.fType = n.fType
  position : m.fPosition = n.fPosition
  boolean : m.fBoolean = n.fBoolean
  integer : m.fInteger = n.fInteger
  decimalNumber : m.fDecimalNumber = n.fDecimalNumber
  string : m.fString = n.fString
  lowercaseString : m.fLowercaseString = n.fLowercaseString
  flags : m.fFlags = n.fFlags

/-- The tree at `q` is a copy of the one at `p`: it has the same values in all of its nodes, all of
them are new, and the nodes from before are left as they were. -/
structure DeepCopy (s : State) (p : ℕ) (t : State) (q : ℕ) : Prop where
  same : Alike SameValues s t p q
  fresh : ∀ r, Reach t q r → s.size ≤ r ∧ r < t.size
  kept : ∀ r < s.size, t.node r = s.node r

/-- A later state, in which the nodes from before are left as they were. -/
structure Extends (s t : State) : Prop where
  size : s.size ≤ t.size
  kept : ∀ r < s.size, t.node r = s.node r

theorem Extends.refl (s : State) : Extends s s := ⟨le_rfl, fun _ _ => rfl⟩

theorem Extends.trans (h : Extends s t) (h' : Extends t u) : Extends s u :=
  ⟨h.size.trans h'.size, fun r hr => (h'.kept r (hr.trans_le h.size)).trans (h.kept r hr)⟩

theorem Extends.set {n : Node} (h : Extends s t) (hp : s.size ≤ p) : Extends s (t.set p n) :=
  ⟨h.size, fun r hr => (State.set_node_of_ne _ _ _ _ (by omega)).trans (h.kept r hr)⟩

theorem reach_of_kept (hkept : ∀ r, Reach s p r → t.node r = s.node r) (h : Reach t p q) :
    Reach s p q := by
  induction h with
  | refl => exact Relation.ReflTransGen.refl
  | tail _ hlast ih =>
    rw [hkept _ ih] at hlast
    exact ih.tail hlast

theorem Alike.of_kept {related : Node → Node → Prop} (h : Alike related s t p q)
    (hkept : ∀ r, Reach t q r → u.node r = t.node r) : Alike related s u p q := by
  induction h with
  | @node p q values number names parts ih =>
    have hnode : u.node q = t.node q := hkept q Relation.ReflTransGen.refl
    rw [← hnode] at values number names
    refine Alike.node values number names fun e he => ?_
    rw [hnode] at he
    exact ih e he fun r hr => hkept r (hr.head (List.of_mem_zip he).2)

theorem Alike.length_pointers {related : Node → Node → Prop} (h : Alike related s t p q) :
    (t.node q).pointers.length = (s.node p).pointers.length := by
  cases h with
  | node values number names parts =>
    have hnames := congrArg List.length names
    simp only [OrderedMap.keys, List.length_map] at hnames
    simp only [Node.pointers, List.length_append, List.length_map, number, hnames]

section Loops

variable {ι : Type} {write : ι → ℕ → Node → Node} {pointer : ι → ℕ} {items : List ι}
  {copies : List ℕ} {s₀ : State} {n : Node} {values : List ℕ}

def Copied (n m : Node) : Prop := SameValues { n with fLowercaseString := [] } m

/-- A call of `clone()` that started with the state `s`. The original is looked at in an earlier
state `s₀`. -/
structure Cloned (s₀ s : State) (p : ℕ) (t : State) (q : ℕ) : Prop where
  later : Extends s t
  copied : Alike Copied s₀ t p q
  fresh : ∀ r, Reach t q r → s.size ≤ r ∧ r < t.size

/-- The node at `p` can be cloned from any later state. -/
def Clonable (s₀ : State) (p : ℕ) : Prop :=
  ∀ s, Extends s₀ s → ∃ q t, Clones s p q t ∧ Cloned s₀ s p t q

/-- The loops of `clone()`: a node is cloned, then its copy is written to the result. -/
def cloneLoop (clone : State → ℕ → Option (ℕ × State)) (result : ℕ) (write : ι → ℕ → Node → Node)
    (pointer : ι → ℕ) (s : State) (items : List ι) : Option State :=
  items.foldlM (fun s i => do
    let (q, s) ← clone s (pointer i)
    return s.set result (write i q (s.node result))) s

/-- What a loop leaves when it started with the state `s`. -/
structure Looped (s₀ s : State) (result : ℕ) (write : ι → ℕ → Node → Node) (pointer : ι → ℕ)
    (items : List ι) (copies : List ℕ) (t : State) : Prop where
  number : copies.length = items.length
  size : s.size ≤ t.size
  kept : ∀ r < s.size, r ≠ result → t.node r = s.node r
  written : t.node result =
    (items.zip copies).foldl (fun n e => write e.1 e.2 n) (s.node result)
  copied : ∀ e ∈ (items.map pointer).zip copies, Alike Copied s₀ t e.1 e.2
  fresh : ∀ c ∈ copies, ∀ r, Reach t c r → s.size ≤ r ∧ r < t.size

theorem cloneLoop_spec (write : ι → ℕ → Node → Node) (pointer : ι → ℕ) (items : List ι)
    (hitems : ∀ i ∈ items, Clonable s₀ (pointer i)) (hs : Extends s₀ s)
    (hnew : s₀.size ≤ result) (hmade : result < s.size) :
    ∃ copies t, (∃ levels, ∀ k, levels ≤ k →
        cloneLoop (clone k) result write pointer s items = some t) ∧
      Looped s₀ s result write pointer items copies t := by
  induction items generalizing s with
  | nil =>
    refine ⟨[], s, ⟨0, fun _ _ => rfl⟩, rfl, le_rfl, fun _ _ _ => rfl, rfl, ?_, ?_⟩
    · intro e he
      cases he
    · intro c hc
      cases hc
  | cons i items ih =>
    obtain ⟨hi, hrest⟩ := List.forall_mem_cons.mp hitems
    obtain ⟨q, u, ⟨levels, hclone⟩, hcloned⟩ := hi s hs
    have hsize := hcloned.later.size
    have hresult : u.node result = s.node result := hcloned.later.kept result hmade
    -- the result is written before the next node is cloned
    obtain ⟨copies, t, ⟨levels', hloop⟩, hlooped⟩ :=
      ih (s := u.set result (write i q (u.node result))) hrest
        ((hs.trans hcloned.later).set hnew) (hmade.trans_le hsize)
    have hkept : ∀ r, Reach u q r → t.node r = u.node r := by
      intro r hr
      obtain ⟨hlow, hhigh⟩ := hcloned.fresh r hr
      rw [hlooped.kept r hhigh (by omega), State.set_node_of_ne _ _ _ _ (by omega)]
    refine ⟨q :: copies, t, ⟨max levels levels', fun k hk => ?_⟩, ?_, ?_, ?_, ?_, ?_, ?_⟩
    · rw [cloneLoop, List.foldlM_cons, hclone k ((le_max_left _ _).trans hk)]
      exact hloop k ((le_max_right _ _).trans hk)
    · rw [List.length_cons, List.length_cons, hlooped.number]
    · exact hsize.trans hlooped.size
    · intro r hr hne
      rw [hlooped.kept r (hr.trans_le hsize) hne, State.set_node_of_ne _ _ _ _ hne,
        hcloned.later.kept r hr]
    · rw [hlooped.written, State.set_node_self, hresult]
      rfl
    · rw [List.map_cons, List.zip_cons_cons, List.forall_mem_cons]
      exact ⟨hcloned.copied.of_kept hkept, hlooped.copied⟩
    · rw [List.forall_mem_cons]
      refine ⟨fun r hr => ?_, fun c hc r hr => ?_⟩
      · obtain ⟨hlow, hhigh⟩ := hcloned.fresh r (reach_of_kept hkept hr)
        exact ⟨hlow, hhigh.trans_le hlooped.size⟩
      · obtain ⟨hlow, hhigh⟩ := hlooped.fresh c hc r hr
        exact ⟨hsize.trans hlow, hhigh⟩

theorem foldl_children (n : Node) (h : copies.length = items.length) :
    (items.zip copies).foldl (fun n e => { n with fChildren := n.fChildren ++ [e.2] }) n =
      { n with fChildren := n.fChildren ++ copies } := by
  induction items generalizing n copies with
  | nil =>
    rw [List.length_eq_zero_iff.mp h, List.append_nil]
    rfl
  | cons i items ih =>
    cases copies with
    | nil => cases h
    | cons c copies =>
      rw [List.zip_cons_cons, List.foldl_cons, ih _ (Nat.succ.inj h)]
      simp only [List.append_assoc, List.singleton_append]

theorem foldl_variables (n : Node) (l : List ((Bytes × ℕ) × ℕ)) :
    l.foldl (fun n e => { n with fVariables := n.fVariables.insert e.1.1 e.2 }) n =
      { n with fVariables :=
          (l.map fun e => (e.1.1, e.2)).foldl (fun m e => m.insert e.1 e.2) n.fVariables } := by
  induction l generalizing n with
  | nil => rfl
  | cons e l ih => rw [List.foldl_cons, ih, List.map_cons, List.foldl_cons]

def copyOf (n : Node) (children values : List ℕ) : Node :=
  { n with
    fLowercaseString := []
    fChildren := children
    fVariables := ((n.fVariables.entries.zip values).map fun e => (e.1.1, e.2)).foldl
      (fun m e => m.insert e.1 e.2) .empty }

theorem entries_copyOf {children : List ℕ}
    (h : values.length = n.fVariables.entries.length) :
    (copyOf n children values).fVariables.entries = n.fVariables.keys.zip values := by
  have hzip : (n.fVariables.entries.zip values).map (fun e => (e.1.1, e.2)) =
      n.fVariables.keys.zip values := by
    rw [OrderedMap.keys, List.zip_map_left]
    rfl
  rw [copyOf, hzip]
  refine OrderedMap.entries_foldl_insert ?_
  have hkeys : (n.fVariables.keys.zip values).map Prod.fst = n.fVariables.keys :=
    List.map_fst_zip (by rw [OrderedMap.keys, List.length_map, h])
  have hsorted := n.fVariables.keys_sorted
  rw [← hkeys, List.pairwise_map] at hsorted
  exact hsorted

theorem keys_copyOf {children : List ℕ}
    (h : values.length = n.fVariables.entries.length) :
    (copyOf n children values).fVariables.keys = n.fVariables.keys := by
  rw [OrderedMap.keys, entries_copyOf h]
  exact List.map_fst_zip (by rw [OrderedMap.keys, List.length_map, h])

theorem pointers_copyOf (children : List ℕ) (h : values.length = n.fVariables.entries.length) :
    (copyOf n children values).pointers = children ++ values := by
  rw [Node.pointers, entries_copyOf h]
  refine congrArg (children ++ ·) (List.map_snd_zip ?_)
  rw [OrderedMap.keys, List.length_map, h]

end Loops

theorem cloneValues_spec (hp : p < s.size) :
    ∃ t, cloneValues s p = (s.size, t) ∧ t.size = s.size + 1 ∧ Extends s t ∧
      t.node s.size = { s.node p with
        fLowercaseString := [], fChildren := [], fVariables := .empty } := by
  have hne : p ≠ s.size := hp.ne
  refine ⟨_, rfl, rfl, ⟨Nat.le_succ _, fun r hr => ?_⟩, ?_⟩
  · change ((s.set s.size _).set s.size _).node r = _
    rw [State.set_node_of_ne _ _ _ _ hr.ne, State.set_node_of_ne _ _ _ _ hr.ne]
  · simp only [State.set, Function.update_self, Function.update_of_ne hne]

theorem clone_of_loops {k : ℕ} (hvalues : cloneValues s p = (result, t))
    (hchildren : cloneLoop (clone k) result
      (fun _ q n => { n with fChildren := n.fChildren ++ [q] }) id t (t.node p).fChildren = some u)
    (hvariables : cloneLoop (clone k) result
      (fun e q n => { n with fVariables := n.fVariables.insert e.1 q }) Prod.snd u
      (u.node p).fVariables.entries = some v) :
    clone (k + 1) s p = some (result, v) := by
  have hclone : clone (k + 1) s p =
      (cloneLoop (clone k) (cloneValues s p).1
        (fun _ q n => { n with fChildren := n.fChildren ++ [q] }) id (cloneValues s p).2
        ((cloneValues s p).2.node p).fChildren).bind fun u =>
      (cloneLoop (clone k) (cloneValues s p).1
        (fun e q n => { n with fVariables := n.fVariables.insert e.1 q }) Prod.snd u
        (u.node p).fVariables.entries).bind fun v => some ((cloneValues s p).1, v) := rfl
  rw [hclone, hvalues, hchildren, Option.bind_some, hvariables, Option.bind_some]

theorem IsTree.clonable (h : IsTree s p) : Clonable s p := by
  induction h with
  | @node p made parts ih =>
    intro t ht
    obtain ⟨t₁, hvalues, hsize₁, hext₁, hnode₁⟩ := cloneValues_spec (made.trans_le ht.size)
    have hst₁ := ht.trans hext₁
    obtain ⟨children, t₂, ⟨levels₁, hloop₁⟩, hlooped₁⟩ :=
      cloneLoop_spec (fun _ q n => { n with fChildren := n.fChildren ++ [q] }) id
        (s.node p).fChildren
        (fun c hc => ih c (List.mem_append_left _ hc)) hst₁ ht.size (by omega : t.size < t₁.size)
    have hst₂ : Extends s t₂ := by
      refine ⟨hst₁.size.trans hlooped₁.size, fun r hr => ?_⟩
      rw [hlooped₁.kept r (hr.trans_le hst₁.size) (by have := ht.size; omega), hst₁.kept r hr]
    obtain ⟨values, t₃, ⟨levels₂, hloop₂⟩, hlooped₂⟩ :=
      cloneLoop_spec
        (fun e q n => { n with fVariables := n.fVariables.insert e.1 q }) Prod.snd
        (s.node p).fVariables.entries
        (fun e he => ih e.2 (List.mem_append_right _ (List.mem_map_of_mem he))) hst₂ ht.size
        (by have := hlooped₁.size; omega : t.size < t₂.size)
    have hresult : t₃.node t.size = copyOf (s.node p) children values := by
      rw [hlooped₂.written, foldl_variables, hlooped₁.written, foldl_children _ hlooped₁.number,
        hnode₁, ht.kept p made]
      rfl
    have hpointers := pointers_copyOf children hlooped₂.number
    -- the copies of the children are left as they are while the variables are cloned
    have hfresh₁ : ∀ c ∈ children, ∀ r, Reach t₂ c r → t.size < r ∧ t₃.node r = t₂.node r := by
      intro c hc r hr
      obtain ⟨hlow, hhigh⟩ := hlooped₁.fresh c hc r hr
      exact ⟨by omega, hlooped₂.kept r hhigh (by omega)⟩
    have hfresh : ∀ c ∈ (t₃.node t.size).pointers, ∀ r, Reach t₃ c r →
        t.size ≤ r ∧ r < t₃.size := by
      intro c hc r hr
      rw [hresult, hpointers, List.mem_append] at hc
      rcases hc with hc | hc
      · have hr₂ := reach_of_kept (fun r hr => (hfresh₁ c hc r hr).2) hr
        exact ⟨(hfresh₁ c hc r hr₂).1.le,
          (hlooped₁.fresh c hc r hr₂).2.trans_le hlooped₂.size⟩
      · obtain ⟨hlow, hhigh⟩ := hlooped₂.fresh c hc r hr
        have := hlooped₁.size
        exact ⟨by omega, hhigh⟩
    refine ⟨t.size, t₃, ⟨max levels₁ levels₂ + 1, fun k hk => ?_⟩, ?_, ?_, ?_⟩
    · obtain ⟨k, rfl⟩ : ∃ m, k = m + 1 := ⟨k - 1, by omega⟩
      have hk := Nat.le_of_succ_le_succ hk
      refine clone_of_loops (u := t₂) hvalues ?_ ?_
      · rw [hst₁.kept p made]
        exact hloop₁ k ((le_max_left _ _).trans hk)
      · rw [hst₂.kept p made]
        exact hloop₂ k ((le_max_right _ _).trans hk)
    · refine ⟨by have := hlooped₁.size; have := hlooped₂.size; omega, fun r hr => ?_⟩
      rw [hlooped₂.kept r (by have := hlooped₁.size; omega) hr.ne,
        hlooped₁.kept r (by omega) hr.ne, hext₁.kept r hr]
    · refine Alike.node ?_ ?_ ?_ ?_
      · rw [hresult]
        exact ⟨rfl, rfl, rfl, rfl, rfl, rfl, rfl, rfl⟩
      · rw [hresult]
        exact hlooped₁.number
      · rw [hresult]
        exact keys_copyOf hlooped₂.number
      · intro e he
        rw [hresult, hpointers, Node.pointers, List.zip_append hlooped₁.number.symm,
          List.mem_append] at he
        rcases he with he | he
        · rw [← List.map_id (s.node p).fChildren] at he
          exact (hlooped₁.copied e he).of_kept fun r hr =>
            (hfresh₁ e.2 (List.of_mem_zip he).2 r hr).2
        · exact hlooped₂.copied e he
    · intro r hr
      rcases Relation.ReflTransGen.cases_head hr with rfl | ⟨c, hc, hr⟩
      · have := hlooped₁.size
        have := hlooped₂.size
        exact ⟨le_rfl, by omega⟩
      · exact hfresh c hc r hr

theorem same_iff (h : Alike Copied s t p q) :
    Alike SameValues s t p q ↔ ∀ r, Reach s p r → (s.node r).fLowercaseString = [] := by
  induction h with
  | @node p q values number names parts ih =>
    have hlength := (Alike.node values number names parts).length_pointers
    constructor
    · intro hsame r hr
      cases hsame with
      | node values' _ _ parts' =>
        rcases Relation.ReflTransGen.cases_head hr with rfl | ⟨c, hc, hr⟩
        · exact values'.lowercaseString.symm.trans values.lowercaseString
        · obtain ⟨i, hi, rfl⟩ := List.mem_iff_getElem.mp hc
          have hzip := List.getElem_mem (l := (s.node p).pointers.zip (t.node q).pointers) (n := i)
            (by rw [List.length_zip, hlength, min_self]; exact hi)
          have hsub := (ih _ hzip).mp (parts' _ hzip)
          rw [List.getElem_zip] at hsub
          exact hsub r hr
    · intro hempty
      have hp := hempty p Relation.ReflTransGen.refl
      refine Alike.node ⟨values.type, values.position, values.boolean, values.integer,
        values.decimalNumber, values.string, values.lowercaseString.trans hp.symm, values.flags⟩
        number names fun e he => (ih e he).mpr fun r hr => ?_
      exact hempty r (hr.head (List.of_mem_zip he).1)

/-- `clone()` ends on every tree. It makes a deep copy exactly when no node of the tree has a
lowercase string. -/
theorem clone_deepCopy_iff (s : State) (p : ℕ) (h : IsTree s p) :
    ∃ q t, Clones s p q t ∧
      (DeepCopy s p t q ↔ ∀ r, Reach s p r → (s.node r).fLowercaseString = []) := by
  obtain ⟨q, t, hclones, hcloned⟩ := h.clonable s (Extends.refl s)
  refine ⟨q, t, hclones, ?_⟩
  rw [← same_iff hcloned.copied]
  exact ⟨fun hcopy => hcopy.same, fun hsame => ⟨hsame, hcloned.fresh, hcloned.later.kept⟩⟩

def smallTree : State where
  node
    | 0 => { fType := .list, fChildren := [1], fVariables := OrderedMap.empty.insert [120] 2 }
    | 1 => { fType := .identifier, fString := [97] }
    | _ => { fType := .string, fString := [98] }
  size := 3

theorem smallTree_isTree : IsTree smallTree 0 := by
  refine IsTree.node (by decide) fun c hc => ?_
  have hc : c ∈ [1, 2] := hc
  rw [List.mem_cons, List.mem_singleton] at hc
  rcases hc with rfl | rfl
  · exact IsTree.node (by decide) fun c hc => absurd hc (List.not_mem_nil (a := c))
  · exact IsTree.node (by decide) fun c hc => absurd hc (List.not_mem_nil (a := c))

theorem clone_deepCopy_smallTree : IsTree smallTree 0 ∧ ∃ q t, Clones smallTree 0 q t ∧
    (DeepCopy smallTree 0 t q ↔ ∀ r, Reach smallTree 0 r →
      (smallTree.node r).fLowercaseString = []) :=
  ⟨smallTree_isTree, clone_deepCopy_iff smallTree 0 smallTree_isTree⟩

example : (clone 2 smallTree 0).map (fun r => (r.1, (r.2.node r.1).pointers)) =
    some (3, [4, 5]) := by decide

def identifierA : State where
  node _ := { fType := .identifier, fString := [65], fLowercaseString := [97] }
  size := 1

/-- The copy of an identifier is none: it has no lowercase string. -/
theorem clone_loses_lowercase :
    IsTree identifierA 0 ∧ ¬ ∃ q t, Clones identifierA 0 q t ∧ DeepCopy identifierA 0 t q := by
  refine ⟨IsTree.node (by decide) fun c hc => absurd hc (List.not_mem_nil (a := c)), ?_⟩
  rintro ⟨q, t, ⟨levels, hclone⟩, hcopy⟩
  have hlevel := hclone (levels + 1) (Nat.le_succ levels)
  obtain ⟨rfl, rfl⟩ := Prod.mk.inj (Option.some.inj hlevel)
  cases hcopy.same with
  | node values _ _ _ => exact absurd values.lowercaseString (by decide)

end SnapCpp.CssNode
