import Mathlib

/-!
Lists cut at a separator. Every list is its pieces with the separator between them; a function
that turns the separator into one element, and makes that of nothing else, keeps the pieces
apart.
-/
namespace SnapCpp.Pieces

variable {α β : Type*} {x : α} {y : β} {ps : List (List α)} {sep p : List α} {f : α → List β}

/-- The first element without a property. -/
theorem exists_first {P : α → Prop} {l : List α} (h : ¬ ∀ a ∈ l, P a) :
    ∃ front a back, l = front ++ a :: back ∧ (∀ b ∈ front, P b) ∧ ¬ P a := by
  induction l with
  | nil => exact absurd (fun a ha => by cases ha) h
  | cons b rest ih =>
    by_cases hb : P b
    · obtain ⟨front, a, back, rfl, hfront, ha⟩ := ih (fun hall => h (List.forall_mem_cons.mpr
        ⟨hb, hall⟩))
      exact ⟨b :: front, a, back, rfl, List.forall_mem_cons.mpr ⟨hb, hfront⟩, ha⟩
    · exact ⟨[], b, rest, rfl, by simp, hb⟩

theorem first_cut_inj {z : α} {a b u v : List α} (ha : z ∉ a) (hb : x ∉ b)
    (h : a ++ x :: u = b ++ z :: v) : a = b ∧ x = z ∧ u = v := by
  induction a generalizing b with
  | nil =>
    cases b with
    | nil => exact ⟨rfl, List.cons.inj h⟩
    | cons d b => exact absurd ((List.cons.inj h).1 ▸ List.mem_cons_self) hb
  | cons c a ih =>
    cases b with
    | nil => exact absurd ((List.cons.inj h).1 ▸ List.mem_cons_self) ha
    | cons d b =>
      obtain ⟨rfl, hrest⟩ := List.cons.inj h
      obtain ⟨rfl, hu⟩ :=
        ih (List.not_mem_of_not_mem_cons ha) (List.not_mem_of_not_mem_cons hb) hrest
      exact ⟨rfl, hu⟩

theorem last_cut_inj {a b u v : List α} (hu : x ∉ u) (hv : x ∉ v)
    (h : a ++ x :: u = b ++ x :: v) : a = b ∧ u = v := by
  have hreverse : u.reverse ++ x :: a.reverse = v.reverse ++ x :: b.reverse := by
    simpa using congrArg List.reverse h
  obtain ⟨hfirst, _, hlast⟩ := first_cut_inj (by simpa using hu) (by simpa using hv) hreverse
  exact ⟨List.reverse_inj.mp hlast, List.reverse_inj.mp hfirst⟩

theorem intercalate_nil_cons (x : α) (ws : List (List α)) :
    [x].intercalate ([] :: ws) = ws.flatMap (x :: ·) := by
  induction ws with
  | nil => simp [List.intercalate]
  | cons w ws ih =>
    cases ws with
    | nil => simp [List.intercalate]
    | cons v vs => simpa [List.intercalate] using ih

theorem intercalate_concat_nil (x : α) (ws : List (List α)) :
    [x].intercalate (ws ++ [[]]) = ws.flatMap (· ++ [x]) := by
  induction ws with
  | nil => simp [List.intercalate]
  | cons w ws ih =>
    rw [List.flatMap_cons, ← ih]
    cases ws <;> simp [List.intercalate]

theorem mem_intercalate {c : α} (h : c ∈ sep.intercalate ps) : (∃ p ∈ ps, c ∈ p) ∨ c ∈ sep := by
  induction ps with
  | nil => cases h
  | cons p ps ih =>
    cases ps with
    | nil => exact Or.inl ⟨p, List.mem_cons_self, by simpa [List.intercalate] using h⟩
    | cons q qs =>
      rw [List.intercalate_cons_cons, List.append_assoc, List.mem_append, List.mem_append] at h
      rcases h with hp | hsep | hrest
      · exact Or.inl ⟨p, List.mem_cons_self, hp⟩
      · exact Or.inr hsep
      · rcases ih hrest with ⟨r, hr, hc⟩ | hsep
        · exact Or.inl ⟨r, List.mem_cons_of_mem p hr, hc⟩
        · exact Or.inr hsep

theorem mem_intercalate_of_mem {c : α} (hp : p ∈ ps)
    (hc : c ∈ p) : c ∈ sep.intercalate ps := by
  induction ps with
  | nil => cases hp
  | cons q qs ih =>
    cases qs with
    | nil =>
      obtain rfl := List.mem_singleton.mp hp
      rwa [List.intercalate_singleton]
    | cons r rs =>
      rw [List.intercalate_cons_cons, List.append_assoc, List.mem_append, List.mem_append]
      rcases List.mem_cons.mp hp with rfl | hp
      · exact Or.inl hc
      · exact Or.inr (Or.inr (ih hp))

theorem intercalate_append {qs : List (List α)} (hps : ps ≠ []) (hqs : qs ≠ []) :
    sep.intercalate (ps ++ qs) = sep.intercalate ps ++ sep ++ sep.intercalate qs := by
  induction ps with
  | nil => exact absurd rfl hps
  | cons p ps ih =>
    cases ps with
    | nil =>
      obtain ⟨q, qs, rfl⟩ := List.exists_cons_of_ne_nil hqs
      rw [List.singleton_append, List.intercalate_cons_cons, List.intercalate_singleton]
    | cons p' ps =>
      rw [List.cons_append, List.cons_append, List.intercalate_cons_cons, ← List.cons_append,
        ih (by simp), List.intercalate_cons_cons]
      simp only [List.append_assoc]

theorem length_splitOn [BEq α] [LawfulBEq α] (x : α) (l : List α) :
    (l.splitOn x).length = l.count x + 1 := by
  induction l with
  | nil => rfl
  | cons c l ih =>
    rw [List.splitOn_cons_eq_if_modifyHead]
    split_ifs with hc
    · rw [List.length_cons, ih, eq_of_beq hc, List.count_cons_self]
    · rw [List.length_modifyHead, ih, List.count_cons_of_ne (by simpa using hc)]

theorem exists_pieces (x : α) (l : List α) :
    ∃ ps : List (List α), ps ≠ [] ∧ (∀ p ∈ ps, x ∉ p) ∧ l = [x].intercalate ps := by
  induction l with
  | nil => exact ⟨[[]], by simp, by simp, by simp [List.intercalate]⟩
  | cons c l ih =>
    obtain ⟨ps, hne, hps, rfl⟩ := ih
    obtain ⟨p, ps, rfl⟩ := List.exists_cons_of_ne_nil hne
    obtain ⟨hp, hrest⟩ := List.forall_mem_cons.mp hps
    by_cases hc : c = x
    · refine ⟨[] :: p :: ps, by simp, List.forall_mem_cons.mpr ⟨by simp, hps⟩, ?_⟩
      rw [hc, intercalate_nil_cons, List.flatMap_cons]
      cases ps with
      | nil => simp [List.intercalate]
      | cons p' ps =>
        have htail := intercalate_nil_cons x (p' :: ps)
        simp [List.intercalate] at htail ⊢
        exact htail
    · refine ⟨(c :: p) :: ps, by simp, List.forall_mem_cons.mpr ⟨?_, hrest⟩, ?_⟩
      · simp only [List.mem_cons, not_or]
        exact ⟨fun heq => hc heq.symm, hp⟩
      · cases ps <;> simp [List.intercalate]

theorem flatMap_intercalate (hx : f x = [y]) (ps : List (List α)) :
    ([x].intercalate ps).flatMap f = [y].intercalate (ps.map (·.flatMap f)) := by
  induction ps with
  | nil => rfl
  | cons p ps ih =>
    cases ps with
    | nil => simp [List.intercalate]
    | cons p' ps =>
      simp only [List.intercalate, List.map_cons] at ih ⊢
      simp only [List.intersperse_cons_cons, List.flatten_cons, List.flatMap_append,
        List.flatMap_cons,
        List.flatMap_nil, List.append_nil, hx] at ih ⊢
      rw [ih]

theorem notMem_flatMap (hf : ∀ a, a ≠ x → y ∉ f a) (hp : x ∉ p) :
    y ∉ p.flatMap f := by
  intro hy
  obtain ⟨a, ha, hya⟩ := List.mem_flatMap.mp hy
  exact hf a (fun heq => hp (heq ▸ ha)) hya

/-- The pieces of a text that is written separator by separator. -/
theorem splitOn_flatMap [BEq β] [LawfulBEq β] (hx : f x = [y])
    (hf : ∀ a, a ≠ x → y ∉ f a)
    (hne : ps ≠ []) (hps : ∀ p ∈ ps, x ∉ p) :
    (([x].intercalate ps).flatMap f).splitOn y = ps.map (·.flatMap f) := by
  rw [flatMap_intercalate hx]
  refine List.splitOn_intercalate y ?_ (by simpa using hne)
  intro p hp
  obtain ⟨q, hq, rfl⟩ := List.mem_map.mp hp
  exact notMem_flatMap hf (hps q hq)

/-- Two ways to write that differ at once where they differ write the same only if they do
not differ anywhere. -/
theorem flatMap_eq_iff {g : α → List β}
    (hfg : ∀ a, f a = g a ∨ ∀ s t, f a ++ s ≠ g a ++ t) (p : List α) :
    p.flatMap f = p.flatMap g ↔ ∀ a ∈ p, f a = g a := by
  induction p with
  | nil => simp
  | cons a p ih =>
    rw [List.flatMap_cons, List.flatMap_cons, List.forall_mem_cons, ← ih]
    rcases hfg a with heq | hne
    · rw [heq, List.append_cancel_left_eq]
      exact (and_iff_right rfl).symm
    · refine iff_of_false (hne _ _) ?_
      rintro ⟨heq, htail⟩
      exact hne (p.flatMap f) (p.flatMap g) (by rw [heq, htail])

/-- The pieces of lists with separators between them are the pieces of each. -/
theorem splitOn_intercalate_flatMap [BEq α] [LawfulBEq α] (x : α) {ls : List (List α)}
    (hne : ls ≠ []) : ([x].intercalate ls).splitOn x = ls.flatMap (·.splitOn x) := by
  induction ls with
  | nil => exact absurd rfl hne
  | cons l ls ih =>
    cases ls with
    | nil => simp [List.intercalate]
    | cons l' ls =>
      have hcons : [x].intercalate (l :: l' :: ls) = l ++ x :: [x].intercalate (l' :: ls) := by
        simp [List.intercalate]
      rw [hcons, List.splitOn_append_cons_self, ih (List.cons_ne_nil _ _)]
      rfl

theorem sublist_intercalate (sep : List α) (h : p ∈ ps) :
    p.Sublist (sep.intercalate ps) := by
  induction ps with
  | nil => cases h
  | cons q ps ih =>
    cases ps with
    | nil =>
      obtain rfl := List.mem_singleton.mp h
      simp [List.intercalate]
    | cons q' ps =>
      have hcons : sep.intercalate (q :: q' :: ps) = q ++ (sep ++ sep.intercalate (q' :: ps)) := by
        simp [List.intercalate]
      rw [hcons]
      rcases List.mem_cons.mp h with rfl | hmem
      · exact List.sublist_append_left _ _
      · exact (ih hmem).trans ((List.sublist_append_right _ _).trans
          (List.sublist_append_right _ _))

theorem mem_splitOn [BEq α] [LawfulBEq α] {l : List α} (h : p ∈ l.splitOn x) :
    x ∉ p ∧ p.Sublist l := by
  obtain ⟨ps, hne, hps, rfl⟩ := exists_pieces x l
  rw [List.splitOn_intercalate x hps hne] at h
  exact ⟨hps p h, sublist_intercalate [x] h⟩

/-- All the elements of a list are read. -/
theorem mapM_ok_iff {ε α β : Type} {f : α → Except ε β} {l : List α} {r : List β} :
    l.mapM f = .ok r ↔ List.Forall₂ (fun a b => f a = .ok b) l r := by
  induction l generalizing r with
  | nil =>
    rw [List.mapM_nil, List.forall₂_nil_left_iff]
    exact ⟨fun h => (Except.ok.inj h).symm, fun h => by rw [h]; rfl⟩
  | cons a l ih =>
    rw [List.mapM_cons, List.forall₂_cons_left_iff]
    cases ha : f a with
    | error e => simp [bind, Except.bind]
    | ok b =>
      cases hl : l.mapM f with
      | error e =>
        simp only [bind, Except.bind, reduceCtorEq, false_iff]
        rintro ⟨b', r', _, hr', _⟩
        rw [← ih, hl] at hr'
        cases hr'
      | ok bs =>
        simp only [bind, Except.bind, pure, Except.pure, Except.ok.injEq]
        constructor
        · rintro rfl
          exact ⟨b, bs, rfl, ih.mp hl, rfl⟩
        · rintro ⟨b', r', rfl, hr', rfl⟩
          rw [← ih, hl] at hr'
          rw [Except.ok.inj hr']

theorem exists_of_forall₂ {α β : Type} {R : α → β → Prop} {l : List α} {r : List β}
    (h : List.Forall₂ R l r) {b : β} (hb : b ∈ r) : ∃ a ∈ l, R a b := by
  induction h with
  | nil => cases hb
  | @cons a c l r hac _ ih =>
    rcases List.mem_cons.mp hb with rfl | hb
    · exact ⟨a, List.mem_cons_self, hac⟩
    · obtain ⟨a, ha, hab⟩ := ih hb
      exact ⟨a, List.mem_cons_of_mem _ ha, hab⟩

end SnapCpp.Pieces
