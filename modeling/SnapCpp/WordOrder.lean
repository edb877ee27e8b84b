import SnapCpp.Pieces

/-!
Sequences of words, each with a mark behind it, in lexicographic order. The mark is
below the letters of the words, so that a word comes before the longer words that
start with it. The sequences that start alike are next to each other, and those that
differ in their last words only are in the order of these words. The second half is
about the places of a list where a property holds, followed from the front of the
list to its end.
-/
namespace SnapCpp.WordOrder

section Words

variable {α : Type*} {mark : α}

def joined (mark : α) (ws : List (List α)) : List α := ws.flatMap (· ++ [mark])

theorem joined_cons (w : List α) (ws : List (List α)) :
    joined mark (w :: ws) = w ++ mark :: joined mark ws := by
  simp [joined]

theorem joined_concat (ws : List (List α)) (w : List α) :
    joined mark (ws ++ [w]) = joined mark ws ++ w ++ [mark] := by
  simp [joined]

variable [LinearOrder α]

structure IsWord (mark : α) (w : List α) : Prop where
  ne_nil : w ≠ []
  above : ∀ c ∈ w, mark < c

theorem IsWord.mark_notMem {w : List α} (h : IsWord mark w) : mark ∉ w :=
  fun hmem => lt_irrefl _ (h.above mark hmem)

theorem prefix_of_joined_prefix {vs ws : List (List α)} (hv : ∀ w ∈ vs, IsWord mark w)
    (hw : ∀ w ∈ ws, IsWord mark w) (h : joined mark vs <+: joined mark ws) : vs <+: ws := by
  induction vs generalizing ws with
  | nil => exact List.nil_prefix
  | cons v vs ih =>
    obtain ⟨s, hs⟩ := h
    obtain ⟨hvhead, hvtail⟩ := List.forall_mem_cons.mp hv
    cases ws with
    | nil => simp [joined] at hs
    | cons w ws =>
      obtain ⟨hwhead, hwtail⟩ := List.forall_mem_cons.mp hw
      rw [joined_cons, joined_cons, List.append_assoc, List.cons_append] at hs
      obtain ⟨rfl, -, htail⟩ := Pieces.first_cut_inj hvhead.mark_notMem hwhead.mark_notMem hs
      exact List.cons_prefix_cons.mpr ⟨rfl, ih hvtail hwtail ⟨s, htail⟩⟩

theorem joined_injective {vs ws : List (List α)} (hv : ∀ w ∈ vs, IsWord mark w)
    (hw : ∀ w ∈ ws, IsWord mark w) (h : joined mark vs = joined mark ws) : vs = ws := by
  have hfront := prefix_of_joined_prefix hv hw (h ▸ List.prefix_rfl)
  have hback := prefix_of_joined_prefix hw hv (h ▸ List.prefix_rfl)
  exact hfront.eq_of_length_le hback.length_le

theorem lt_of_mark_lt {v w : List α} (hv : ∀ c ∈ v, mark < c) (h : v ++ [mark] < w ++ [mark]) :
    v < w := by
  induction v generalizing w with
  | nil =>
    cases w with
    | nil => exact absurd h (lt_irrefl _)
    | cons d w => exact List.nil_lt_cons d w
  | cons c v ih =>
    obtain ⟨hc, hrest⟩ := List.forall_mem_cons.mp hv
    cases w with
    | nil =>
      rcases List.cons_lt_cons_iff.mp h with hlt | ⟨rfl, -⟩
      · exact absurd hlt (lt_asymm hc)
      · exact absurd hc (lt_irrefl _)
    | cons d w =>
      rcases List.cons_lt_cons_iff.mp h with hlt | ⟨rfl, htail⟩
      · exact List.cons_lt_cons_iff.mpr (Or.inl hlt)
      · exact List.cons_lt_cons_iff.mpr (Or.inr ⟨rfl, ih hrest htail⟩)

theorem append_lt_append_iff (p : List α) {a b : List α} : p ++ a < p ++ b ↔ a < b := by
  induction p with
  | nil => rfl
  | cons c p ih => simp [ih]

/-- The lists that start alike are next to each other. -/
theorem prefix_of_between {p a b q : List α} (ha : p ++ a ≤ q) (hb : q ≤ p ++ b) : p <+: q := by
  induction p generalizing q with
  | nil => exact List.nil_prefix
  | cons c p ih =>
    cases q with
    | nil => exact absurd ha (not_le.mpr (List.nil_lt_cons c _))
    | cons d q =>
      have hcd : c = d := by
        refine le_antisymm ?_ ?_
        · by_contra hlt
          exact absurd ha (not_le.mpr (List.cons_lt_cons_iff.mpr (Or.inl (not_le.mp hlt))))
        · by_contra hlt
          exact absurd hb (not_le.mpr (List.cons_lt_cons_iff.mpr (Or.inl (not_le.mp hlt))))
      subst hcd
      have hle : ∀ {s t : List α}, c :: s ≤ c :: t → s ≤ t := by
        intro s t h
        by_contra hlt
        exact absurd h (not_le.mpr (List.cons_lt_cons_iff.mpr (Or.inr ⟨rfl, not_le.mp hlt⟩)))
      exact List.cons_prefix_cons.mpr ⟨rfl, ih (hle ha) (hle hb)⟩

end Words

section Places

variable {α : Type*} {p : α → Prop} {l : List α} {limit start stop i : ℕ} {x : α}

def At (l : List α) (p : α → Prop) (i : ℕ) : Prop := ∃ x, l[i]? = some x ∧ p x

theorem At.lt (h : At l p i) : i < l.length := by
  obtain ⟨x, hx, -⟩ := h
  exact (List.getElem?_eq_some_iff.mp hx).1

theorem at_concat : At (l ++ [x]) p i ↔ At l p i ∨ i = l.length ∧ p x := by
  constructor
  · rintro ⟨y, hy, hp⟩
    rcases lt_trichotomy i l.length with hlt | rfl | hgt
    · rw [List.getElem?_append_left hlt] at hy
      exact Or.inl ⟨y, hy, hp⟩
    · rw [List.getElem?_concat_length] at hy
      obtain rfl := Option.some.inj hy
      exact Or.inr ⟨rfl, hp⟩
    · rw [List.getElem?_eq_none (by simp; omega)] at hy
      cases hy
  · rintro (h | ⟨rfl, hp⟩)
    · obtain ⟨y, hy, hp⟩ := h
      refine ⟨y, ?_, hp⟩
      rw [List.getElem?_append_left (List.getElem?_eq_some_iff.mp hy).1]
      exact hy
    · exact ⟨x, List.getElem?_concat_length, hp⟩

/-- The first place and the one behind the last, or the limit if there is none. -/
def Tracks (limit : ℕ) (l : List α) (p : α → Prop) (start stop : ℕ) : Prop :=
  (∀ i, ¬At l p i) ∧ start = limit ∧ stop = limit ∨
    At l p start ∧ (∃ j, stop = j + 1 ∧ At l p j) ∧ ∀ i, At l p i → start ≤ i ∧ i < stop

theorem tracks_nil : Tracks limit [] p limit limit := by
  refine Or.inl ⟨?_, rfl, rfl⟩
  intro i h
  exact absurd h.lt (Nat.not_lt_zero i)

theorem Tracks.concat_of_not (h : Tracks limit l p start stop) (hx : ¬p x) :
    Tracks limit (l ++ [x]) p start stop := by
  have hsame : ∀ i, At (l ++ [x]) p i ↔ At l p i := by
    intro i
    rw [at_concat]
    exact or_iff_left fun hi => hx hi.2
  unfold Tracks at h ⊢
  simpa only [hsame] using h

theorem Tracks.append_of_not (h : Tracks limit l p start stop) {l' : List α}
    (hl' : ∀ x ∈ l', ¬p x) : Tracks limit (l ++ l') p start stop := by
  induction l' generalizing l with
  | nil => rwa [List.append_nil]
  | cons x l' ih =>
    obtain ⟨hx, hrest⟩ := List.forall_mem_cons.mp hl'
    rw [List.append_cons]
    exact ih (h.concat_of_not hx) hrest

theorem Tracks.concat (h : Tracks limit l p start stop) (hlimit : l.length ≤ limit) (hx : p x) :
    Tracks limit (l ++ [x]) p (if start = limit then l.length else start) (l.length + 1) := by
  have hlast : At (l ++ [x]) p l.length := at_concat.mpr (Or.inr ⟨rfl, hx⟩)
  rcases h with ⟨hnone, rfl, rfl⟩ | ⟨hstart, -, hall⟩
  · rw [if_pos rfl]
    refine Or.inr ⟨hlast, ⟨l.length, rfl, hlast⟩, ?_⟩
    intro i hi
    rcases at_concat.mp hi with hold | ⟨rfl, -⟩
    · exact absurd hold (hnone i)
    · exact ⟨le_rfl, Nat.lt_succ_self _⟩
  · have hlt := hstart.lt
    rw [if_neg (by omega)]
    refine Or.inr ⟨at_concat.mpr (Or.inl hstart), ⟨l.length, rfl, hlast⟩, ?_⟩
    intro i hi
    rcases at_concat.mp hi with hold | ⟨rfl, -⟩
    · have := hold.lt
      exact ⟨(hall i hold).1, by omega⟩
    · exact ⟨hlt.le, Nat.lt_succ_self _⟩

/-- Where nothing lies between, the range is all of the places. -/
theorem Tracks.mem_iff (h : Tracks limit l p start stop)
    (hbetween : ∀ i j k, At l p i → At l p k → i ≤ j → j ≤ k → At l p j) :
    start ≤ i ∧ i < stop ↔ At l p i := by
  rcases h with ⟨hnone, rfl, rfl⟩ | ⟨hstart, ⟨j, rfl, hj⟩, hall⟩
  · constructor
    · intro hi
      omega
    · intro hi
      exact absurd hi (hnone i)
  · constructor
    · intro hi
      exact hbetween start i j hstart hj hi.1 (by omega)
    · exact hall i

end Places

end SnapCpp.WordOrder
