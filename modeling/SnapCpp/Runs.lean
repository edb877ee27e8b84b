import Mathlib

/-!
Runs of a labelled transition relation, and the rule by which a property kept
by every step holds in every state a run reaches. Messages on their way between
two steps are kept in lists.
-/
namespace SnapCpp

variable {S L : Type}

inductive Runs (step : S → L → S → Prop) : S → List L → S → Prop
  | nil (s : S) : Runs step s [] s
  | snoc {s t u : S} {labels : List L} {l : L} :
      Runs step s labels t → step t l u → Runs step s (labels ++ [l]) u

namespace Runs

variable {step : S → L → S → Prop} {s t u : S} {labels : List L}

theorem invariant (inv : S → Prop) (h : Runs step s labels t) (hinit : inv s)
    (hstep : ∀ a l b, inv a → step a l b → inv b) : inv t := by
  induction h with
  | nil => exact hinit
  | snoc _ hlast ih => exact hstep _ _ _ ih hlast

theorem mono {step' : S → L → S → Prop} (hsub : ∀ a l b, step a l b → step' a l b)
    (h : Runs step s labels t) : Runs step' s labels t := by
  induction h with
  | nil => exact Runs.nil _
  | snoc _ hlast ih => exact Runs.snoc ih (hsub _ _ _ hlast)

theorem of_foldlM {E : Type} (f : S → L → Except E S) (labels : List L) (s t : S)
    (h : labels.foldlM f s = .ok t) : Runs (fun a l b => f a l = .ok b) s labels t := by
  induction labels using List.reverseRecOn generalizing t with
  | nil =>
    cases h
    exact Runs.nil _
  | append_singleton front l ih =>
    rw [List.foldlM_append] at h
    cases hfront : front.foldlM f s with
    | error e =>
      rw [hfront] at h
      cases h
    | ok u =>
      rw [hfront] at h
      have hlast : f u l = .ok t := by
        cases hl : f u l with
        | error e => simp [hl, bind, Except.bind] at h
        | ok v => simpa [hl, bind, Except.bind, pure, Except.pure] using h
      exact Runs.snoc (ih u hfront) hlast

theorem cons {l : L} (hfirst : step s l t) (h : Runs step t labels u) :
    Runs step s (l :: labels) u := by
  induction h with
  | nil => exact Runs.snoc (Runs.nil s) hfirst
  | snoc _ hlast ih => exact Runs.snoc ih hlast

/-- Whether a condition on states and labels is met at every step of a
function along some labels. -/
def checked (f : S → L → S) (P : S → L → Prop) [∀ s l, Decidable (P s l)] : S → List L → Bool
  | _, [] => true
  | s, l :: rest => decide (P s l) && checked f P (f s l) rest

theorem of_checked (f : S → L → S) (P : S → L → Prop) [∀ s l, Decidable (P s l)] (s : S)
    (labels : List L) (h : checked f P s labels = true) :
    Runs (fun a l b => P a l ∧ b = f a l) s labels (labels.foldl f s) := by
  induction labels generalizing s with
  | nil => exact Runs.nil s
  | cons l rest ih =>
    simp only [checked, Bool.and_eq_true, decide_eq_true_eq] at h
    exact Runs.cons ⟨h.1, rfl⟩ (ih (f s l) h.2)

end Runs

/-- A property that every turn of a loop keeps holds where the loop ends. -/
theorem foldlM_invariant {α β ε : Type} {f : β → α → Except ε β} (P : β → Prop) {l : List α}
    {s t : β} (h : ∀ a ∈ l, ∀ s t, P s → f s a = .ok t → P t) (hs : P s)
    (hrun : l.foldlM f s = .ok t) : P t := by
  induction l generalizing s with
  | nil =>
    obtain rfl := Except.ok.inj hrun
    exact hs
  | cons a rest ih =>
    obtain ⟨hhead, htail⟩ := List.forall_mem_cons.mp h
    rw [List.foldlM_cons] at hrun
    cases ha : f s a with
    | error e =>
      rw [ha] at hrun
      cases hrun
    | ok u =>
      rw [ha] at hrun
      exact ih htail (hhead s u hs ha) hrun

/-- A message that is taken out of those on their way is counted once. -/
theorem countP_eraseIdx {α : Type} (P : α → Bool) (l : List α) (i : ℕ) (x : α)
    (h : l[i]? = some x) : (l.eraseIdx i).countP P + (if P x then 1 else 0) = l.countP P := by
  obtain ⟨hi, rfl⟩ := List.getElem?_eq_some_iff.mp h
  rw [← (List.getElem_cons_eraseIdx_perm hi).countP_eq P, List.countP_cons]

end SnapCpp
