import Mathlib

/-!
Programs that change a state and may throw. What a program ensures from a state is a condition on
its result and the state after it, and a condition on what it throws instead. The rules follow the
way a program is put together.
-/
namespace SnapCpp

variable {S E A B : Type}

/-- A program that returns has run its first part. -/
theorem bind_eq_ok {x : Except E A} {f : A → Except E B} {b : B} (h : (x >>= f) = .ok b) :
    ∃ a, x = .ok a ∧ f a = .ok b := by
  cases x with
  | error e => cases h
  | ok a => exact ⟨a, rfl, h⟩

/-- From the state `s` the program throws what `throws` allows, or it ends with a result and a
state that satisfy `post`. -/
def Ensures (m : StateT S (Except E) A) (s : S) (throws : E → Prop) (post : A → S → Prop) : Prop :=
  match m s with
  | .ok (a, t) => post a t
  | .error e => throws e

namespace Ensures

variable {m : StateT S (Except E) A} {f : A → StateT S (Except E) B} {s t : S}
  {throws throws' : E → Prop} {post post' : A → S → Prop} {last : B → S → Prop}

theorem pure {a : A} (h : post a s) :
    Ensures (Pure.pure a : StateT S (Except E) A) s throws post := h

theorem throw {e : E} (h : throws e) :
    Ensures (MonadExcept.throw e : StateT S (Except E) A) s throws post := h

theorem bind (hm : Ensures m s throws fun a t => Ensures (f a) t throws last) :
    Ensures (m >>= f) s throws last := by
  change match (m s >>= fun p => f p.1 p.2) with
    | .ok (b, u) => last b u
    | .error e => throws e
  rw [Ensures] at hm
  cases hrun : m s with
  | error e =>
    rw [hrun] at hm
    exact hm
  | ok p =>
    rw [hrun] at hm
    exact hm

theorem mono (h : Ensures m s throws post) (hpost : ∀ a t, post a t → post' a t) :
    Ensures m s throws post' := by
  rw [Ensures] at h ⊢
  cases hrun : m s with
  | error e =>
    rw [hrun] at h
    exact h
  | ok p =>
    rw [hrun] at h
    exact hpost p.1 p.2 h

theorem mono_throws (h : Ensures m s throws post) (hthrows : ∀ e, throws e → throws' e) :
    Ensures m s throws' post := by
  rw [Ensures] at h ⊢
  cases hrun : m s with
  | error e =>
    rw [hrun] at h
    exact hthrows e h
  | ok p =>
    rw [hrun] at h
    exact h

theorem ite {c : Prop} [Decidable c] {m' : StateT S (Except E) A}
    (hpos : c → Ensures m s throws post) (hneg : ¬ c → Ensures m' s throws post) :
    Ensures (if c then m else m') s throws post := by
  by_cases hc : c
  · rw [if_pos hc]
    exact hpos hc
  · rw [if_neg hc]
    exact hneg hc

theorem of_ok (h : Ensures m s throws post) {a : A} (hrun : m s = .ok (a, t)) : post a t := by
  rw [Ensures, hrun] at h
  exact h

theorem of_error (h : Ensures m s throws post) {e : E} (hrun : m s = .error e) : throws e := by
  rw [Ensures, hrun] at h
  exact h

/-- A program that may not throw has a result. -/
theorem total (h : Ensures m s (fun _ => False) post) : ∃ a t, m s = .ok (a, t) ∧ post a t := by
  rw [Ensures] at h
  cases hrun : m s with
  | error e =>
    rw [hrun] at h
    exact h.elim
  | ok p =>
    rw [hrun] at h
    exact ⟨p.1, p.2, rfl, h⟩

end Ensures

/-- What a program returns satisfies `post`, from whatever state it runs. -/
def Returns (m : StateT S (Except E) A) (post : A → Prop) : Prop :=
  ∀ s, Ensures m s (fun _ => True) fun a _ => post a

namespace Returns

variable {m : StateT S (Except E) A} {f : A → StateT S (Except E) B} {post post' : A → Prop}
  {final : B → Prop}

theorem pure {a : A} (h : post a) : Returns (Pure.pure a : StateT S (Except E) A) post :=
  fun _ => Ensures.pure h

theorem throw {e : E} : Returns (MonadExcept.throw e : StateT S (Except E) A) post :=
  fun _ => Ensures.throw trivial

theorem bind (hm : Returns m post) (hf : ∀ a, post a → Returns (f a) final) :
    Returns (m >>= f) final :=
  fun s => Ensures.bind ((hm s).mono fun a t ha => hf a ha t)

theorem any (m : StateT S (Except E) A) : Returns m fun _ => True := by
  intro s
  rw [Ensures]
  cases m s <;> trivial

/-- What a program returns at its end. -/
theorem last (hf : ∀ a, Returns (f a) final) : Returns (m >>= f) final :=
  (any m).bind fun a _ => hf a

theorem mono (h : Returns m post) (hpost : ∀ a, post a → post' a) : Returns m post' :=
  fun s => (h s).mono fun a _ => hpost a

theorem ite {c : Prop} [Decidable c] {m' : StateT S (Except E) A} (hpos : c → Returns m post)
    (hneg : ¬ c → Returns m' post) : Returns (if c then m else m') post :=
  fun s => Ensures.ite (fun hc => hpos hc s) fun hc => hneg hc s

/-- Both branches return what is asked for, whatever the condition says. -/
theorem both {c : Prop} [Decidable c] {m' : StateT S (Except E) A} (hpos : Returns m post)
    (hneg : Returns m' post) : Returns (if c then m else m') post :=
  ite (fun _ => hpos) fun _ => hneg

end Returns

end SnapCpp
