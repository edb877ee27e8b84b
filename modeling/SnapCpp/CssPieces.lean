import SnapCpp.CssNode
import SnapCpp.Trimming

/-!
The children of the arguments that are made of the children between two separators. The whitespace
at the start and in front of a separator is left out, as are the ends of files and the whitespace
after other whitespace. The content between the whitespace at both ends is kept when it has none
of them, and when the whitespace node after it is not a node of it as well.
-/
namespace SnapCpp.CssNode

open Trimming

section Lists

variable (type : ℕ → NodeType) {p q : List ℕ} {c w : ℕ}

def isSpace (c : ℕ) : Bool := type c = .whitespace

def isEnd (c : ℕ) : Bool := type c = .eofToken

def keepChild (children : List ℕ) (child : ℕ) : List ℕ :=
  if type child ≠ .whitespace ∨ children ≠ [] then appendChild type children child else children

def keepAll (children p : List ℕ) : List ℕ := p.foldl (keepChild type) children

def trimChildren : ℕ → List ℕ → List ℕ
  | 0, children => children
  | count + 1, children =>
      match children.getLast? with
      | none => children
      | some last =>
          if type last = .whitespace then trimChildren count (children.erase last) else children

/-- The children of the argument that a piece in front of a separator gives. -/
def argOf (p : List ℕ) : List ℕ :=
  trimChildren type (keepAll type [] p).length (keepAll type [] p)

/-- What is returned for the pieces between the separators, and the children of the arguments, given
those that are there already. -/
def argsOf (done : List (List ℕ)) : List (List ℕ) → Bool × List (List ℕ)
  | [] => (true, done)
  | [p] => (true, done ++ [keepAll type [] p])
  | p :: q :: ps =>
      if argOf type p = [] then (false, done ++ [[]])
      else if q = [] ∧ ps = [] then (false, done ++ [argOf type p])
      else argsOf (done ++ [argOf type p]) (q :: ps)

end Lists

section Kept

variable {type : ℕ → NodeType} {l m p q : List ℕ} {c w : ℕ}

theorem isSpace_iff : isSpace type c = true ↔ type c = .whitespace := decide_eq_true_iff

theorem isEnd_iff : isEnd type c = true ↔ type c = .eofToken := decide_eq_true_iff

theorem isEnd_of_isSpace (h : isSpace type c) : isEnd type c = false := by
  rw [isEnd, isSpace_iff.mp h]
  rfl

/-- No end of file, and no whitespace after another. -/
structure Clean (type : ℕ → NodeType) (l : List ℕ) : Prop where
  noEnd : ∀ c ∈ l, isEnd type c = false
  apart : l.IsChain fun a b => ¬ (isSpace type a ∧ isSpace type b)

theorem keepChild_end (h : isEnd type c) : keepChild type l c = l := by
  have hsame : appendChild type l c = l := if_neg fun hc => hc.1 (isEnd_iff.mp h)
  rw [keepChild, hsame, ite_self]

theorem keepChild_space_nil (h : isSpace type c) : keepChild type [] c = [] := by
  rw [keepChild, if_neg]
  rintro (hc | hc)
  · exact hc (isSpace_iff.mp h)
  · exact hc rfl

theorem keepChild_concat_space (hlast : isSpace type w) (h : isSpace type c) :
    keepChild type (l ++ [w]) c = l ++ [w] := by
  rw [keepChild, if_pos (Or.inr (by simp)), appendChild, if_neg]
  rintro ⟨_, hc | hc⟩
  · exact hc (isSpace_iff.mp h)
  · exact hc w (by simp) (isSpace_iff.mp hlast)

theorem keepChild_append (hend : isEnd type c = false)
    (h : isSpace type c = true → l ≠ [] ∧ ∀ w ∈ l.getLast?, isSpace type w = false) :
    keepChild type l c = l ++ [c] := by
  have hend' : type c ≠ .eofToken := fun hc => by simp [isEnd, hc] at hend
  by_cases hc : type c = .whitespace
  · obtain ⟨hne, hlast⟩ := h (isSpace_iff.mpr hc)
    rw [keepChild, if_pos (Or.inr hne), appendChild, if_pos]
    refine ⟨hend', Or.inr fun w hw hspace => ?_⟩
    have := hlast w hw
    simp [isSpace, hspace] at this
  · rw [keepChild, if_pos (Or.inl hc), appendChild, if_pos ⟨hend', Or.inl hc⟩]

theorem clean_nil : Clean type [] := ⟨fun _ hc => (List.not_mem_nil hc).elim, List.isChain_nil⟩

theorem Clean.part (h : Clean type l) (hm : m <:+: l) : Clean type m :=
  ⟨fun c hc => h.noEnd c (hm.subset hc), List.IsChain.infix h.apart hm⟩

theorem keepAll_append (l p q : List ℕ) :
    keepAll type l (p ++ q) = keepAll type (keepAll type l p) q := List.foldl_append

theorem keepAll_spaces_nil (h : ∀ c ∈ p, isSpace type c) : keepAll type [] p = [] := by
  induction p with
  | nil => rfl
  | cons c p ih =>
    obtain ⟨hc, hp⟩ := List.forall_mem_cons.mp h
    rw [keepAll, List.foldl_cons, keepChild_space_nil hc]
    exact ih hp

theorem keepAll_clean (h : Clean type (l ++ m))
    (hhead : l = [] → ∀ c ∈ m.head?, isSpace type c = false) : keepAll type l m = l ++ m := by
  induction m generalizing l with
  | nil => rw [List.append_nil]; rfl
  | cons c m ih =>
    have hfirst : keepChild type l c = l ++ [c] := by
      refine keepChild_append (h.noEnd c (by simp)) fun hc => ?_
      have hne : l ≠ [] := fun hl => by
        have := hhead hl c rfl
        rw [hc] at this
        cases this
      refine ⟨hne, fun w hw => ?_⟩
      have hapart := (List.isChain_append.mp h.apart).2.2 w hw c (by simp)
      by_contra hspace
      exact hapart ⟨by simpa using hspace, hc⟩
    rw [keepAll, List.foldl_cons, hfirst]
    have hl : l ++ c :: m = l ++ [c] ++ m := by simp
    rw [hl] at h ⊢
    exact ih h fun hnil => by simp at hnil

/-- Of the whitespace after something else, the first node is kept. -/
theorem keepAll_spaces (h : ∀ c ∈ p, isSpace type c) (hne : l ≠ [])
    (hlast : ∀ c ∈ l.getLast?, isSpace type c = false) :
    keepAll type l p = l ++ p.take 1 := by
  cases p with
  | nil => rw [List.take_nil, List.append_nil]; rfl
  | cons w p =>
    obtain ⟨hw, hp⟩ := List.forall_mem_cons.mp h
    have hkeep : ∀ p : List ℕ, (∀ c ∈ p, isSpace type c) →
        keepAll type (l ++ [w]) p = l ++ [w] := by
      intro p hp
      induction p with
      | nil => rfl
      | cons c p ih =>
        obtain ⟨hc, hp⟩ := List.forall_mem_cons.mp hp
        rw [keepAll, List.foldl_cons, keepChild_concat_space hw hc]
        exact ih hp
    rw [keepAll, List.foldl_cons, keepChild_append (isEnd_of_isSpace hw) (fun _ => ⟨hne, hlast⟩)]
    exact hkeep p hp

/-- What the children of an argument are like before the whitespace at their end is removed. -/
structure Kept (type : ℕ → NodeType) (l : List ℕ) : Prop where
  clean : Clean type l
  head : ∀ c ∈ l.head?, isSpace type c = false

theorem keepChild_cases (type : ℕ → NodeType) (l : List ℕ) (c : ℕ) :
    (isEnd type c = false ∧
        (isSpace type c = true → l ≠ [] ∧ ∀ w ∈ l.getLast?, isSpace type w = false) ∧
        keepChild type l c = l ++ [c]) ∨
      ((isSpace type c ∨ isEnd type c) ∧ keepChild type l c = l) := by
  by_cases hend : isEnd type c
  · exact Or.inr ⟨Or.inr hend, keepChild_end hend⟩
  · rw [Bool.not_eq_true] at hend
    by_cases hspace : isSpace type c
    · rcases List.eq_nil_or_concat l with rfl | ⟨l, w, rfl⟩
      · exact Or.inr ⟨Or.inl hspace, keepChild_space_nil hspace⟩
      · rw [List.concat_eq_append]
        by_cases hw : isSpace type w
        · exact Or.inr ⟨Or.inl hspace, keepChild_concat_space hw hspace⟩
        · have hlast : ∀ x ∈ (l ++ [w]).getLast?, isSpace type x = false := by
            simpa using hw
          exact Or.inl ⟨hend, fun _ => ⟨by simp, hlast⟩,
            keepChild_append hend fun _ => ⟨by simp, hlast⟩⟩
    · exact Or.inl ⟨hend, fun h => absurd h hspace, keepChild_append hend fun h => absurd h hspace⟩

theorem Kept.keepChild (h : Kept type l) (c : ℕ) : Kept type (keepChild type l c) := by
  rcases keepChild_cases type l c with ⟨hend, hspace, heq⟩ | ⟨_, heq⟩
  · rw [heq]
    refine ⟨⟨?_, List.isChain_append.mpr ⟨h.clean.apart, List.isChain_singleton c, ?_⟩⟩, ?_⟩
    · intro d hd
      rcases List.mem_append.mp hd with hd | hd
      · exact h.clean.noEnd d hd
      · rw [List.mem_singleton.mp hd, hend]
    · intro w hw d hd
      obtain rfl := Option.some.inj hd
      rintro ⟨hsw, hsc⟩
      rw [(hspace hsc).2 w hw] at hsw
      cases hsw
    · intro d hd
      cases l with
      | nil =>
        obtain rfl := Option.some.inj hd
        by_contra hsc
        exact (hspace (by simpa using hsc)).1 rfl
      | cons a l => exact h.head d hd
  · rw [heq]
    exact h

theorem kept_keepAll (type : ℕ → NodeType) (p : List ℕ) : Kept type (keepAll type [] p) :=
  List.foldlRecOn p (CssNode.keepChild type) ⟨clean_nil, by simp⟩ fun _ h c _ => h.keepChild c

theorem keepAll_sublist (type : ℕ → NodeType) (l p : List ℕ) :
    (keepAll type l p).Sublist (l ++ p) := by
  induction p generalizing l with
  | nil => rw [List.append_nil]; exact List.Sublist.refl l
  | cons c p ih =>
    rw [keepAll, List.foldl_cons]
    refine (ih _).trans ?_
    rcases keepChild_cases type l c with ⟨_, _, heq⟩ | ⟨_, heq⟩
    · rw [heq, List.append_assoc, List.singleton_append]
    · rw [heq]
      exact List.Sublist.append_left (List.sublist_cons_self c p) l

theorem keepAll_nil_iff :
    keepAll type [] p = [] ↔ ∀ c ∈ p, isSpace type c ∨ isEnd type c := by
  have hgrow : ∀ (p l : List ℕ), l ≠ [] → keepAll type l p ≠ [] := by
    intro p
    induction p with
    | nil => exact fun l hl => hl
    | cons c p ih =>
      intro l hl
      rw [keepAll, List.foldl_cons]
      refine ih _ ?_
      rcases keepChild_cases type l c with ⟨_, _, heq⟩ | ⟨_, heq⟩
      · rw [heq]
        simp
      · rwa [heq]
  induction p with
  | nil => simp [keepAll]
  | cons c p ih =>
    rw [List.forall_mem_cons, keepAll, List.foldl_cons]
    rcases keepChild_cases type [] c with ⟨hend, hspace, heq⟩ | ⟨hc, heq⟩
    · rw [heq]
      refine ⟨fun h => absurd h (hgrow p _ (by simp)), fun h => ?_⟩
      rcases h.1 with hc | hc
      · exact absurd rfl (hspace hc).1
      · rw [hend] at hc
        cases hc
    · rw [heq]
      exact ⟨fun h => ⟨hc, ih.mp h⟩, fun h => ih.mpr h.2⟩

/-- The content of a piece is kept with the first of the whitespace after it. -/
theorem keepAll_of_clean (h : Clean type (trim (isSpace type) p)) :
    keepAll type [] p = if trim (isSpace type) p = [] then []
      else trim (isSpace type) p ++ (trailing (isSpace type) p).take 1 := by
  have hparts := takeWhile_trim_trailing (isSpace type) p
  have htight := tight_trim (isSpace type) p
  split_ifs with hnil
  · exact keepAll_spaces_nil (trim_eq_nil_iff.mp hnil)
  · have hcontent : keepAll type [] (trim (isSpace type) p) = trim (isSpace type) p :=
      keepAll_clean (l := []) h fun _ => htight.head
    conv => lhs; rw [← hparts]
    rw [keepAll_append, keepAll_spaces_nil (fun c hc => List.mem_takeWhile_imp hc), keepAll_append,
      hcontent]
    exact keepAll_spaces (fun c hc => mem_trailing hc) hnil htight.last

/-- The content of a piece is what is left of it exactly when it is clean. -/
theorem trim_keepAll_iff :
    trim (isSpace type) (keepAll type [] p) = trim (isSpace type) p ↔
      Clean type (trim (isSpace type) p) := by
  constructor
  · intro h
    rw [← h]
    exact (kept_keepAll type p).clean.part (trim_isInfix _ _)
  · intro h
    rw [keepAll_of_clean h]
    split_ifs with hnil
    · rw [hnil]
      rfl
    · have htrim := trim_append (p := isSpace type) (a := []) (by simp)
        (tight_trim (isSpace type) p) (b := (trailing (isSpace type) p).take 1)
        (fun c hc => mem_trailing (List.mem_of_mem_take hc))
      exact htrim

end Kept

section Removed

variable {type : ℕ → NodeType} {l m p : List ℕ} {c w : ℕ} {count : ℕ}

theorem trimChildren_of_last (h : ∀ c ∈ l.getLast?, isSpace type c = false) :
    trimChildren type count l = l := by
  cases count with
  | zero => rfl
  | succ count =>
    rw [trimChildren]
    split
    · rfl
    · next last hlast =>
      rw [if_neg fun hc => ?_]
      have := h last hlast
      rw [isSpace_iff.mpr hc] at this
      cases this

theorem trimChildren_concat (hw : isSpace type w) :
    trimChildren type (count + 1) (m ++ [w]) = trimChildren type count ((m ++ [w]).erase w) := by
  rw [trimChildren, List.getLast?_concat]
  exact if_pos (isSpace_iff.mp hw)

theorem trimChildren_sublist (type : ℕ → NodeType) (count : ℕ) (l : List ℕ) :
    (trimChildren type count l).Sublist l := by
  induction count generalizing l with
  | zero => exact List.Sublist.refl l
  | succ count ih =>
    rw [trimChildren]
    split
    · exact List.Sublist.refl l
    · split_ifs
      · exact (ih _).trans List.erase_sublist
      · exact List.Sublist.refl l

theorem mem_trimChildren (h : c ∈ l) (hc : isSpace type c = false) :
    c ∈ trimChildren type count l := by
  induction count generalizing l with
  | zero => exact h
  | succ count ih =>
    rw [trimChildren]
    split
    · exact h
    · next last hlast =>
      split_ifs with hspace
      · refine ih ((List.mem_erase_of_ne ?_).mpr h)
        rintro rfl
        rw [isSpace_iff.mpr hspace] at hc
        cases hc
      · exact h

/-- A whitespace node that is in the list a second time is taken away there too. -/
theorem length_trimChildren_lt (hw : isSpace type w) (hmem : w ∈ m) (hcount : m.length < count) :
    (trimChildren type count (m ++ [w])).length < m.length := by
  induction count generalizing m with
  | zero => omega
  | succ count ih =>
    have hlength := List.length_erase_of_mem hmem
    have hpositive := List.length_pos_of_mem hmem
    rw [trimChildren_concat hw, List.erase_append_left _ hmem]
    by_cases hagain : w ∈ m.erase w
    · exact (ih hagain (by omega)).trans (by omega)
    · cases count with
      | zero => omega
      | succ count =>
        rw [trimChildren_concat hw, List.erase_append_right _ hagain, List.erase_cons_head,
          List.append_nil]
        have := (trimChildren_sublist type count (m.erase w)).length_le
        omega

/-- The children of an argument are their content, or the content and some whitespace. -/
theorem Kept.cases (h : Kept type l) :
    (Tight (isSpace type) l ∧ trimChildren type l.length l = l) ∨
      ∃ m w, l = m ++ [w] ∧ isSpace type w ∧ m ≠ [] ∧ Tight (isSpace type) m := by
  rcases List.eq_nil_or_concat l with rfl | ⟨m, w, rfl⟩
  · exact Or.inl ⟨tight_nil, rfl⟩
  · rw [List.concat_eq_append] at h ⊢
    by_cases hw : isSpace type w
    · refine Or.inr ⟨m, w, rfl, hw, ?_, ?_, ?_⟩
      · rintro rfl
        have := h.head w rfl
        rw [hw] at this
        cases this
      · intro c hc
        cases m with
        | nil => cases hc
        | cons a m => exact h.head c hc
      · intro c hc
        have hapart := (List.isChain_append.mp h.clean.apart).2.2 c hc w (by simp)
        by_contra hspace
        exact hapart ⟨by simpa using hspace, hw⟩
    · have hlast : ∀ c ∈ (m ++ [w]).getLast?, isSpace type c = false := by
        simpa using hw
      exact Or.inl ⟨⟨h.head, hlast⟩, trimChildren_of_last hlast⟩

theorem argOf_nil_iff : argOf type p = [] ↔ ∀ c ∈ p, isSpace type c ∨ isEnd type c := by
  rw [← keepAll_nil_iff]
  constructor
  · intro h
    cases hkept : keepAll type [] p with
    | nil => rfl
    | cons c l =>
      have hc := (kept_keepAll type p).head c (by rw [hkept]; rfl)
      have hmem : c ∈ argOf type p := mem_trimChildren (by rw [hkept]; simp) hc
      rw [h] at hmem
      cases hmem
  · intro h
    rw [argOf, h]
    rfl

/-- A piece in front of a separator is kept when its content is clean and the whitespace node after
it is not one of it. -/
theorem trim_argOf_iff :
    trim (isSpace type) (argOf type p) = trim (isSpace type) p ↔
      Clean type (trim (isSpace type) p) ∧
        ∀ w ∈ (trailing (isSpace type) p).head?, w ∉ trim (isSpace type) p := by
  have hcontent : Clean type (trim (isSpace type) p) → trim (isSpace type) p ≠ [] →
      keepAll type [] p = trim (isSpace type) p ++ (trailing (isSpace type) p).take 1 := by
    intro hclean hne
    rw [keepAll_of_clean hclean, if_neg hne]
  rcases (kept_keepAll type p).cases with ⟨htight, hsame⟩ | ⟨m, w, hkept, hw, hne, htight⟩
  · rw [argOf, hsame, trim_keepAll_iff]
    refine ⟨fun hclean => ⟨hclean, fun w hw hmem => ?_⟩, And.left⟩
    have hne : trim (isSpace type) p ≠ [] := List.ne_nil_of_mem hmem
    obtain ⟨rest, hrest⟩ := List.head?_eq_some_iff.mp hw
    have hlast := htight.last w (by rw [hcontent hclean hne, hrest]; simp)
    rw [mem_trailing (p := isSpace type) (l := p) (by rw [hrest]; simp)] at hlast
    cases hlast
  · have htrim : trim (isSpace type) (keepAll type [] p) = m := by
      have := trim_append (a := []) (b := [w]) (by simp) htight (by simpa using hw)
      rwa [hkept]
    have hafter : Clean type (trim (isSpace type) p) →
        trim (isSpace type) p = m ∧ (trailing (isSpace type) p).head? = some w := by
      intro hclean
      have hm : trim (isSpace type) p = m := (trim_keepAll_iff.mpr hclean).symm.trans htrim
      refine ⟨hm, ?_⟩
      have heq := hcontent hclean (by rwa [hm])
      rw [hkept, hm] at heq
      have hfirst := congrArg List.head? (List.append_cancel_left heq)
      rwa [List.head?_take, if_neg (by omega), List.head?_cons, eq_comm] at hfirst
    by_cases hmem : w ∈ m
    · have hlt : (argOf type p).length < m.length := by
        rw [argOf, hkept]
        exact length_trimChildren_lt hw hmem (by simp)
      constructor
      · intro h
        have hle := (trim_sublist_self (isSpace type) (argOf type p)).length_le
        have hge := (trim_sublist (isSpace type) (keepAll_sublist type [] p)).length_le
        rw [htrim, List.nil_append, ← h] at hge
        omega
      · rintro ⟨hclean, hother⟩
        obtain ⟨hm, hhead⟩ := hafter hclean
        exact absurd (hm ▸ hmem) (hother w hhead)
    · have harg : argOf type p = m := by
        rw [argOf, hkept, List.length_append, List.length_singleton, trimChildren_concat hw,
          List.erase_append_right _ hmem, List.erase_cons_head, List.append_nil,
          trimChildren_of_last htight.last]
      rw [harg, trim_of_tight htight, ← htrim, trim_keepAll_iff]
      refine ⟨fun hclean => ⟨hclean, fun c hc => ?_⟩, And.left⟩
      obtain ⟨hm, hhead⟩ := hafter hclean
      rw [hhead] at hc
      obtain rfl := Option.some.inj hc
      rwa [hm]

end Removed

section Pieces

variable {type : ℕ → NodeType} {front pieces done : List (List ℕ)} {last p : List ℕ}

/-- An error is reported: a piece in front of a separator has nothing but whitespace, or nothing at
all comes after the last separator. -/
def Stops (type : ℕ → NodeType) (pieces : List (List ℕ)) : Prop :=
  (∃ p ∈ pieces.dropLast, ∀ c ∈ p, isSpace type c ∨ isEnd type c) ∨
    2 ≤ pieces.length ∧ pieces.getLast? = some []

theorem stops_concat_iff :
    Stops type (front ++ [last]) ↔
      (∃ p ∈ front, argOf type p = []) ∨ front ≠ [] ∧ last = [] := by
  have hlength : 2 ≤ (front ++ [last]).length ↔ front ≠ [] := by
    rw [List.length_append, List.length_singleton, ← List.length_pos_iff]
    omega
  rw [Stops, List.dropLast_concat, List.getLast?_concat, hlength, Option.some_inj]
  simp only [argOf_nil_iff]

/-- What is returned for the pieces, and the arguments when there is no error. -/
theorem argsOf_concat (type : ℕ → NodeType) (done front : List (List ℕ)) (last : List ℕ) :
    ((argsOf type done (front ++ [last])).1 = false ∧ Stops type (front ++ [last])) ∨
      (argsOf type done (front ++ [last]) =
          (true, done ++ (front.map (argOf type) ++ [keepAll type [] last])) ∧
        ¬ Stops type (front ++ [last])) := by
  induction front generalizing done with
  | nil =>
    refine Or.inr ⟨rfl, fun h => ?_⟩
    rcases stops_concat_iff.mp h with ⟨p, hp, _⟩ | ⟨hne, _⟩
    · cases hp
    · exact hne rfl
  | cons p front ih =>
    obtain ⟨q, ps, hq⟩ : ∃ q ps, front ++ [last] = q :: ps :=
      List.exists_cons_of_ne_nil (by simp)
    have hend : q = [] ∧ ps = [] ↔ front = [] ∧ last = [] := by
      cases front with
      | nil =>
        obtain ⟨rfl, rfl⟩ := List.cons.inj hq
        simp
      | cons r front =>
        obtain ⟨rfl, rfl⟩ := List.cons.inj hq
        simp
    have hunfold : argsOf type done (p :: (front ++ [last])) =
        if argOf type p = [] then (false, done ++ [[]])
        else if front = [] ∧ last = [] then (false, done ++ [argOf type p])
        else argsOf type (done ++ [argOf type p]) (front ++ [last]) := by
      rw [hq, argsOf]
      simp only [hend]
    rw [List.cons_append, hunfold, ← List.cons_append]
    split_ifs with hp hlast
    · exact Or.inl ⟨rfl, stops_concat_iff.mpr (Or.inl ⟨p, List.mem_cons_self, hp⟩)⟩
    · exact Or.inl ⟨rfl, stops_concat_iff.mpr (Or.inr ⟨List.cons_ne_nil _ _, hlast.2⟩)⟩
    · rcases ih (done ++ [argOf type p]) with ⟨hfalse, hstops⟩ | ⟨htrue, hstops⟩
      · refine Or.inl ⟨hfalse, stops_concat_iff.mpr ?_⟩
        rcases stops_concat_iff.mp hstops with ⟨r, hr, hnil⟩ | ⟨_, hnil⟩
        · exact Or.inl ⟨r, List.mem_cons_of_mem p hr, hnil⟩
        · exact Or.inr ⟨List.cons_ne_nil _ _, hnil⟩
      · refine Or.inr ⟨?_, fun h => ?_⟩
        · rw [htrue, List.append_assoc]
          rfl
        · rcases stops_concat_iff.mp h with ⟨r, hr, hnil⟩ | ⟨_, hnil⟩
          · rcases List.mem_cons.mp hr with rfl | hr
            · exact hp hnil
            · exact hstops (stops_concat_iff.mpr (Or.inl ⟨r, hr, hnil⟩))
          · by_cases hfront : front = []
            · exact hlast ⟨hfront, hnil⟩
            · exact hstops (stops_concat_iff.mpr (Or.inr ⟨hfront, hnil⟩))

structure GoodPiece (type : ℕ → NodeType) (p : List ℕ) : Prop where
  content : ∃ c ∈ p, isSpace type c = false
  clean : Clean type (trim (isSpace type) p)

/-- The first of the whitespace after the content of a piece is not a node of the content. -/
def Unrepeated (type : ℕ → NodeType) (p : List ℕ) : Prop :=
  ∀ w ∈ (trailing (isSpace type) p).head?, w ∉ trim (isSpace type) p

def KeepsPieces (type : ℕ → NodeType) (pieces : List (List ℕ)) : Prop :=
  (∀ p ∈ pieces, GoodPiece type p) ∧ ∀ p ∈ pieces.dropLast, Unrepeated type p

theorem GoodPiece.keepAll_ne_nil (h : GoodPiece type p) : keepAll type [] p ≠ [] := by
  obtain ⟨c, hc, hspace⟩ := h.content
  intro hnil
  have hend := h.clean.noEnd c (mem_trim hc hspace)
  rcases keepAll_nil_iff.mp hnil c hc with h | h
  · rw [hspace] at h
    cases h
  · rw [hend] at h
    cases h

theorem exists_content (h : ¬ ∀ c ∈ p, isSpace type c ∨ isEnd type c) :
    ∃ c ∈ p, isSpace type c = false := by
  by_contra hnone
  refine h fun c hc => Or.inl ?_
  by_contra hspace
  exact hnone ⟨c, hc, by simpa using hspace⟩

/-- The arguments have the content of the pieces, and some of it, exactly when all pieces do. -/
theorem keepsPieces_iff (hstops : ¬ Stops type (front ++ [last])) :
    ((∀ a ∈ front.map (argOf type) ++ [keepAll type [] last], a ≠ []) ∧
        (front.map (argOf type) ++ [keepAll type [] last]).map (trim (isSpace type)) =
          (front ++ [last]).map (trim (isSpace type))) ↔
      KeepsPieces type (front ++ [last]) := by
  have hfront : ∀ p ∈ front, argOf type p ≠ [] := fun p hp hnil =>
    hstops (stops_concat_iff.mpr (Or.inl ⟨p, hp, hnil⟩))
  have hmaps : (front.map (argOf type) ++ [keepAll type [] last]).map (trim (isSpace type)) =
      (front ++ [last]).map (trim (isSpace type)) ↔
      (∀ p ∈ front, Clean type (trim (isSpace type) p) ∧ Unrepeated type p) ∧
        Clean type (trim (isSpace type) last) := by
    have hsplit : (front.map (argOf type) ++ [keepAll type [] last]).map (trim (isSpace type)) =
        (front ++ [last]).map (trim (isSpace type)) ↔
        (∀ p ∈ front, trim (isSpace type) (argOf type p) = trim (isSpace type) p) ∧
          trim (isSpace type) (keepAll type [] last) = trim (isSpace type) last := by
      rw [List.map_append, List.map_append, List.map_map, ← List.map_inj_left]
      constructor
      · intro h
        obtain ⟨hfront, hlast⟩ := List.append_inj h (by simp)
        exact ⟨hfront, List.singleton_inj.mp hlast⟩
      · rintro ⟨hfront, hlast⟩
        exact congrArg₂ (· ++ ·) hfront (congrArg (fun l => [l]) hlast)
    rw [hsplit, trim_keepAll_iff]
    exact and_congr_left fun _ => forall₂_congr fun p _ => trim_argOf_iff
  rw [hmaps, KeepsPieces, List.dropLast_concat]
  simp only [List.forall_mem_append, List.forall_mem_map, List.forall_mem_singleton]
  constructor
  · rintro ⟨⟨_, hlast⟩, hpieces, hclean⟩
    refine ⟨⟨fun p hp => ⟨exists_content fun h => hfront p hp (argOf_nil_iff.mpr h),
      (hpieces p hp).1⟩, exists_content fun h => hlast (keepAll_nil_iff.mpr h), hclean⟩,
      fun p hp => (hpieces p hp).2⟩
  · rintro ⟨⟨hgood, hlast⟩, hunrepeated⟩
    exact ⟨⟨hfront, hlast.keepAll_ne_nil⟩,
      fun p hp => ⟨(hgood p hp).clean, hunrepeated p hp⟩, hlast.clean⟩

end Pieces

end SnapCpp.CssNode
