import SnapCpp.DependencyVersions

/-!
The text of a dependency: a name, a list of versions between parentheses and a list of browsers
between brackets. It is simplified already, so that the name and the lists are found where they
were written.
-/
namespace SnapCpp.SnapVersion

open QString QNumber

def group (first last : UInt16) (texts : List QString) : QString :=
  if texts = [] then [] else space :: first :: joinComma texts ++ [last]

inductive IsNeat : QString → Prop
  | word {w : QString} : w ≠ [] → (∀ c ∈ w, isSpace c = false) → IsNeat w
  | join {s t : QString} : IsNeat s → IsNeat t → IsNeat (s ++ space :: t)

variable {s : QString} {texts : List QString}

theorem IsNeat.append_word {w : QString} (hs : IsNeat s) (hw : ∀ c ∈ w, isSpace c = false) :
    IsNeat (s ++ w) := by
  induction hs with
  | word hne hword =>
    exact .word (by simp [hne]) (List.forall_mem_append.mpr ⟨hword, hw⟩)
  | join hs _ _ ih =>
    rw [List.append_assoc]
    exact .join hs ih

theorem IsNeat.word_append {w : QString} (hs : IsNeat s) (hw : ∀ c ∈ w, isSpace c = false) :
    IsNeat (w ++ s) := by
  induction hs with
  | word hne hword =>
    exact .word (by simp [hne]) (List.forall_mem_append.mpr ⟨hw, hword⟩)
  | join _ ht ih _ =>
    rw [← List.append_assoc]
    exact .join ih ht

theorem words_of_neat (hs : IsNeat s) :
    (s.splitOnP isSpace).filter (· ≠ []) ≠ [] ∧ simplified s = s := by
  induction hs with
  | word hne hword =>
    rw [simplified, List.splitOnP_eq_singleton hword]
    simp [hne, List.intercalate]
  | @join s t _ _ ihs iht =>
    have hsplit : (s ++ space :: t).splitOnP isSpace = s.splitOnP isSpace ++ t.splitOnP isSpace :=
      List.splitOnP_append_cons s t (by decide)
    rw [simplified, hsplit, List.filter_append, Pieces.intercalate_append ihs.1 iht.1]
    refine ⟨List.append_ne_nil_of_left_ne_nil ihs.1 _, ?_⟩
    have hs := ihs.2
    have ht := iht.2
    rw [simplified] at hs ht
    rw [hs, ht]
    simp

theorem simplified_of_neat (hs : IsNeat s) : simplified s = s := (words_of_neat hs).2

theorem isNeat_joinComma (hne : texts ≠ []) (h : ∀ t ∈ texts, IsNeat t) :
    IsNeat (joinComma texts) := by
  induction texts with
  | nil => exact absurd rfl hne
  | cons t texts ih =>
    obtain ⟨ht, htexts⟩ := List.forall_mem_cons.mp h
    cases texts with
    | nil => rwa [joinComma, List.intercalate_singleton]
    | cons u us =>
      rw [joinComma, List.intercalate_cons_cons]
      have hcomma : t ++ [comma, space] ++ [comma, space].intercalate (u :: us) =
          (t ++ [comma]) ++ space :: joinComma (u :: us) := by simp [joinComma]
      rw [hcomma]
      refine .join (ht.append_word ?_) (ih (by simp) htexts)
      simp only [List.forall_mem_singleton]
      decide

theorem IsNeat.append_group {first last : UInt16} (hs : IsNeat s) (hfirst : isSpace first = false)
    (hlast : isSpace last = false)
    (h : ∀ t ∈ texts, IsNeat t) : IsNeat (s ++ group first last texts) := by
  unfold group
  split_ifs with hempty
  · rwa [List.append_nil]
  · refine .join hs ?_
    have hjoin := isNeat_joinComma hempty h
    exact (hjoin.word_append (w := [first]) (by simpa using hfirst)).append_word
      (w := [last]) (by simpa using hlast)

theorem IsNeat.ends (hs : IsNeat s) :
    s ≠ [] ∧ (∀ c, s.head? = some c → isSpace c = false) ∧
      ∀ c, s.getLast? = some c → isSpace c = false := by
  induction hs with
  | word hne hword =>
    exact ⟨hne, fun c hc => hword c (List.mem_of_head? hc),
      fun c hc => hword c (List.mem_of_getLast? hc)⟩
  | @join s t _ _ ihs iht =>
    refine ⟨by simp, fun c hc => ihs.2.1 c ?_, fun c hc => iht.2.2 c ?_⟩
    · rwa [List.head?_append_of_ne_nil _ ihs.1] at hc
    · rwa [List.getLast?_append_of_ne_nil _ (by simp), List.getLast?_cons_of_ne_nil iht.1] at hc

theorem trimmed_of_neat (hs : IsNeat s) : trimmed s = s :=
  trimmed_of_ends hs.ends.2.1 hs.ends.2.2

theorem trimmed_space (s : QString) : trimmed (space :: s) = trimmed s := rfl

theorem joinComma_cons (t : QString) (texts : List QString) :
    joinComma (t :: texts) = [comma].intercalate (t :: texts.map (space :: ·)) := by
  induction texts generalizing t with
  | nil => rfl
  | cons u us ih =>
    have htail := ih u
    rw [joinComma] at htail
    rw [joinComma, List.intercalate_cons_cons, htail, List.map_cons, List.intercalate_cons_cons]
    cases us <;> simp [List.intercalate]

theorem parts_joinComma (h : ∀ t ∈ texts, IsNeat t ∧ comma ∉ t) :
    parts (joinComma texts) = texts := by
  cases texts with
  | nil => rfl
  | cons t texts =>
    obtain ⟨⟨ht, hcomma⟩, htexts⟩ := List.forall_mem_cons.mp h
    have hsplit : splitComma (joinComma (t :: texts)) = t :: texts.map (space :: ·) := by
      rw [joinComma_cons]
      refine splitComma_join (List.forall_mem_cons.mpr ⟨⟨hcomma, ht.ends.1⟩, ?_⟩)
      rw [List.forall_mem_map]
      intro u hu
      refine ⟨?_, by simp⟩
      rw [List.mem_cons, not_or]
      exact ⟨by decide, (htexts u hu).2⟩
    have htrimmed : (texts.map (space :: ·)).map trimmed = texts := by
      rw [List.map_map, List.map_congr_left (g := id)]
      · exact List.map_id texts
      · exact fun u hu => (trimmed_space u).trans (trimmed_of_neat (htexts u hu).1)
    rw [parts, hsplit, List.map_cons, htrimmed, trimmed_of_neat ht]
    exact List.filter_eq_self.mpr (fun u hu => by simpa using ((h u hu).1).ends.1)

theorem indexOf_append {a b : QString} {c : UInt16} (h : c ∉ a) :
    indexOf (a ++ b) c = a.length + indexOf b c := by
  induction a with
  | nil => simp
  | cons d a ih =>
    obtain ⟨hd, ha⟩ := not_or.mp (fun hmem => h (List.mem_cons.mpr hmem))
    have hne : (d == c) = false := by simpa using Ne.symm hd
    have htail := ih ha
    unfold indexOf at htail ⊢
    rw [List.cons_append, List.findIdx_cons, hne, cond_false, htail, List.length_cons]
    omega

theorem indexOf_self (c : UInt16) (b : QString) : indexOf (c :: b) c = 0 := by
  simp [indexOf, List.findIdx_cons]

theorem indexOf_of_notMem {a : QString} {c : UInt16} (h : c ∉ a) : indexOf a c = a.length := by
  have hnil : indexOf [] c = 0 := rfl
  have hall := indexOf_append (b := []) h
  rwa [List.append_nil, hnil, Nat.add_zero] at hall

theorem getElem?_length (a b : QString) : (a ++ b)[a.length]? = b.head? := by
  rw [List.getElem?_append_right (Nat.le_refl _), Nat.sub_self, List.head?_eq_getElem?]

theorem skipSpaces_length (a b : QString) :
    skipSpaces (a ++ b) a.length = a.length + (b.takeWhile isCSpace).length := by
  rw [skipSpaces, List.drop_left]

/-- A list between delimiters is reached after one space. -/
theorem skipSpaces_group (a b : QString) {first : UInt16} (last : UInt16)
    (hfirst : isCSpace first = false) (hne : texts ≠ []) :
    skipSpaces (a ++ (group first last texts ++ b)) a.length = (a ++ [space]).length := by
  have hspace : isCSpace space = true := by decide
  rw [skipSpaces_length, group, if_neg hne]
  simp [hspace, hfirst]

section Written

def Plain (t : QString) : Prop :=
  openParen ∉ t ∧ closeParen ∉ t ∧ openBracket ∉ t ∧ closeBracket ∉ t

theorem notMem_joinComma {texts : List QString} {c : UInt16} (h : ∀ t ∈ texts, c ∉ t)
    (hc : c ∉ [comma, space]) : c ∉ joinComma texts := by
  intro hmem
  rcases Pieces.mem_intercalate hmem with ⟨t, ht, hmem⟩ | hmem
  · exact h t ht hmem
  · exact hc hmem

theorem plain_joinComma {texts : List QString} (h : ∀ t ∈ texts, Plain t) :
    Plain (joinComma texts) :=
  ⟨notMem_joinComma (fun t ht => (h t ht).1) (by decide),
    notMem_joinComma (fun t ht => (h t ht).2.1) (by decide),
    notMem_joinComma (fun t ht => (h t ht).2.2.1) (by decide),
    notMem_joinComma (fun t ht => (h t ht).2.2.2) (by decide)⟩

variable {full : QString} {v b : List QString}

def written (full : QString) (v b : List QString) : QString :=
  full ++ group openParen closeParen v ++ group openBracket closeBracket b

theorem group_cases (first last : UInt16) (texts : List QString) :
    texts = [] ∧ group first last texts = [] ∨
      texts ≠ [] ∧ group first last texts = space :: first :: (joinComma texts ++ [last]) := by
  unfold group
  split_ifs with hempty
  · exact Or.inl ⟨hempty, rfl⟩
  · exact Or.inr ⟨hempty, rfl⟩

theorem notMem_front {c : UInt16} (hc : c ∉ full) (hvt : ∀ t ∈ v, c ∉ t)
    (hother : c ∉ [comma, space, openParen, closeParen]) :
    c ∉ full ++ group openParen closeParen v := by
  have hjoin : c ∉ joinComma v := notMem_joinComma hvt (fun hmem => hother (by
    simp only [List.mem_cons, List.not_mem_nil, or_false] at hmem ⊢
    tauto))
  simp only [List.mem_cons, List.not_mem_nil, or_false, not_or] at hother
  obtain ⟨_, hspace, hopen, hclose⟩ := hother
  unfold group
  split_ifs
  · simpa using hc
  · simp [hc, hspace, hopen, hclose, hjoin]

variable (hspace : space ∉ full) (hfull : Plain full) (hvt : ∀ t ∈ v, Plain t)
  (hbt : ∀ t ∈ b, Plain t)

include hspace hfull

theorem namePos_written : namePos (written full v b) = full.length := by
  have hrest : written full v b = full ++
      (group openParen closeParen v ++ group openBracket closeBracket b) := List.append_assoc ..
  rw [hrest, namePos, indexOf_append hspace, indexOf_append hfull.1, indexOf_append hfull.2.2.1]
  rcases group_cases openParen closeParen v with ⟨_, heq⟩ | ⟨_, heq⟩
  · rcases group_cases openBracket closeBracket b with ⟨_, heq'⟩ | ⟨_, heq'⟩
    · simp [heq, heq', indexOf]
    · rw [heq, heq', List.nil_append, indexOf_self]
      omega
  · rw [heq, List.cons_append, indexOf_self]
    omega

include hvt

theorem versions_written : versionList (written full v b) = joinComma v ∧
    (hasVersions (written full v b) = true → closeParen ∈
      (written full v b).drop (versionsPos (written full v b) + 1)) ∧
    browsersPos (written full v b) = skipSpaces (written full v b)
      (full ++ group openParen closeParen v).length := by
  have hskip : versionsPos (written full v b) = skipSpaces (written full v b) full.length := by
    rw [versionsPos, namePos_written hspace hfull]
  rcases group_cases openParen closeParen v with ⟨rfl, heq⟩ | ⟨hne, heq⟩
  · have hnone : hasVersions (written full [] b) = false := by
      rw [hasVersions, hskip, written, heq, List.append_nil]
      rcases group_cases openBracket closeBracket b with ⟨_, heq'⟩ | ⟨hne', heq'⟩
      · rw [heq', skipSpaces_length]
        simp
      · have hpos := skipSpaces_group full [] closeBracket
          (by decide : isCSpace openBracket = false) hne'
        rw [List.append_nil] at hpos
        rw [hpos, heq']
        have hsplit : full ++ space :: openBracket :: (joinComma b ++ [closeBracket]) =
            (full ++ [space]) ++ openBracket :: (joinComma b ++ [closeBracket]) := by simp
        rw [hsplit, getElem?_length, List.head?_cons]
        decide
    rw [versionList, browsersPos, hnone, hskip, heq, List.append_nil]
    refine ⟨rfl, ?_, rfl⟩
    intro hfalse
    cases hfalse
  · have htext : written full v b = full ++ (group openParen closeParen v ++
        group openBracket closeBracket b) := List.append_assoc ..
    have hpos : versionsPos (written full v b) = (full ++ [space]).length := by
      rw [hskip, htext, skipSpaces_group _ _ _ (by decide) hne]
    have hsplit : written full v b = (full ++ [space]) ++ openParen :: (joinComma v ++
        closeParen :: group openBracket closeBracket b) := by
      rw [written, heq]
      simp
    have hhas : hasVersions (written full v b) = true := by
      rw [hasVersions, hpos, hsplit, getElem?_length, List.head?_cons]
      decide
    have hdrop : (written full v b).drop (versionsPos (written full v b) + 1) =
        joinComma v ++ closeParen :: group openBracket closeBracket b := by
      rw [hpos, hsplit, List.drop_length_add_append]
      rfl
    have hlist : versionList (written full v b) = joinComma v := by
      have hjoin := (plain_joinComma hvt).2.1
      rw [versionList, if_pos hhas, hdrop, List.takeWhile_append_of_pos]
      · simp
      · intro c hc
        have hne : c ≠ closeParen := by
          rintro rfl
          exact hjoin hc
        simpa using hne
    refine ⟨hlist, fun _ => by simp [hdrop], ?_⟩
    rw [browsersPos, if_pos hhas, hlist, hpos, heq]
    congr 1
    simp
    omega

include hbt

/-- The browsers are found, and nothing is left after them. -/
theorem browsers_written : browserList (written full v b) = joinComma b ∧
    (hasBrowsers (written full v b) = true → closeBracket ∈ written full v b) ∧
    endPos (written full v b) = (written full v b).length := by
  obtain ⟨_, _, hskip⟩ := versions_written (b := b) hspace hfull hvt
  have hfront := notMem_front hfull.2.2.2 (fun t ht => (hvt t ht).2.2.2) (by decide)
  have htext : written full v b = (full ++ group openParen closeParen v) ++
      group openBracket closeBracket b := rfl
  rw [htext] at hskip ⊢
  generalize full ++ group openParen closeParen v = front at hskip hfront ⊢
  rcases group_cases openBracket closeBracket b with ⟨rfl, heq⟩ | ⟨hne, heq⟩
  · rw [heq, List.append_nil] at hskip ⊢
    have hpos : browsersPos front = front.length := by
      have hlength := skipSpaces_length front []
      rw [List.append_nil] at hlength
      rw [hskip, hlength]
      rfl
    have hnone : hasBrowsers front = false := by
      rw [hasBrowsers, hpos]
      simp
    rw [browserList, endPos, hnone, hpos]
    refine ⟨rfl, ?_, rfl⟩
    intro hfalse
    cases hfalse
  · have hpos : browsersPos (front ++ group openBracket closeBracket b) =
        (front ++ [space]).length := by
      have hgroup := skipSpaces_group front [] closeBracket
        (by decide : isCSpace openBracket = false) hne
      rw [List.append_nil] at hgroup
      rw [hskip, hgroup]
    have hsplit : front ++ group openBracket closeBracket b =
        (front ++ [space]) ++ openBracket :: (joinComma b ++ [closeBracket]) := by
      rw [heq]
      simp
    have hhas : hasBrowsers (front ++ group openBracket closeBracket b) = true := by
      rw [hasBrowsers, hpos, hsplit, getElem?_length, List.head?_cons]
      decide
    have hindex : indexOf (front ++ group openBracket closeBracket b) closeBracket =
        (front ++ [space] ++ openBracket :: joinComma b).length := by
      have hjoin := (plain_joinComma hbt).2.2.2
      have hnot : closeBracket ∉ front ++ [space] ++ openBracket :: joinComma b := by
        simp only [List.mem_append, List.mem_cons, List.not_mem_nil, not_or, or_false]
        exact ⟨⟨hfront, by decide⟩, by decide, hjoin⟩
      have hlast : front ++ group openBracket closeBracket b =
          (front ++ [space] ++ openBracket :: joinComma b) ++ [closeBracket] := by
        rw [hsplit]
        simp
      rw [hlast, indexOf_append hnot, indexOf_self, Nat.add_zero]
    refine ⟨?_, fun _ => by simp [heq], ?_⟩
    · have hle : (front ++ [space]).length + 1 ≤
          (front ++ [space] ++ openBracket :: joinComma b).length := by
        simp only [List.length_append, List.length_cons]
        omega
      rw [browserList, if_pos hhas, hpos, hindex, mid, if_pos hle, hsplit,
        List.drop_length_add_append]
      have hlength : (front ++ [space] ++ openBracket :: joinComma b).length -
          ((front ++ [space]).length + 1) = (joinComma b).length := by
        simp
        omega
      rw [hlength]
      exact List.take_left
    · have hlength : (front ++ group openBracket closeBracket b).length ≤
          (front ++ [space] ++ openBracket :: joinComma b).length + 1 := by
        rw [hsplit]
        simp
        omega
      rw [endPos, if_pos hhas, hindex, skipSpaces, List.drop_eq_nil_of_le hlength, hsplit]
      simp only [List.length_append, List.length_cons, List.length_nil, List.takeWhile_nil]
      omega

omit hspace hvt in
/-- Versions come before browsers. -/
theorem order_written : ¬ (indexOf (written full v b) openParen ≠ (written full v b).length ∧
    indexOf (written full v b) openBracket < indexOf (written full v b) openParen) := by
  rintro ⟨hsome, hlt⟩
  rcases group_cases openParen closeParen v with ⟨hempty, heq⟩ | ⟨hne, heq⟩
  · -- without versions there is no parenthesis
    refine hsome (indexOf_of_notMem ?_)
    rw [written, heq, List.append_nil]
    have hjoin := (plain_joinComma hbt).1
    rcases group_cases openBracket closeBracket b with ⟨_, heq'⟩ | ⟨_, heq'⟩
    · rw [heq', List.append_nil]
      exact hfull.1
    · rw [heq']
      simp only [List.mem_append, List.mem_cons, List.not_mem_nil, not_or, or_false]
      exact ⟨hfull.1, by decide, by decide, hjoin, by decide⟩
  · have hsplit : written full v b = (full ++ [space, openParen]) ++ (joinComma v ++
        closeParen :: group openBracket closeBracket b) := by
      rw [written, heq]
      simp
    have hbracket : openBracket ∉ full ++ [space, openParen] := by
      simp only [List.mem_append, List.mem_cons, List.not_mem_nil, not_or, or_false]
      exact ⟨hfull.2.2.1, by decide, by decide⟩
    have hparen : indexOf (written full v b) openParen = (full ++ [space]).length := by
      have hnot : openParen ∉ full ++ [space] := by
        simp only [List.mem_append, List.mem_cons, List.not_mem_nil, not_or, or_false]
        exact ⟨hfull.1, by decide⟩
      have hfirst : written full v b = (full ++ [space]) ++ openParen :: (joinComma v ++
          closeParen :: group openBracket closeBracket b) := by
        rw [hsplit]
        simp
      rw [hfirst, indexOf_append hnot, indexOf_self, Nat.add_zero]
    rw [hparen, hsplit, indexOf_append hbracket] at hlt
    simp only [List.length_append, List.length_cons, List.length_nil] at hlt
    omega

end Written

end SnapCpp.SnapVersion
