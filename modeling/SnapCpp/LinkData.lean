import SnapCpp.LinkInfo

/-!
The data of an end of a link and what is read back from it. The four values are written one after
the other into one text, and each looks for its marker in the whole of it, so a marker that is
part of the key can be found before the one that was meant. When the first line comes out as the
key was, no marker in it was replaced: a replaced marker takes its percent sign away and no value
after the key brings one back.
-/
namespace SnapCpp.LinkInfo

open QString QNumber PlaceMarkers

def firstLine (s : QString) : QString := s.takeWhile (· ≠ newline)

section Lines

variable {s a front back : QString} {n : ℕ}

theorem firstLine_append (h : newline ∉ front) :
    firstLine (front ++ newline :: back) = front := by
  rw [firstLine, List.takeWhile_append_of_pos (fun c hc => by
    simpa using ne_of_mem_of_not_mem hc h), List.takeWhile_cons]
  simp

theorem firstLine_of_notMem (h : newline ∉ s) : firstLine s = s :=
  List.takeWhile_eq_self_iff.mpr fun c hc => by simpa using ne_of_mem_of_not_mem hc h

theorem notMem_firstLine (s : QString) : newline ∉ firstLine s := fun hmem => by
  simpa using List.mem_takeWhile_imp hmem

theorem firstLine_cases (s : QString) :
    s = firstLine s ∨ ∃ back, s = firstLine s ++ newline :: back := by
  have hcut : s = firstLine s ++ s.dropWhile (· ≠ newline) :=
    (List.takeWhile_append_dropWhile ..).symm
  cases hrest : s.dropWhile (· ≠ newline) with
  | nil =>
    rw [hrest, List.append_nil] at hcut
    exact Or.inl hcut
  | cons c back =>
    have hc : c = newline := by
      have hhead := List.head?_dropWhile_not (p := (· ≠ newline)) s
      rw [hrest] at hhead
      simpa using hhead
    rw [hrest, hc] at hcut
    exact Or.inr ⟨back, hcut⟩

theorem notMem_replace (ha : newline ∉ a) (skip : ℕ) (hs : newline ∉ s) :
    newline ∉ replace n a skip s := by
  induction s generalizing skip with
  | nil => cases skip <;> exact hs
  | cons c s ih =>
    have hrest := List.not_mem_of_not_mem_cons hs
    have hkept : newline ∉ c :: replace n a 0 s :=
      List.not_mem_cons_of_ne_of_not_mem (List.ne_of_not_mem_cons hs) (ih 0 hrest)
    cases skip with
    | succ skip => exact ih skip hrest
    | zero =>
      rw [replace]
      cases markerAt (c :: s) with
      | none => exact hkept
      | some marker =>
        obtain ⟨m, d⟩ := marker
        by_cases hm : m = n
        · simp only [if_pos hm]
          exact fun hmem => (List.mem_append.mp hmem).elim ha (ih _ hrest)
        · simp only [if_neg hm]
          exact hkept

theorem firstLine_replace (ha : newline ∉ a) (s : QString) :
    firstLine (replace n a 0 s) = replace n a 0 (firstLine s) := by
  have hline : newline ∉ replace n a 0 (firstLine s) :=
    notMem_replace ha 0 (notMem_firstLine s)
  rcases firstLine_cases s with hs | ⟨back, hs⟩
  · rw [← hs] at hline ⊢
    exact firstLine_of_notMem hline
  · have happart : Apart (newline :: back) := Apart.cons (by decide) (by decide)
    have hnewline : replace n a 0 (newline :: back) = newline :: replace n a 0 back := by
      rw [replace, markerAt_plain (by decide)]
    conv_lhs => rw [hs, replace_append happart (Nat.zero_le _), hnewline]
    exact firstLine_append hline

def Kept (s : QString) : Prop := ∀ n, (numbers s).min? = some n → n ∉ numbers (firstLine s)

/-- A value without percent signs leaves the first line with no more of them, and with as many
only where it replaces no marker there. -/
theorem firstLine_arg (hline : newline ∉ a) (hplain : percent ∉ a) (s : QString) :
    (firstLine (arg s a)).count percent ≤ (firstLine s).count percent ∧
      ((firstLine (arg s a)).count percent = (firstLine s).count percent → Kept s) := by
  rw [arg, Kept]
  cases hmin : (numbers s).min? with
  | none => exact ⟨le_rfl, fun _ n hn => by cases hn⟩
  | some n =>
    simp only
    rw [firstLine_replace hline]
    refine ⟨count_replace_le hplain 0 _, fun hcount m hm hmem => ?_⟩
    obtain rfl := Option.some.inj hm
    exact absurd hcount (count_replace_lt hplain hmem).ne

/-- Where the lowest marker is none of the first line's, those of the first line come after. -/
theorem unmarked_of_min {later : List ℕ} (hnumbers : numbers s = numbers front ++ n :: later)
    (hlater : ∀ m ∈ later, n < m) (h : ∀ m, (numbers s).min? = some m → m ∉ numbers front) :
    Unmarked n front := by
  obtain ⟨m, hmin⟩ : ∃ m, (numbers s).min? = some m := by
    rw [← Option.isSome_iff_exists, List.isSome_min?_iff, hnumbers]
    simp
  have hnot := h m hmin
  obtain ⟨hmem, hle⟩ := List.min?_eq_some_iff.mp hmin
  rw [hnumbers, List.mem_append, List.mem_cons] at hmem
  have hn : n ≤ m := by
    rcases hmem.resolve_left hnot with rfl | hm
    · exact le_rfl
    · exact (hlater m hm).le
  intro k hk
  have hk' := hle k (by rw [hnumbers]; exact List.mem_append_left _ hk)
  have hne : k ≠ m := ne_of_mem_of_not_mem hk hnot
  omega

end Lines

section RoundTrip

variable {i j : LinkInfo} {text : QString}

theorem firstLine_of_splitOn {first : QString} {later : List QString}
    (h : text.splitOn newline = first :: later) : firstLine text = first := by
  rcases firstLine_cases text with htext | ⟨back, htext⟩
  · rw [List.splitOn_eq_singleton (htext ▸ notMem_firstLine text)] at h
    rw [← htext]
    exact (List.cons.inj h).1
  · rw [htext, List.splitOn_append_cons_self_of_not_mem (notMem_firstLine text)] at h
    exact (List.cons.inj h).1

theorem firstLine_of_fromData (h : fromData text = .ok j) :
    firstLine text = ascii "k" ++ equal :: j.key ∧ equal ∉ j.key := by
  unfold fromData at h
  split at h
  · rename_i keyData nameData branchData uniqueData hlines
    split at h
    · rename_i k key n name b branch u unique hkey hname hbranch hunique
      split_ifs at h with hletters hflag
      split at h
      · cases h
      · split at h
        · cases h
        · obtain rfl := Except.ok.inj h
          rw [not_or, not_not] at hletters
          have hjoin : [equal].intercalate (keyData.splitOn equal) = keyData :=
            List.intercalate_splitOn equal
          have hcount := Pieces.length_splitOn equal keyData
          rw [hkey, hletters.1] at hjoin
          have hdata : keyData = ascii "k" ++ equal :: key := by
            rw [← hjoin]
            simp [List.intercalate]
          refine ⟨(firstLine_of_splitOn hlines).trans hdata, ?_⟩
          rw [hkey, hdata, List.count_append, List.count_cons_self] at hcount
          simp only [List.length_cons, List.length_nil] at hcount
          have hzero : key.count equal = 0 := by omega
          exact List.count_eq_zero.mp hzero
    · cases h
  · cases h

theorem firstLine_keyLine {key tail : QString} (hline : newline ∉ key) :
    firstLine (keyLine key tail) = ascii "k=" ++ key := by
  refine firstLine_append ?_
  rw [List.mem_append, not_or]
  exact ⟨by decide, hline⟩

theorem numbers_keyLine (key tail : QString) :
    numbers (keyLine key tail) = numbers key ++ numbers (newline :: tail) := by
  rw [keyLine, List.append_assoc, numbers_plain_append (by decide),
    numbers_append (Apart.cons (by decide) (by decide))]

/-- Where a step keeps the first line, the markers of the key come after the one of the step. -/
theorem unmarked_of_kept {n : ℕ} {later : List ℕ} {key tail : QString} (hline : newline ∉ key)
    (hnumbers : numbers (newline :: tail) = n :: later) (hlater : ∀ m ∈ later, n < m)
    (h : Kept (keyLine key tail)) : Unmarked n key := by
  rw [Kept, firstLine_keyLine hline, numbers_plain_append (by decide)] at h
  exact unmarked_of_min (by rw [numbers_keyLine, hnumbers]) hlater h

/-- Three values that leave the first line as it was replace nothing there. -/
theorem kept_of_eq {s a b c : QString} (ha : newline ∉ a) (ha' : percent ∉ a) (hb : newline ∉ b)
    (hb' : percent ∉ b) (hc : newline ∉ c) (hc' : percent ∉ c)
    (h : firstLine (arg (arg (arg s a) b) c) = firstLine s) :
    Kept s ∧ Kept (arg s a) ∧ Kept (arg (arg s a) b) := by
  obtain ⟨hle₁, hkept₁⟩ := firstLine_arg ha ha' s
  obtain ⟨hle₂, hkept₂⟩ := firstLine_arg hb hb' (arg s a)
  obtain ⟨hle₃, hkept₃⟩ := firstLine_arg hc hc' (arg (arg s a) b)
  have hcount := congrArg (List.count percent) h
  exact ⟨hkept₁ (by omega), hkept₂ (by omega), hkept₃ (by omega)⟩

theorem unmarked_of_fromData (hi : Verified i.name) (hline : newline ∉ i.key)
    (h : fromData i.data = .ok i) : Unmarked 4 i.key := by
  have hname : percent ∉ i.name := hi.notMem rfl (by decide)
  have hletter : ascii "k=" = ascii "k" ++ [equal] := by decide
  have hsame := (firstLine_of_fromData h).1
  rw [data, arg_key] at hsame
  obtain ⟨hkept₂, hkept₃, hkept₄⟩ := kept_of_eq (hi.notMem rfl (by decide)) hname
    (notMem_decimal rfl i.branch.toNat) (percent_notMem_decimal i.branch.toNat)
    (notMem_flag (i := i) (Or.inl rfl)) (by cases i.unique <;> decide)
    (hsame.trans (by rw [firstLine_keyLine hline, hletter, List.append_assoc]; rfl))
  have hkey₂ : Unmarked 2 i.key :=
    unmarked_of_kept hline (by decide : _ = 2 :: [3, 4]) (by decide) hkept₂
  rw [arg_name hkey₂] at hkept₃ hkept₄
  have hnamed : percent ∉ newline :: (ascii "n=" ++ i.name ++ newline :: ascii "b=") := by
    simp only [List.mem_cons, List.mem_append, not_or]
    exact ⟨by decide, ⟨by decide, hname⟩, by decide, by decide⟩
  have hkey₃ : Unmarked 3 i.key := by
    refine unmarked_of_kept (n := 3) hline ?_ (by decide : ∀ m ∈ [4], 3 < m) hkept₃
    rw [← List.cons_append, numbers_plain_append hnamed]
    decide
  rw [arg_branch hkey₃ hname] at hkept₄
  refine unmarked_of_kept (n := 4) hline ?_ (by decide : ∀ m ∈ [], 4 < m) hkept₄
  have hbranch : percent ∉ newline :: (ascii "n=" ++ i.name ++ newline :: ascii "b=" ++
      decimal i.branch.toNat ++ newline :: ascii "u=") := by
    rw [List.append_assoc _ (decimal i.branch.toNat), ← List.cons_append, List.mem_append, not_or]
    refine ⟨hnamed, ?_⟩
    rw [List.mem_append, not_or]
    exact ⟨percent_notMem_decimal _, by decide⟩
  rw [← List.cons_append, numbers_plain_append hbranch]
  decide

/-- The end that was written is read back just when its key has no equal sign and no marker that
one of the four values could take for its own. -/
theorem fromData_data_iff (i : LinkInfo) (hi : Verified i.name) (hline : newline ∉ i.key) :
    fromData i.data = .ok i ↔ equal ∉ i.key ∧ Unmarked 4 i.key :=
  ⟨fun h => ⟨(firstLine_of_fromData h).2, unmarked_of_fromData hi hline h⟩,
    fun h => fromData_data h.2 hi hline h.1⟩

def tagOfPage (key : String) : LinkInfo :=
  { unique := false, name := ascii "content::tag", key := ascii key, branch := 1 }

theorem verified_tagOfPage (key : String) : Verified (tagOfPage key).name := by
  have h : Verified (ascii "content::tag") := by decide +kernel
  exact h

theorem fromData_data_iff_admin : fromData (tagOfPage "admin").data = .ok (tagOfPage "admin") ↔
    equal ∉ (tagOfPage "admin").key ∧ Unmarked 4 (tagOfPage "admin").key :=
  fromData_data_iff (tagOfPage "admin") (verified_tagOfPage "admin") (by decide)

/-- The name of the link is also written at the escaped slash of the key. -/
theorem fromData_data_escape : Verified (tagOfPage "a%2Fb").name ∧
    (tagOfPage "a%2Fb").isDefined = true ∧ newline ∉ (tagOfPage "a%2Fb").key ∧
    fromData (tagOfPage "a%2Fb").data ≠ .ok (tagOfPage "a%2Fb") := by
  have hverified := verified_tagOfPage "a%2Fb"
  have hline : newline ∉ (tagOfPage "a%2Fb").key := by decide
  refine ⟨hverified, by decide, hline, fun h => ?_⟩
  exact absurd (unmarked_of_fromData hverified hline h) (by decide)

end RoundTrip

end SnapCpp.LinkInfo
