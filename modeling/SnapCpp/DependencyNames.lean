import SnapCpp.Pieces
import SnapCpp.SnapVersion

/-!
What the texts of names, of versions and of operators are when they are accepted. A name is its
full name with the scope operator; the text of a version is its numbers with periods between
them, each number a run of digits.
-/
namespace SnapCpp.SnapVersion

open QString QNumber

def IsBasic (name : QString) : Prop := validateBasicName name = .ok ()

def Name.Valid (n : Name) : Prop := (n.nameSpace = [] ∨ IsBasic n.nameSpace) ∧ IsBasic n.name

variable {name s : QString} {c : UInt16} {n : Name}

theorem mem_of_validateCharacters {p : UInt16} (h : validateCharacters p name = .ok ()) :
    ∀ c ∈ name, c = dash ∨ isDigit c = true ∨ isLetter c = true := by
  induction name generalizing p with
  | nil => exact fun c hc => by cases hc
  | cons c rest ih =>
    rw [validateCharacters] at h
    split_ifs at h with hdash hp hchar
    · exact List.forall_mem_cons.mpr ⟨Or.inl hdash, ih h⟩
    · exact List.forall_mem_cons.mpr ⟨Or.inr (by simpa using hchar), ih h⟩

theorem IsBasic.mem (h : IsBasic name) :
    ∀ c ∈ name, c = dash ∨ isDigit c = true ∨ isLetter c = true := by
  unfold IsBasic validateBasicName at h
  split at h
  · cases h
  · cases h
  · split at h
    · cases h
    · split at h
      · cases h
      · rename_i hok
        exact mem_of_validateCharacters hok

theorem IsBasic.notMem (h : IsBasic name)
    (hc : ¬ (c = dash ∨ isDigit c = true ∨ isLetter c = true)) : c ∉ name :=
  fun hmem => hc (h.mem c hmem)

theorem not_isBasic_nil : ¬ IsBasic [] := by
  unfold IsBasic validateBasicName
  simp

theorem splitScope_of_notMem (h : colon ∉ name) : splitScope name = none := by
  induction name with
  | nil => rfl
  | cons c rest ih =>
    obtain ⟨hc, hrest⟩ := not_or.mp (fun hmem => h (List.mem_cons.mpr hmem))
    rw [splitScope, if_neg (fun hand => hc hand.1.symm), ih hrest]
    rfl

theorem splitScope_append {nameSpace : QString} (h : colon ∉ nameSpace) :
    splitScope (nameSpace ++ colon :: colon :: name) = some (nameSpace, name) := by
  induction nameSpace with
  | nil => simp [splitScope]
  | cons c rest ih =>
    obtain ⟨hc, hrest⟩ := not_or.mp (fun hmem => h (List.mem_cons.mpr hmem))
    rw [List.cons_append, splitScope, if_neg (fun hand => hc hand.1.symm), ih hrest]
    rfl

theorem eq_of_splitScope {p : QString × QString} (h : splitScope s = some p) :
    s = p.1 ++ colon :: colon :: p.2 := by
  induction s generalizing p with
  | nil => cases h
  | cons c rest ih =>
    rw [splitScope] at h
    split_ifs at h with hscope
    · obtain rfl := Option.some.inj h
      obtain ⟨rfl, hhead⟩ := hscope
      rw [List.nil_append]
      congr 1
      exact List.eq_cons_of_mem_head? hhead
    · obtain ⟨q, hq, rfl⟩ := Option.map_eq_some_iff.mp h
      rw [ih hq]
      rfl

theorem validateName_iff :
    validateName s = .ok n ↔ n.Valid ∧ s = fullName n := by
  constructor
  · intro h
    unfold validateName at h
    split at h
    · rename_i nameSpace name hscope
      split at h
      · cases h
      split at h
      · cases h
      rename_i _ _ hspace _ _ hname
      obtain rfl := Except.ok.inj h
      refine ⟨⟨Or.inr hspace, hname⟩, ?_⟩
      have hne : nameSpace ≠ [] := by
        rintro rfl
        exact not_isBasic_nil hspace
      rw [fullName, if_neg hne]
      exact eq_of_splitScope hscope
    · split at h
      · cases h
      · rename_i hname
        obtain rfl := Except.ok.inj h
        exact ⟨⟨Or.inl rfl, hname⟩, rfl⟩
  · rintro ⟨⟨hspace, hname⟩, rfl⟩
    have hname' : validateBasicName n.name = .ok () := hname
    rcases hspace with hempty | hspace
    · rw [fullName, if_pos hempty, validateName, splitScope_of_notMem (hname.notMem (by decide))]
      simp only [hname']
      rw [← hempty]
    · have hspace' : validateBasicName n.nameSpace = .ok () := hspace
      have hne : n.nameSpace ≠ [] := by
        intro hnil
        rw [hnil] at hspace
        exact not_isBasic_nil hspace
      rw [fullName, if_neg hne, validateName, splitScope_append (hspace.notMem (by decide))]
      simp only [hspace', hname']

theorem Name.Valid.notMem_fullName (h : n.Valid)
    (hc : ¬ (c = dash ∨ isDigit c = true ∨ isLetter c = true)) (hcolon : c ≠ colon) :
    c ∉ fullName n := by
  unfold fullName
  split_ifs with hempty
  · exact h.2.notMem hc
  · rcases h.1 with hnil | hspace
    · exact absurd hnil hempty
    · simp [hspace.notMem hc, h.2.notMem hc, hcolon]

theorem Name.Valid.fullName_ne_nil (h : n.Valid) : fullName n ≠ [] := by
  unfold fullName
  split_ifs
  · intro hnil
    have hbasic := h.2
    rw [hnil] at hbasic
    exact not_isBasic_nil hbasic
  · simp

def IsNumber (w : QString) : Prop := w ≠ [] ∧ ∀ c ∈ w, isDigit c = true

/-- The number that a run of digits makes in an `int`. -/
def wrapped (w : QString) : UInt32 := UInt32.ofNat (readDigits w)

theorem toUInt32_digit (hc : isDigit c = true) (n : ℕ) :
    UInt32.ofNat n * 10 + c.toUInt32 - 48 = UInt32.ofNat (10 * n + digitValue c) := by
  have hlow := (isDigit_iff.mp hc).1
  have hc32 : c.toUInt32 = UInt32.ofNat c.toNat := by
    simp
  have hnat : c.toNat = digitValue c + 48 := by
    unfold digitValue
    omega
  rw [hc32, hnat, Nat.mul_comm 10 n, UInt32.ofNat_add, UInt32.ofNat_add, UInt32.ofNat_mul,
    ← UInt32.add_assoc]
  exact UInt32.add_sub_cancel _ _

theorem readNumbers_run {w rest : QString} (h : ∀ c ∈ w, isDigit c = true) (n : ℕ) :
    readNumbers (some (UInt32.ofNat n)) (w ++ rest) = readNumbers
      (some (UInt32.ofNat (w.foldl (fun n c => 10 * n + digitValue c) n))) rest := by
  induction w generalizing n with
  | nil => rfl
  | cons c w ih =>
    obtain ⟨hc, hw⟩ := List.forall_mem_cons.mp h
    rw [List.cons_append, readNumbers, if_pos hc, toUInt32_digit hc, ih hw, List.foldl_cons]

theorem readNumbers_number {w : QString} (h : IsNumber w) (rest : QString) :
    readNumbers none (w ++ rest) = readNumbers (some (wrapped w)) rest := by
  obtain ⟨hne, hdigits⟩ := h
  cases w with
  | nil => exact absurd rfl hne
  | cons c w =>
    obtain ⟨hc, hw⟩ := List.forall_mem_cons.mp hdigits
    have hfirst : c.toUInt32 - 48 = UInt32.ofNat (10 * 0 + digitValue c) := by
      rw [← toUInt32_digit hc 0]
      simp
    rw [List.cons_append, readNumbers, if_pos hc, hfirst, readNumbers_run hw]
    rfl

theorem readNumbers_join {ws : List QString} (hne : ws ≠ []) (h : ∀ w ∈ ws, IsNumber w) :
    readNumbers none ([period].intercalate ws) = .ok (ws.map wrapped) := by
  induction ws with
  | nil => exact absurd rfl hne
  | cons w ws ih =>
    obtain ⟨hw, hws⟩ := List.forall_mem_cons.mp h
    cases ws with
    | nil =>
      rw [List.intercalate_singleton, ← List.append_nil w, readNumbers_number hw]
      simp [readNumbers]
    | cons v vs =>
      rw [List.intercalate_cons_cons, List.append_assoc, readNumbers_number hw,
        List.singleton_append, readNumbers, if_neg (by decide), if_pos rfl, ih (by simp) hws]
      rfl

theorem exists_later_numbers {o : Option UInt32} {numbers : List UInt32}
    (h : readNumbers o s = .ok numbers) (hlast : s.getLast? ≠ some period) :
    ∃ (w : QString) (ws : List QString), (∀ c ∈ w, isDigit c = true) ∧ (∀ v ∈ ws, IsNumber v) ∧
      s = [period].intercalate (w :: ws) ∧ (o = none → w = [] → ws = []) := by
  fun_induction readNumbers o s generalizing numbers with
  | case1 | case2 => exact ⟨[], [], by simp, by simp, rfl, fun _ _ => rfl⟩
  | case3 c rest hc ih =>
    obtain ⟨w, ws, hw, hws, rfl, -⟩ := ih h (by
      intro hrest
      exact hlast (by rw [List.getLast?_cons, hrest]; rfl))
    refine ⟨c :: w, ws, List.forall_mem_cons.mpr ⟨hc, hw⟩, hws, ?_, fun _ hnil => by cases hnil⟩
    cases ws <;> simp [List.intercalate]
  | case4 => cases h
  | case5 value c rest hc ih =>
    obtain ⟨w, ws, hw, hws, rfl, -⟩ := ih h (by
      intro hrest
      exact hlast (by rw [List.getLast?_cons, hrest]; rfl))
    refine ⟨c :: w, ws, List.forall_mem_cons.mpr ⟨hc, hw⟩, hws, ?_, fun hnone => by cases hnone⟩
    cases ws <;> simp [List.intercalate]
  | case6 => cases h
  | case7 value rest numbers' hrest _ ih =>
    -- a number has to follow the period
    have hne : rest ≠ [] := by
      rintro rfl
      exact hlast rfl
    obtain ⟨w, ws, hw, hws, rfl, hnone⟩ := ih hrest (by
      intro hrest
      exact hlast (by rw [List.getLast?_cons, hrest]; rfl))
    have hwne : w ≠ [] := by
      rintro rfl
      rw [hnone rfl rfl] at hne
      exact hne rfl
    refine ⟨[], w :: ws, by simp, List.forall_mem_cons.mpr ⟨⟨hwne, hw⟩, hws⟩, ?_,
      fun hnone => by cases hnone⟩
    simp [List.intercalate]
  | case8 => cases h

theorem exists_numbers {numbers : List UInt32}
    (h : readNumbers none s = .ok numbers) (hlast : s.getLast? ≠ some period) (hne : s ≠ []) :
    ∃ ws : List QString, ws ≠ [] ∧ (∀ w ∈ ws, IsNumber w) ∧ s = [period].intercalate ws := by
  obtain ⟨w, ws, hw, hws, rfl, hnone⟩ := exists_later_numbers h hlast
  refine ⟨w :: ws, by simp, List.forall_mem_cons.mpr ⟨⟨?_, hw⟩, hws⟩, rfl⟩
  rintro rfl
  rw [hnone rfl rfl] at hne
  exact hne rfl

end SnapCpp.SnapVersion
