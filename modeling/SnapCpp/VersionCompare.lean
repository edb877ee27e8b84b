import SnapCpp.DependencyVersions

/-!
Versions as sequences of numbers. Two versions are compared number by number, the shorter one
going on with zeroes; a number is an `int`, and one from 2^31 on is compared as another number.
-/
namespace SnapCpp.SnapVersion

open QString QNumber

def lexOrder (a b : List ℕ) : Ordering := if a < b then .lt else if b < a then .gt else .eq

def numericOrder (a b : List ℕ) : Ordering :=
  lexOrder (a.rightpad (max a.length b.length) 0) (b.rightpad (max a.length b.length) 0)

def writtenNumbers (s : QString) : List ℕ := (runs s).map readDigits

theorem lexOrder_cons (m n : ℕ) (a b : List ℕ) : lexOrder (m :: a) (n :: b) =
    if m < n then .lt else if n < m then .gt else lexOrder a b := by
  rw [lexOrder, lexOrder]
  simp only [List.cons_lt_cons_iff]
  rcases lt_trichotomy m n with hlt | rfl | hlt
  · simp [hlt]
  · simp
  · simp [hlt, hlt.not_gt, hlt.ne']

theorem lexOrder_self (a : List ℕ) : lexOrder a a = .eq := by
  rw [lexOrder, if_neg (lt_irrefl a), if_neg (lt_irrefl a)]

theorem rightpad_cons (n m : ℕ) (a : List ℕ) :
    (m :: a).rightpad (n + 1) 0 = m :: a.rightpad n 0 := by
  simp [List.rightpad, Nat.add_sub_add_right]

theorem rightpad_nil (n : ℕ) : ([] : List ℕ).rightpad (n + 1) 0 = 0 :: [].rightpad n 0 := by
  simp [List.rightpad, List.replicate_succ]

theorem numericOrder_cons_cons (m n : ℕ) (a b : List ℕ) : numericOrder (m :: a) (n :: b) =
    if m < n then .lt else if n < m then .gt else numericOrder a b := by
  have hmax : max (m :: a).length (n :: b).length = max a.length b.length + 1 := by
    simp only [List.length_cons]
    omega
  rw [numericOrder, hmax, rightpad_cons, rightpad_cons, lexOrder_cons]
  rfl

theorem numericOrder_cons_nil (m : ℕ) (a : List ℕ) : numericOrder (m :: a) [] =
    if 0 < m then .gt else numericOrder a [] := by
  rw [numericOrder, numericOrder, List.length_cons, List.length_nil, Nat.max_zero, Nat.max_zero,
    rightpad_cons, rightpad_nil, lexOrder_cons, if_neg (Nat.not_lt_zero m)]

theorem numericOrder_nil_cons (n : ℕ) (b : List ℕ) : numericOrder [] (n :: b) =
    if 0 < n then .lt else numericOrder [] b := by
  rw [numericOrder, numericOrder, List.length_cons, List.length_nil, Nat.zero_max, Nat.zero_max,
    rightpad_cons, rightpad_nil, lexOrder_cons, if_neg (Nat.not_lt_zero n)]

theorem toInt_of_small {n : UInt32} (h : IsSmall n) : toInt n = n.toNat := by
  unfold IsSmall at h
  rw [toInt, if_pos h]

theorem toInt_zero : toInt 0 = 0 := by decide

theorem compare_replicate_zero (k : ℕ) (other : List UInt32) :
    compare (List.replicate k 0) other = compare [] other := by
  induction k generalizing other with
  | zero => rfl
  | succ k ih =>
    rw [List.replicate_succ]
    cases other with
    | nil =>
      have hstep : compare (0 :: List.replicate k 0) [] = compare (List.replicate k 0) [] := by
        rw [compare, toInt_zero, if_neg (lt_irrefl _), if_neg (lt_irrefl _)]
      rw [hstep, ih]
    | cons r rs => rw [compare, compare, toInt_zero, ih]

/-- The zeroes that go are those that the comparison goes on with. -/
theorem compare_append_zeroes (numbers : List UInt32) (k : ℕ) (other : List UInt32) :
    compare (numbers ++ List.replicate k 0) other = compare numbers other := by
  induction numbers generalizing other with
  | nil => exact compare_replicate_zero k other
  | cons n numbers ih =>
    cases other with
    | nil => rw [List.cons_append, compare, compare, ih]
    | cons r rs => rw [List.cons_append, compare, compare, ih]

theorem compare_canonicalize (numbers other : List UInt32) :
    compare (canonicalize numbers) other = compare numbers other := by
  cases numbers with
  | nil => rfl
  | cons n rest =>
    have hzeroes : rest.rtakeWhile (· == 0) =
        List.replicate (rest.rtakeWhile (· == 0)).length 0 := by
      refine List.eq_replicate_of_mem fun m hm => ?_
      simpa using List.mem_rtakeWhile_imp hm
    have hall := compare_append_zeroes (n :: rest.rdropWhile (· == 0))
      (rest.rtakeWhile (· == 0)).length other
    rw [← hzeroes, List.cons_append, List.rdropWhile_append_rtakeWhile] at hall
    rw [canonicalize, hall]

theorem compare_swap (l r : List UInt32) : compare r l = (compare l r).swap := by
  fun_induction compare l r with
  | case1 =>
    rw [compare]
    rfl
  | case2 l ls hneg => rw [compare, if_neg (by omega), if_pos hneg]; rfl
  | case3 l ls _ hpos => rw [compare, if_pos hpos]; rfl
  | case4 l ls hneg hpos ih => rw [compare, if_neg hpos, if_neg hneg, ih]
  | case5 r rs hpos => rw [compare, if_neg (by omega), if_pos hpos]; rfl
  | case6 r rs _ hneg => rw [compare, if_pos hneg]; rfl
  | case7 r rs hpos hneg ih => rw [compare, if_neg hneg, if_neg hpos, ih]
  | case8 l ls r rs hlt => rw [compare, if_neg (by omega), if_pos hlt]; rfl
  | case9 l ls r rs _ hlt => rw [compare, if_pos hlt]; rfl
  | case10 l ls r rs hlt hgt ih => rw [compare, if_neg hgt, if_neg hlt, ih]

theorem compare_self (l : List UInt32) : compare l l = .eq := by
  induction l with
  | nil => rw [compare]
  | cons n rest ih => rw [compare, if_neg (lt_irrefl _), if_neg (lt_irrefl _), ih]

/-- Small numbers are compared as they are written. -/
theorem compare_of_small {l r : List UInt32} (hl : ∀ n ∈ l, IsSmall n)
    (hr : ∀ n ∈ r, IsSmall n) :
    compare l r = numericOrder (l.map UInt32.toNat) (r.map UInt32.toNat) := by
  fun_induction compare l r with
  | case1 => exact (lexOrder_self []).symm
  | case2 l ls hneg =>
    rw [toInt_of_small (hl l List.mem_cons_self)] at hneg
    omega
  | case3 l ls _ hpos =>
    rw [toInt_of_small (hl l List.mem_cons_self)] at hpos
    rw [List.map_cons, List.map_nil, numericOrder_cons_nil, if_pos (by omega)]
  | case4 l ls _ hpos ih =>
    obtain ⟨hfirst, hl⟩ := List.forall_mem_cons.mp hl
    rw [toInt_of_small hfirst] at hpos
    rw [List.map_cons, List.map_nil, numericOrder_cons_nil, if_neg (by omega)]
    exact ih hl hr
  | case5 r rs hpos =>
    rw [toInt_of_small (hr r List.mem_cons_self)] at hpos
    rw [List.map_cons, List.map_nil, numericOrder_nil_cons, if_pos (by omega)]
  | case6 r rs _ hneg =>
    rw [toInt_of_small (hr r List.mem_cons_self)] at hneg
    omega
  | case7 r rs hpos _ ih =>
    obtain ⟨hfirst, hr⟩ := List.forall_mem_cons.mp hr
    rw [toInt_of_small hfirst] at hpos
    rw [List.map_cons, List.map_nil, numericOrder_nil_cons, if_neg (by omega)]
    exact ih hl hr
  | case8 l ls r rs hlt =>
    rw [toInt_of_small (hl l List.mem_cons_self), toInt_of_small (hr r List.mem_cons_self)] at hlt
    rw [List.map_cons, List.map_cons, numericOrder_cons_cons, if_pos (by omega)]
  | case9 l ls r rs _ hgt =>
    rw [toInt_of_small (hl l List.mem_cons_self), toInt_of_small (hr r List.mem_cons_self)] at hgt
    rw [List.map_cons, List.map_cons, numericOrder_cons_cons, if_neg (by omega),
      if_pos (by omega)]
  | case10 l ls r rs hlt hgt ih =>
    obtain ⟨hfirst, hl⟩ := List.forall_mem_cons.mp hl
    obtain ⟨hsecond, hr⟩ := List.forall_mem_cons.mp hr
    rw [toInt_of_small hfirst, toInt_of_small hsecond] at hlt hgt
    rw [List.map_cons, List.map_cons, numericOrder_cons_cons, if_neg (by omega),
      if_neg (by omega)]
    exact ih hl hr

def largest : UInt32 := 0x7FFFFFFF

theorem toInt_le_largest (n : UInt32) : toInt n ≤ toInt largest := by
  have hlargest : toInt largest = 0x7FFFFFFF := by decide
  have hlt := n.toNat_lt
  rw [hlargest, toInt]
  split_ifs with hsmall
  · have hnat : n.toNat < 0x80000000 := hsmall
    omega
  · omega

/-- No sequence comes after enough of the largest number. -/
theorem compare_largest (l : List UInt32) :
    compare l (List.replicate (l.length + 1) largest) = .lt := by
  induction l with
  | nil =>
    rw [List.replicate_succ, compare, if_pos (by decide)]
  | cons n rest ih =>
    rw [List.length_cons, List.replicate_succ, compare]
    split_ifs with hlt hgt
    · rfl
    · exact absurd (toInt_le_largest n) (not_le.mpr hgt)
    · exact ih

theorem compare_front (front l r : List UInt32) :
    compare (front ++ l) (front ++ r) = compare l r := by
  induction front with
  | nil => rfl
  | cons n front ih =>
    rw [List.cons_append, List.cons_append, compare, if_neg (lt_irrefl _), if_neg (lt_irrefl _),
      ih]

theorem numericOrder_front (front l r : List ℕ) :
    numericOrder (front ++ l) (front ++ r) = numericOrder l r := by
  induction front with
  | nil => rfl
  | cons n front ih =>
    rw [List.cons_append, List.cons_append, numericOrder_cons_cons, if_neg (lt_irrefl _),
      if_neg (lt_irrefl _), ih]

section Versions

variable {s : QString} {v : List UInt32}

/-- Numbers of a version that fit in an `int`. -/
def Fits (s : QString) : Prop := ∀ n ∈ writtenNumbers s, n < 2 ^ 31

theorem validateVersion_eq (h : validateVersion s = .ok v) : ∃ ws : List QString, ws ≠ [] ∧
    v = canonicalize (ws.map wrapped) ∧ writtenNumbers s = ws.map readDigits := by
  obtain ⟨ws, hne, hnumber, rfl, rfl⟩ := exists_written h
  exact ⟨ws, hne, rfl, by rw [writtenNumbers, runs_join hnumber]⟩

theorem toNat_wrapped {w : QString} (h : readDigits w < 2 ^ 31) :
    (wrapped w).toNat = readDigits w ∧ IsSmall (wrapped w) := by
  have hnat : (wrapped w).toNat = readDigits w := by
    rw [wrapped, UInt32.toNat_ofNat']
    omega
  refine ⟨hnat, ?_⟩
  show (wrapped w).toNat < 0x80000000
  omega

variable {a b : QString} {va vb : List UInt32}

/-- Numbers that fit are stored as they are written. -/
theorem map_wrapped {ws : List QString} (h : ∀ n ∈ ws.map readDigits, n < 2 ^ 31) :
    (∀ n ∈ ws.map wrapped, IsSmall n) ∧
      (ws.map wrapped).map UInt32.toNat = ws.map readDigits := by
  rw [List.forall_mem_map] at h
  refine ⟨List.forall_mem_map.mpr fun w hw => (toNat_wrapped (h w hw)).2, ?_⟩
  rw [List.map_map]
  exact List.map_congr_left fun w hw => (toNat_wrapped (h w hw)).1

theorem compare_canonical (l r : List UInt32) :
    compare (canonicalize l) (canonicalize r) = compare l r := by
  rw [compare_canonicalize, compare_swap, compare_canonicalize, ← compare_swap]

theorem compare_fits (ha : validateVersion a = .ok va) (hb : validateVersion b = .ok vb)
    (hfitsa : Fits a) (hfitsb : Fits b) :
    compare va vb = numericOrder (writtenNumbers a) (writtenNumbers b) := by
  obtain ⟨ws, _, rfl, hwritten⟩ := validateVersion_eq ha
  obtain ⟨ws', _, rfl, hwritten'⟩ := validateVersion_eq hb
  rw [Fits, hwritten] at hfitsa
  rw [Fits, hwritten'] at hfitsb
  obtain ⟨hsmall, hmap⟩ := map_wrapped hfitsa
  obtain ⟨hsmall', hmap'⟩ := map_wrapped hfitsb
  rw [compare_canonical, compare_of_small hsmall hsmall', hmap, hmap', hwritten, hwritten']

theorem validateVersion_versionString {numbers : List UInt32} (hne : numbers ≠ [])
    (hcanonical : canonicalize numbers = numbers) (hsmall : ∀ n ∈ numbers, IsSmall n)
    (op : Operator) : validateVersion (versionString ⟨numbers, op⟩) = .ok numbers := by
  have hnil : numbers.map (fun n => decimal n.toNat) ≠ [] := by simpa using hne
  have hread := validateVersion_join hnil (forall_isNumber _)
  have hwrapped : (wrapped ∘ fun n : UInt32 => decimal n.toNat) = id :=
    funext fun n => wrapped_decimal n
  rw [List.map_map, hwrapped, List.map_id, hcanonical] at hread
  rw [versionString, versionString_of_small hsmall]
  exact hread

/-- The text of a version whose numbers fit is accepted, and gives the version again. -/
theorem reread_fits (ha : validateVersion a = .ok va) (hfits : Fits a) (op : Operator) :
    ∃ v, validateVersion (versionString ⟨va, op⟩) = .ok v ∧ compare v va = .eq := by
  obtain ⟨hne, hcanonical, _⟩ := validateVersion_spec ha
  obtain ⟨ws, _, rfl, hwritten⟩ := validateVersion_eq ha
  rw [Fits, hwritten] at hfits
  have hsmall := (small_canonicalize _).mpr (map_wrapped hfits).1
  exact ⟨_, validateVersion_versionString hne hcanonical hsmall op, compare_self _⟩

def versionText (numbers : List ℕ) : QString := [period].intercalate (numbers.map decimal)

theorem isNumber_decimals (numbers : List ℕ) : ∀ w ∈ numbers.map decimal, IsNumber w := by
  intro w hw
  obtain ⟨n, _, rfl⟩ := List.mem_map.mp hw
  exact isNumber_decimal n

theorem writtenNumbers_versionText (numbers : List ℕ) :
    writtenNumbers (versionText numbers) = numbers := by
  rw [writtenNumbers, versionText, runs_join (isNumber_decimals numbers), List.map_map]
  exact (List.map_congr_left fun n _ => readDigits_decimal n).trans (List.map_id _)

theorem validateVersion_versionText {numbers : List ℕ} (hne : numbers ≠ []) :
    validateVersion (versionText numbers) = .ok (canonicalize (numbers.map UInt32.ofNat)) := by
  have hnumbers : numbers.map decimal ≠ [] := by simpa using hne
  have hwrapped : (numbers.map decimal).map wrapped = numbers.map UInt32.ofNat := by
    rw [List.map_map]
    exact List.map_congr_left fun n _ => congrArg UInt32.ofNat (readDigits_decimal n)
  rw [versionText, validateVersion_join hnumbers (isNumber_decimals numbers), hwrapped]

/-- A number that does not fit comes after some that do and is stored as one that does not. -/
theorem exists_misplaced (ha : validateVersion a = .ok va) (hfits : ¬ Fits a) :
    ∃ b vb, validateVersion b = .ok vb ∧ Fits b ∧
      compare va vb ≠ numericOrder (writtenNumbers a) (writtenNumbers b) := by
  obtain ⟨ws, _, rfl, hwritten⟩ := validateVersion_eq ha
  rw [Fits, hwritten, List.forall_mem_map] at hfits
  obtain ⟨front, w, back, rfl, hfront, hw⟩ := Pieces.exists_first hfits
  have hlargest : largest.toNat = 2 ^ 31 - 1 := by decide
  let numbers := front.map readDigits ++ List.replicate (back.length + 2) largest.toNat
  have hne : numbers ≠ [] := by simp [numbers]
  refine ⟨versionText numbers, _, validateVersion_versionText hne, ?_, ?_⟩
  · rw [Fits, writtenNumbers_versionText]
    intro n hn
    rcases List.mem_append.mp hn with hn | hn
    · obtain ⟨v, hv, rfl⟩ := List.mem_map.mp hn
      exact hfront v hv
    · rw [List.eq_of_mem_replicate hn, hlargest]
      omega
  · have hstored : numbers.map UInt32.ofNat = front.map wrapped ++
        List.replicate ((wrapped w :: back.map wrapped).length + 1) largest := by
      have hofNat : UInt32.ofNat largest.toNat = largest := UInt32.ofNat_toNat
      simp only [numbers, List.map_append, List.map_map, List.map_replicate, List.length_cons,
        List.length_map, hofNat]
      rfl
    have hcode : compare (canonicalize ((front ++ w :: back).map wrapped))
        (canonicalize (numbers.map UInt32.ofNat)) = .lt := by
      rw [compare_canonical, hstored, List.map_append, List.map_cons, compare_front,
        compare_largest]
    have hspec : numericOrder ((front ++ w :: back).map readDigits) numbers = .gt := by
      rw [List.map_append, List.map_cons, numericOrder_front, List.replicate_succ,
        numericOrder_cons_cons, if_neg (by omega), if_pos (by omega)]
    rw [hcode, hwritten, writtenNumbers_versionText, hspec]
    decide

/-- A version is ordered by its numbers, and its text is accepted for it again, if and only if
its numbers fit in an `int`. -/
theorem compare_iff (ha : validateVersion a = .ok va) : Fits a ↔
    (∀ b vb, validateVersion b = .ok vb → Fits b →
        compare va vb = numericOrder (writtenNumbers a) (writtenNumbers b)) ∧
      ∀ op, ∃ v, validateVersion (versionString ⟨va, op⟩) = .ok v ∧ compare v va = .eq := by
  constructor
  · intro hfits
    exact ⟨fun b vb hb hfitsb => compare_fits ha hb hfits hfitsb, reread_fits ha hfits⟩
  · rintro ⟨hcompare, -⟩
    by_contra hfits
    obtain ⟨b, vb, hb, hfitsb, hne⟩ := exists_misplaced ha hfits
    exact hne (hcompare b vb hb hfitsb)

theorem compare_iff_components : Fits (versionText [1, 2, 3]) ↔
    (∀ b vb, validateVersion b = .ok vb → Fits b →
        compare [1, 2, 3] vb =
          numericOrder (writtenNumbers (versionText [1, 2, 3])) (writtenNumbers b)) ∧
      ∀ op, ∃ v, validateVersion (versionString ⟨[1, 2, 3], op⟩) = .ok v ∧
        compare v [1, 2, 3] = .eq :=
  compare_iff (validateVersion_versionText (List.cons_ne_nil 1 [2, 3]))

/-- 2^32 is compared as zero. -/
theorem compare_overflow : ¬ ∀ (a b : QString) (va vb : List UInt32),
    validateVersion a = .ok va → validateVersion b = .ok vb →
    compare va vb = numericOrder (writtenNumbers a) (writtenNumbers b) := by
  intro h
  have hsame := h (versionText [4294967296]) (versionText [0]) _ _
    (validateVersion_versionText (by simp)) (validateVersion_versionText (by simp))
  rw [writtenNumbers_versionText, writtenNumbers_versionText] at hsame
  have hzero : canonicalize ([4294967296].map UInt32.ofNat) =
      canonicalize ([0].map UInt32.ofNat) := by decide
  rw [hzero, compare_self] at hsame
  exact absurd hsame (by decide)

end Versions

end SnapCpp.SnapVersion
