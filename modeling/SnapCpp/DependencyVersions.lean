import SnapCpp.DependencyNames
import SnapCpp.Ensures

/-!
One part of the list of versions: a version with its operator, or the two ends of a range. What
is stored is canonical, and its numbers are those of the text before the first null character.
The version that is stored is read back from its operator and its numbers, unless a number is
written with a minus sign.
-/
namespace SnapCpp.SnapVersion

open QString QNumber

structure Version.Valid (v : Version) : Prop where
  numbers_ne : v.numbers ≠ []
  canonical : canonicalize v.numbers = v.numbers
  ordered : v.operator ≠ .unordered

def IsSmall (n : UInt32) : Prop := n < 0x80000000

instance (n : UInt32) : Decidable (IsSmall n) := by
  unfold IsSmall
  infer_instance

def runs (s : QString) : List QString := (s.splitOnP fun c => !isDigit c).filter (· ≠ [])

theorem runs_nil : runs [] = [] := by
  simp [runs]

variable {c : UInt16} {ws : List QString} {numbers : List UInt32} {s : QString} {op : Operator}
  {vs : List Version} {v : Version}

theorem runs_cons (hc : isDigit c = false) (s : QString) : runs (c :: s) = runs s := by
  have hsplit := List.splitOnP_append_cons (p := fun c => !isDigit c) [] s
    (show (!isDigit c) = true by simp [hc])
  rw [List.nil_append] at hsplit
  rw [runs, hsplit]
  simp [runs]

theorem runs_append {a b : QString} (hb : ∀ c, b.head? = some c → isDigit c = false) :
    runs (a ++ b) = runs a ++ runs b := by
  cases b with
  | nil => rw [List.append_nil, runs_nil, List.append_nil]
  | cons c b =>
    have hc := hb c rfl
    rw [runs_cons hc, runs, List.splitOnP_append_cons _ _ (by simp [hc]), List.filter_append]
    rfl

theorem runs_of_not_digit {a : QString} (ha : ∀ c ∈ a, isDigit c = false) (b : QString) :
    runs (a ++ b) = runs b := by
  induction a with
  | nil => rfl
  | cons c a ih =>
    obtain ⟨hc, ha⟩ := List.forall_mem_cons.mp ha
    rw [List.cons_append, runs_cons hc, ih ha]

theorem runs_dropWhile {p : UInt16 → Bool} (hp : ∀ c, p c = true → isDigit c = false)
    (s : QString) : runs (s.dropWhile p) = runs s := by
  conv_rhs => rw [← List.takeWhile_append_dropWhile (p := p) (l := s)]
  exact (runs_of_not_digit (fun c hc => hp c (List.mem_takeWhile_imp hc)) _).symm

theorem runs_number {w : QString} (hw : IsNumber w) : runs w = [w] := by
  rw [runs, List.splitOnP_eq_singleton (fun c hc => by simp [hw.2 c hc])]
  simp [hw.1]

theorem runs_join (h : ∀ w ∈ ws, IsNumber w) :
    runs ([period].intercalate ws) = ws := by
  induction ws with
  | nil => exact runs_nil
  | cons w ws ih =>
    obtain ⟨hw, hws⟩ := List.forall_mem_cons.mp h
    cases ws with
    | nil => rw [List.intercalate_singleton, runs_number hw]
    | cons v vs =>
      rw [List.intercalate_cons_cons, List.append_assoc, List.singleton_append,
        runs_append (by rintro c ⟨⟩; decide), runs_number hw, runs_cons (by decide), ih hws]
      rfl

theorem canonicalize_idem (numbers : List UInt32) :
    canonicalize (canonicalize numbers) = canonicalize numbers := by
  cases numbers with
  | nil => rfl
  | cons n rest => rw [canonicalize, canonicalize, List.rdropWhile_idempotent]

theorem canonicalize_ne_nil (h : numbers ≠ []) :
    canonicalize numbers ≠ [] := by
  cases numbers with
  | nil => exact absurd rfl h
  | cons n rest => simp [canonicalize]

/-- The zeroes that go are small. -/
theorem small_canonicalize (numbers : List UInt32) :
    (∀ n ∈ canonicalize numbers, IsSmall n) ↔ ∀ n ∈ numbers, IsSmall n := by
  cases numbers with
  | nil => exact Iff.rfl
  | cons n rest =>
    simp only [canonicalize, List.forall_mem_cons]
    refine and_congr_right fun _ => ⟨fun h m hm => ?_, fun h m hm => ?_⟩
    · rw [← List.rdropWhile_append_rtakeWhile (p := (· == 0)) (l := rest), List.mem_append] at hm
      rcases hm with hm | hm
      · exact h m hm
      · have hzero : m = 0 := by simpa using List.mem_rtakeWhile_imp hm
        rw [hzero]
        decide
    · exact h m ((List.rdropWhile_prefix _ _).subset hm)

theorem exists_written (h : validateVersion s = .ok numbers) : ∃ ws : List QString, ws ≠ [] ∧
      (∀ w ∈ ws, IsNumber w) ∧ s = [period].intercalate ws ∧
        numbers = canonicalize (ws.map wrapped) := by
  unfold validateVersion at h
  split_ifs at h with hne hlast
  obtain ⟨all, hread, h⟩ := bind_eq_ok h
  obtain rfl : canonicalize all = numbers := Except.ok.inj h
  obtain ⟨ws, hws, hnumber, rfl⟩ := exists_numbers hread hlast hne
  rw [readNumbers_join hws hnumber] at hread
  obtain rfl := Except.ok.inj hread
  exact ⟨ws, hws, hnumber, rfl, rfl⟩

theorem validateVersion_spec (h : validateVersion s = .ok numbers) :
    numbers ≠ [] ∧ canonicalize numbers = numbers ∧
      ((∀ n ∈ numbers, IsSmall n) ↔ ∀ w ∈ runs s, IsSmall (wrapped w)) := by
  obtain ⟨ws, hws, hnumber, rfl, rfl⟩ := exists_written h
  refine ⟨canonicalize_ne_nil (by simpa using hws), canonicalize_idem _, ?_⟩
  rw [small_canonicalize, runs_join hnumber, List.forall_mem_map]

theorem not_digit_of_isCSpace (h : isCSpace c = true) : isDigit c = false := by
  rw [Bool.eq_false_iff]
  intro hd
  have hc := isDigit_iff.mp hd
  exact of_ascii (p := fun c => isDigit c = true → ¬isCSpace c = true) (by decide) (by omega) hd h

theorem runs_afterOperator (s : QString) : runs (afterOperator s) = runs s := by
  rw [afterOperator, runs_dropWhile (fun c hc => not_digit_of_isCSpace hc),
    runs_dropWhile (fun c hc => by simpa using hc)]

/-- The text of a version and what follows it. -/
theorem runs_version (s : QString) :
    runs s = runs (s.takeWhile isVersionChar) ++ runs (s.dropWhile isVersionChar) := by
  conv_lhs => rw [← List.takeWhile_append_dropWhile (p := isVersionChar) (l := s)]
  refine runs_append (fun c hc => ?_)
  have hnot := List.head?_dropWhile_not isVersionChar s
  rw [hc] at hnot
  have hversion : isVersionChar c = false := by simpa using hnot
  unfold isVersionChar at hversion
  exact (Bool.or_eq_false_iff.mp hversion).1

theorem rangeVersions_spec {v rhs : List UInt32} (h : rangeVersions op v rhs = .ok vs) :
    ∃ op₁ op₂, op₁ ≠ .unordered ∧ op₂ ≠ .unordered ∧
      (vs = [⟨v, op₁⟩, ⟨rhs, op₂⟩] ∨ vs = [⟨rhs, op₁⟩, ⟨v, op₂⟩]) := by
  unfold rangeVersions at h
  split at h
  case h_5 => cases h
  all_goals split_ifs at h
  · exact ⟨_, _, by decide, by decide, Or.inl (Except.ok.inj h).symm⟩
  · exact ⟨_, _, by decide, by decide, Or.inl (Except.ok.inj h).symm⟩
  · exact ⟨_, _, by decide, by decide, Or.inr (Except.ok.inj h).symm⟩
  · exact ⟨_, _, by decide, by decide, Or.inr (Except.ok.inj h).symm⟩

/-- What is read of a part with the operator `op`: valid versions, with the numbers of the
text. -/
theorem readVersion_spec (h : readVersion op s = .ok vs) : (∀ v ∈ vs, v.Valid) ∧
      ((∀ v ∈ vs, ∀ n ∈ v.numbers, IsSmall n) ↔ ∀ w ∈ runs s, IsSmall (wrapped w)) := by
  rw [runs_version s, List.forall_mem_append]
  unfold readVersion at h
  split at h
  · cases h
  rename_i v hv
  obtain ⟨hne, hcanonical, hsmall⟩ := validateVersion_spec hv
  have hrest : runs ((s.dropWhile isVersionChar).dropWhile isCSpace) =
      runs (s.dropWhile isVersionChar) := runs_dropWhile (fun c hc => not_digit_of_isCSpace hc) _
  rw [← hsmall, ← hrest]
  revert h
  generalize (s.dropWhile isVersionChar).dropWhile isCSpace = r
  intro h
  simp only at h
  by_cases hr : r = []
  · rw [if_pos hr] at h
    obtain rfl := Except.ok.inj h
    simp only [List.forall_mem_singleton, hr, runs_nil]
    refine ⟨⟨hne, hcanonical, ?_⟩, by simp⟩
    show (if op = .unordered then Operator.laterOrEqual else op) ≠ .unordered
    split_ifs with hop
    · decide
    · exact hop
  rw [if_neg hr] at h
  by_cases hop : op = .unordered
  swap
  · rw [if_pos hop] at h
    cases h
  rw [if_neg (not_not.mpr hop)] at h
  split at h
  · cases h
  rename_i rangeOp _
  by_cases hrange : rangeOp = .equal ∨ rangeOp = .except
  · rw [if_pos hrange] at h
    cases h
  rw [if_neg hrange] at h
  by_cases hend : (afterOperator r).dropWhile isVersionChar = []
  swap
  · rw [if_pos hend] at h
    cases h
  rw [if_neg (not_not.mpr hend)] at h
  split at h
  · cases h
  rename_i rhs hrhs
  obtain ⟨hne', hcanonical', hsmall'⟩ := validateVersion_spec hrhs
  have hruns : runs r = runs ((afterOperator r).takeWhile isVersionChar) := by
    rw [← runs_afterOperator r, runs_version (afterOperator r), hend, runs_nil, List.append_nil]
  rw [hruns, ← hsmall']
  obtain ⟨op₁, op₂, hop₁, hop₂, rfl | rfl⟩ := rangeVersions_spec h
  · simp only [List.forall_mem_cons, List.not_mem_nil, false_imp_iff, implies_true, and_true]
    exact ⟨⟨hne, hcanonical, hop₁⟩, hne', hcanonical', hop₂⟩
  · simp only [List.forall_mem_cons, List.not_mem_nil, false_imp_iff, implies_true, and_true]
    exact ⟨⟨⟨hne', hcanonical', hop₁⟩, hne, hcanonical, hop₂⟩, and_comm⟩

theorem readVersionRange_spec {p : QString} (h : readVersionRange p = .ok vs) :
    (∀ v ∈ vs, v.Valid) ∧
      ((∀ v ∈ vs, ∀ n ∈ v.numbers, IsSmall n) ↔
        ∀ w ∈ runs (cString p), IsSmall (wrapped w)) := by
  unfold readVersionRange at h
  simp only at h
  split_ifs at h
  · split at h
    · cases h
    · rw [← runs_afterOperator]
      exact readVersion_spec h
  · exact readVersion_spec h

theorem isNumber_decimal (n : ℕ) : IsNumber (decimal n) :=
  ⟨decimal_ne_nil n, fun c hc => isDigit_of_mem_decimal n c hc⟩

theorem wrapped_decimal (n : UInt32) : wrapped (decimal n.toNat) = n := by
  rw [wrapped, readDigits_decimal, UInt32.ofNat_toNat]

theorem number_of_small {n : UInt32} (h : IsSmall n) : number (toInt n) = decimal n.toNat := by
  unfold IsSmall at h
  rw [toInt, if_pos h]
  rfl

/-- A number from 2^31 on is written with a minus sign. -/
theorem number_of_large {n : UInt32} (h : ¬ IsSmall n) :
    ∃ k, number (toInt n) = dash :: decimal k := by
  have hlt : n.toNat < 2 ^ 32 := n.toNat_lt
  have hneg : toInt n < 0 := by
    unfold IsSmall at h
    rw [toInt, if_neg h]
    omega
  obtain ⟨k, hk⟩ := Int.eq_negSucc_of_lt_zero hneg
  exact ⟨k + 1, by rw [hk]; rfl⟩

theorem isVersionChar_of_digit (h : isDigit c = true) : isVersionChar c = true := by
  simp [isVersionChar, h]

theorem isVersionChar_join (h : ∀ w ∈ ws, IsNumber w) :
    ∀ c ∈ [period].intercalate ws, isVersionChar c = true := by
  induction ws with
  | nil => exact fun c hc => by cases hc
  | cons w ws ih =>
    obtain ⟨hw, hws⟩ := List.forall_mem_cons.mp h
    have hfirst : ∀ c ∈ w, isVersionChar c = true := fun c hc => isVersionChar_of_digit (hw.2 c hc)
    cases ws with
    | nil => rwa [List.intercalate_singleton]
    | cons v vs =>
      rw [List.intercalate_cons_cons, List.append_assoc, List.forall_mem_append]
      exact ⟨hfirst, List.forall_mem_cons.mpr ⟨by decide, ih hws⟩⟩

theorem getLast?_join (h : ∀ w ∈ ws, IsNumber w) :
    ([period].intercalate ws).getLast? ≠ some period := by
  induction ws with
  | nil => simp [List.intercalate]
  | cons w ws ih =>
    obtain ⟨hw, hws⟩ := List.forall_mem_cons.mp h
    cases ws with
    | nil =>
      rw [List.intercalate_singleton]
      intro hlast
      have hdigit := hw.2 period (List.mem_of_getLast? hlast)
      revert hdigit
      decide
    | cons v vs =>
      have hne : [period].intercalate (v :: vs) ≠ [] := by
        have hv := (hws v List.mem_cons_self).1
        cases vs <;> simp [List.intercalate, hv]
      rw [List.intercalate_cons_cons, List.append_assoc, List.singleton_append,
        List.getLast?_append_of_ne_nil _ (by simp), List.getLast?_cons_of_ne_nil hne]
      exact ih hws

theorem validateVersion_join (hne : ws ≠ []) (h : ∀ w ∈ ws, IsNumber w) :
    validateVersion ([period].intercalate ws) = .ok (canonicalize (ws.map wrapped)) := by
  have hjoin : [period].intercalate ws ≠ [] := by
    obtain ⟨w, rest, rfl⟩ := List.exists_cons_of_ne_nil hne
    have hw := (h w List.mem_cons_self).1
    cases rest <;> simp [List.intercalate, hw]
  rw [validateVersion, if_neg hjoin, if_neg (getLast?_join h), readNumbers_join hne h]
  rfl

theorem readVersion_join (hop : op ≠ .unordered) (hne : ws ≠ []) (h : ∀ w ∈ ws, IsNumber w) :
    readVersion op ([period].intercalate ws) = .ok [⟨canonicalize (ws.map wrapped), op⟩] := by
  have hall := isVersionChar_join h
  rw [readVersion, List.takeWhile_eq_self_iff.mpr hall, List.dropWhile_eq_nil_iff.mpr hall,
    validateVersion_join hne h]
  simp [hop]

theorem not_digit_of_mem_operatorString (h : c ∈ operatorString op) : isDigit c = false := by
  have hall : (operatorString op).all (fun c => !isDigit c) = true := by
    cases op <;> decide
  simpa using List.all_eq_true.mp hall c h

theorem takeWhile_front {front : QString} (hfront : ∀ c ∈ front, isDigit c = false)
    (hs : ∀ c, s.head? = some c → isDigit c = true) :
    (front ++ s).takeWhile (fun c => !isDigit c) = front := by
  rw [List.takeWhile_append_of_pos (fun c hc => by simp [hfront c hc])]
  cases s with
  | nil => simp
  | cons c s => simp [hs c rfl]

theorem afterOperator_front {front : QString} (hfront : ∀ c ∈ front, isDigit c = false)
    (hs : ∀ c, s.head? = some c → isDigit c = true) : afterOperator (front ++ s) = s := by
  rw [afterOperator, List.dropWhile_append_of_pos (fun c hc => by simp [hfront c hc])]
  cases s with
  | nil => rfl
  | cons c s =>
    have hspace : isCSpace c = false := by
      rw [Bool.eq_false_iff]
      intro hspace
      have hdigit := not_digit_of_isCSpace hspace
      rw [hs c rfl] at hdigit
      cases hdigit
    rw [List.dropWhile_cons_of_neg (by simp [hs c rfl]),
      List.dropWhile_cons_of_neg (by simp [hspace])]

theorem readOperator_written (hop : op ≠ .unordered)
    (hs : ∀ c, s.head? = some c → isDigit c = true) :
    readOperator (operatorString op ++ space :: s) = .ok op ∧
      afterOperator (operatorString op ++ space :: s) = s := by
  have hfront : ∀ c ∈ operatorString op ++ [space], isDigit c = false :=
    List.forall_mem_append.mpr ⟨fun c => not_digit_of_mem_operatorString,
      List.forall_mem_singleton.mpr (by decide)⟩
  have hsplit : operatorString op ++ space :: s = (operatorString op ++ [space]) ++ s := by simp
  rw [hsplit, readOperator, takeWhile_front hfront hs, afterOperator_front hfront hs]
  refine ⟨?_, rfl⟩
  cases op <;> first | exact absurd rfl hop | decide

theorem readOperator_minus (hop : op ≠ .unordered) (hs : ∀ c, s.head? = some c → isDigit c = true) :
    readOperator (operatorString op ++ space :: dash :: s) = .error .operator := by
  have hfront : ∀ c ∈ operatorString op ++ [space, dash], isDigit c = false :=
    List.forall_mem_append.mpr ⟨fun c => not_digit_of_mem_operatorString,
      List.forall_mem_cons.mpr ⟨by decide, List.forall_mem_singleton.mpr (by decide)⟩⟩
  have hsplit : operatorString op ++ space :: dash :: s =
      (operatorString op ++ [space, dash]) ++ s := by simp
  rw [hsplit, readOperator, takeWhile_front hfront hs]
  cases op <;> first | exact absurd rfl hop | decide

theorem head?_join (h : ∀ w ∈ ws, IsNumber w) (rest : QString) (c : UInt16)
    (hne : ws ≠ []) (hc : ([period].intercalate ws ++ rest).head? = some c) :
    isDigit c = true := by
  obtain ⟨w, ws, rfl⟩ := List.exists_cons_of_ne_nil hne
  obtain ⟨hw, hdigits⟩ := h w List.mem_cons_self
  obtain ⟨d, w, rfl⟩ := List.exists_cons_of_ne_nil hw
  have hd := hdigits d List.mem_cons_self
  cases ws <;> simp [List.intercalate] at hc <;> rwa [← hc]

theorem opversionString_eq (hv : v.Valid) :
    opversionString v = operatorString v.operator ++ space :: versionString v := by
  rw [opversionString, if_neg hv.ordered]

def isVersionText (c : UInt16) : Bool :=
  isVersionChar c || c == dash || c == 33 || c == 60 || c == 61 || c == 62

theorem isVersionText_number {n : ℤ} (h : c ∈ number n) : isVersionText c = true := by
  have hdigit : ∀ k, c ∈ decimal k → isVersionText c = true := fun k hc => by
    simp [isVersionText, isVersionChar_of_digit (isDigit_of_mem_decimal k c hc)]
  cases n with
  | ofNat k => exact hdigit k h
  | negSucc k =>
    rcases List.mem_cons.mp h with rfl | h
    · decide
    · exact hdigit _ h

theorem isVersionText_operator (op : Operator) :
    ∀ c ∈ operatorString op, isVersionText c = true := by
  have hall : (operatorString op).all isVersionText = true := by
    cases op <;> decide
  exact List.all_eq_true.mp hall

theorem isVersionText_version (v : Version) : ∀ c ∈ versionString v, isVersionText c = true := by
  intro c hc
  rw [versionString] at hc
  rcases Pieces.mem_intercalate hc with ⟨text, htext, hc⟩ | hc
  · obtain ⟨n, _, rfl⟩ := List.mem_map.mp htext
    exact isVersionText_number hc
  · obtain rfl := List.mem_singleton.mp hc
    decide

theorem notMem_opversion (hv : v.Valid) (hspace : c ≠ space)
    (hc : isVersionText c = false) : c ∉ opversionString v := by
  rw [opversionString_eq hv, List.mem_append, List.mem_cons]
  rintro (hmem | hmem | hmem)
  · rw [isVersionText_operator _ c hmem] at hc
    cases hc
  · exact hspace hmem
  · rw [isVersionText_version _ c hmem] at hc
    cases hc

theorem cString_opversion (hv : v.Valid) :
    cString (opversionString v) = opversionString v := by
  refine List.takeWhile_eq_self_iff.mpr (fun c hc => ?_)
  have hne : c ≠ 0 := by
    rintro rfl
    exact notMem_opversion hv (by decide) (by decide) hc
  simpa using hne

theorem takeWhile_opversion (hv : v.Valid) :
    (opversionString v).takeWhile isVersionChar = [] := by
  rw [opversionString_eq hv]
  have hop := hv.ordered
  revert hop
  cases v.operator <;> intro hop
  · exact absurd rfl hop
  all_goals rfl

theorem versionString_of_small (h : ∀ n ∈ numbers, IsSmall n) :
    numbers.map (fun n => number (toInt n)) = numbers.map fun n => decimal n.toNat :=
  List.map_congr_left fun n hn => number_of_small (h n hn)

theorem forall_isNumber (numbers : List UInt32) :
    ∀ w ∈ numbers.map (fun n => decimal n.toNat), IsNumber w := by
  intro w hw
  obtain ⟨n, _, rfl⟩ := List.mem_map.mp hw
  exact isNumber_decimal _

theorem readVersionRange_opversion (hv : v.Valid) :
    readVersionRange (opversionString v) =
      match readOperator (opversionString v) with
      | .error e => .error e
      | .ok op => readVersion op (afterOperator (opversionString v)) := by
  rw [readVersionRange, cString_opversion hv]
  exact if_pos (takeWhile_opversion hv)

theorem readVersionRange_small (hv : v.Valid) (h : ∀ n ∈ v.numbers, IsSmall n) :
    readVersionRange (opversionString v) = .ok [v] := by
  have hne : v.numbers.map (fun n => decimal n.toNat) ≠ [] := by
    simpa using hv.numbers_ne
  have htext : versionString v =
      [period].intercalate (v.numbers.map fun n => decimal n.toNat) := by
    rw [versionString, versionString_of_small h]
  have hhead : ∀ c, (versionString v).head? = some c → isDigit c = true := fun c hc =>
    head?_join (forall_isNumber _) [] c hne (by rwa [List.append_nil, ← htext])
  obtain ⟨hread, hafter⟩ := readOperator_written hv.ordered hhead
  rw [readVersionRange_opversion hv, opversionString_eq hv, hread, hafter]
  simp only
  rw [htext, readVersion_join hv.ordered hne (forall_isNumber _), List.map_map]
  have hwrapped : (wrapped ∘ fun n : UInt32 => decimal n.toNat) = id :=
    funext fun n => wrapped_decimal n
  rw [hwrapped, List.map_id, hv.canonical]

theorem readVersionRange_large (hv : v.Valid) (h : ¬ ∀ n ∈ v.numbers, IsSmall n) :
    ∃ e, readVersionRange (opversionString v) = .error e := by
  obtain ⟨front, n, back, hnumbers, hfront, hn⟩ := Pieces.exists_first h
  obtain ⟨k, hk⟩ := number_of_large hn
  rw [readVersionRange_opversion hv, opversionString_eq hv]
  have hdigit : ∀ rest c, (decimal k ++ rest).head? = some c → isDigit c = true := by
    intro rest c hc
    obtain ⟨d, w, hd⟩ := List.exists_cons_of_ne_nil (decimal_ne_nil k)
    have hmem : d ∈ decimal k := by simp [hd]
    rw [hd] at hc
    obtain rfl := Option.some.inj hc
    exact isDigit_of_mem_decimal k _ hmem
  by_cases hempty : front = []
  · have htext : ∃ rest, versionString v = dash :: (decimal k ++ rest) := by
      rw [versionString, hnumbers, hempty]
      cases back with
      | nil => exact ⟨[], by simp [hk, List.intercalate]⟩
      | cons m back => exact ⟨_, by simp [hk, List.intercalate_cons_cons]; rfl⟩
    obtain ⟨rest, htext⟩ := htext
    rw [htext, readOperator_minus hv.ordered (hdigit rest)]
    exact ⟨_, rfl⟩
  · -- the version that is read ends with a period
    have hne : front.map (fun n => decimal n.toNat) ≠ [] := by simpa using hempty
    have htext : ∃ rest, versionString v =
        [period].intercalate (front.map fun n => decimal n.toNat) ++ period :: dash :: rest := by
      rw [versionString, hnumbers, List.map_append, versionString_of_small hfront,
        Pieces.intercalate_append hne (by simp)]
      cases back with
      | nil => exact ⟨decimal k, by simp [hk]⟩
      | cons m back => exact ⟨_, by simp [hk, List.intercalate_cons_cons]; rfl⟩
    obtain ⟨rest, htext⟩ := htext
    have hhead : ∀ c, (versionString v).head? = some c → isDigit c = true := fun c hc =>
      head?_join (forall_isNumber _) (period :: dash :: rest) c hne (by rwa [← htext])
    obtain ⟨hread, hafter⟩ := readOperator_written hv.ordered hhead
    rw [hread, hafter]
    simp only
    have htake : (versionString v).takeWhile isVersionChar =
        [period].intercalate (front.map fun n => decimal n.toNat) ++ [period] := by
      rw [htext, List.takeWhile_append_of_pos (isVersionChar_join (forall_isNumber _))]
      rfl
    have hvalidate : validateVersion ((versionString v).takeWhile isVersionChar) =
        .error .versionEnd := by
      rw [htake, validateVersion, if_neg (by simp), if_pos (by simp)]
    rw [readVersion, hvalidate]
    exact ⟨_, rfl⟩

end SnapCpp.SnapVersion
