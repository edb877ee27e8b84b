import SnapCpp.CssLexer

/-!
The dimensions of numbers. A dimension is kept as a text with the names of the dividend and those
of the divisor; it is split into both to compute the dimension of a product, of a quotient or of a
power, and written again.
-/
namespace SnapCpp.Css

inductive DimensionError where
  | missingName
  | secondSlash
  | separator (c : UInt8)
deriving DecidableEq, Repr

/-- The names of a dimension. -/
structure Vectors where
  dividend : List Bytes := []
  divisor : List Bytes := []
deriving DecidableEq, Repr

def Vectors.swap (v : Vectors) : Vectors := ⟨v.divisor, v.dividend⟩

def Vectors.add (v : Vectors) (foundSlash : Bool) (dim : Bytes) : Vectors :=
  if foundSlash then { v with divisor := v.divisor ++ [dim] }
  else { v with dividend := v.dividend ++ [dim] }

/-- What `find_first_of()` does not stop at. -/
def isName (b : UInt8) : Bool := b ≠ 32 && b ≠ 42 && b ≠ 47

def skipSpace : Bytes → Bytes
  | [] => []
  | b :: s => if b = 32 then s else b :: s

theorem length_skipSpace (s : Bytes) : (skipSpace s).length ≤ s.length := by
  cases s with
  | nil => exact le_rfl
  | cons b s =>
    rw [skipSpace]
    split_ifs
    · exact Nat.le_succ _
    · exact le_rfl

/-- The loop over the names, from the position where the next one starts. -/
def dimensionsLoop (foundSlash : Bool) (v : Vectors) (s : Bytes) :
    Vectors × List DimensionError :=
  let dim := s.takeWhile isName
  if dim = [] then (v, [.missingName])
  else
    match _h : skipSpace (s.dropWhile isName) with
    | [] => (v.add foundSlash dim, [])
    | c :: rest =>
        if c = 47 then
          if foundSlash then (v.add foundSlash dim, [.secondSlash])
          else dimensionsLoop true (v.add foundSlash dim) (skipSpace rest)
        else if c = 42 then dimensionsLoop foundSlash (v.add foundSlash dim) (skipSpace rest)
        else (v.add foundSlash dim, [.separator c])
termination_by s.length
decreasing_by
  all_goals
    have hskip := length_skipSpace (s.dropWhile isName)
    have hdrop := List.length_dropWhile_le isName s
    have hrest := length_skipSpace rest
    rw [_h, List.length_cons] at hskip
    omega

/-- The space after the special start of a dimension without a dividend. -/
def skipFirst (s : Bytes) : Bytes := if 1 < s.length then skipSpace s else s

/-- `dimensions_to_vectors()`: the names are added to those that are there already. -/
def dimensionsToVectors (dimension : Bytes) (v : Vectors) : Vectors × List DimensionError :=
  match dimension with
  | [] => (v, [])
  | 49 :: 47 :: b :: s => dimensionsLoop true v (skipFirst (b :: s))
  | 49 :: 32 :: 47 :: b :: s => dimensionsLoop true v (skipFirst (b :: s))
  | s => dimensionsLoop false v s

/-- `" * "` between names. -/
def times (names : List Bytes) : Bytes := [32, 42, 32].intercalate names

def rebuildDimension (dividend divisor : List Bytes) : Bytes :=
  if dividend = [] ∧ divisor = [] then []
  else
    (if dividend = [] then [49] else times dividend) ++
      if divisor = [] then [] else [32, 47, 32] ++ times divisor

def cancel : ℕ → Vectors → Vectors
  | 0, v => v
  | idx + 1, v =>
      match v.dividend[idx]? with
      | some dim =>
          if dim ∈ v.divisor then cancel idx ⟨v.dividend.eraseIdx idx, v.divisor.erase dim⟩
          else cancel idx v
      | none => cancel idx v

def multiplicativeDimension (ldim : Bytes) (op : NodeType) (rdim : Bytes) :
    Bytes × List DimensionError :=
  let (v, lerrors) := dimensionsToVectors ldim {}
  let (v, rerrors) :=
    if op = .multiply then dimensionsToVectors rdim v
    else
      -- a division has the dividend and the divisor the other way round
      let (w, errors) := dimensionsToVectors rdim v.swap
      (w.swap, errors)
  let v := cancel v.dividend.length v
  (rebuildDimension v.dividend v.divisor, lerrors ++ rerrors)

section Powers

/-- What is used of decimal numbers. -/
structure Arithmetic (D : Type) where
  pow : D → D → D
  ofInteger : ℤ → D
  toInteger : D → ℤ
  /-- The fractional part and the integral one. -/
  modf : D → D × D
  isZero : D → Bool

structure DimensionNode (D : Type) where
  fType : NodeType
  fString : Bytes := []
  fInteger : ℤ := 0
  fDecimalNumber : D

inductive PowerError where
  | powerDimension (dimension : Bytes)
  | types (lhs rhs : NodeType)
  | fractional
  | zero
  | tooLarge
  | dimension (e : DimensionError)
deriving DecidableEq, Repr

variable {D : Type}

/-- A value as a `double`. -/
def Arithmetic.value (ar : Arithmetic D) (n : DimensionNode D) : D :=
  if n.fType = .integer then ar.ofInteger n.fInteger else n.fDecimalNumber

def powerNumber (ar : Arithmetic D) (lhs rhs : DimensionNode D) : Option (DimensionNode D × Bool) :=
  let p := ar.pow (ar.value lhs) (ar.value rhs)
  if rhs.fType = .integer ∨ rhs.fType = .decimalNumber then
    if lhs.fType = .integer ∧ rhs.fType = .integer then
      some ({ fType := .integer, fInteger := ar.toInteger p, fDecimalNumber := ar.ofInteger 0 },
        true)
    else if lhs.fType = .integer ∨ lhs.fType = .decimalNumber then
      some ({ fType := .decimalNumber, fDecimalNumber := p }, true)
    else if lhs.fType = .percent then some ({ fType := .percent, fDecimalNumber := p }, false)
    else none
  else none

def thePower (ar : Arithmetic D) (rhs : DimensionNode D) : Option ℤ :=
  if rhs.fType = .integer then some rhs.fInteger
  else
    let (fractionalPart, integralPart) := ar.modf rhs.fDecimalNumber
    if ar.isZero fractionalPart then some (ar.toInteger integralPart) else none

def repeated (count : ℕ) (names : List Bytes) : List Bytes := (List.replicate count names).flatten

def powerDimension (power : ℤ) (dimension : Bytes) : Bytes × List DimensionError :=
  let (v, errors) := dimensionsToVectors dimension {}
  -- with a negative power, the vectors are filled the other way round
  let v := if 0 ≤ power then v else v.swap
  (rebuildDimension (repeated power.natAbs v.dividend) (repeated power.natAbs v.divisor), errors)

/-- `apply_power()`, with what it reports. -/
def applyPower (ar : Arithmetic D) (lhs rhs : DimensionNode D) :
    Option (DimensionNode D) × List PowerError :=
  if (rhs.fType = .integer ∨ rhs.fType = .decimalNumber) ∧ rhs.fString ≠ [] then
    (none, [.powerDimension rhs.fString])
  else
    match powerNumber ar lhs rhs with
    | none => (none, [.types lhs.fType rhs.fType])
    | some (result, checkDimension) =>
        if checkDimension ∧ lhs.fString ≠ [] then
          match thePower ar rhs with
          | none => (none, [.fractional])
          | some power =>
              if power = 0 then (none, [.zero])
              else if 100 < power.natAbs then (none, [.tooLarge])
              else
                let (dimension, errors) := powerDimension power lhs.fString
                (some { result with fString := dimension }, errors.map .dimension)
        else (some result, [])

end Powers

section Names

variable {d s : Bytes} {names dividend divisor : List Bytes} {foundSlash : Bool} {v : Vectors}

/-- A name without spaces and operators, which is not the one of an empty dividend. -/
structure UnitName (d : Bytes) : Prop where
  ne_nil : d ≠ []
  plain : ∀ b ∈ d, isName b = true
  ne_one : d ≠ [49]

instance (d : Bytes) : Decidable (UnitName d) :=
  decidable_of_iff (d ≠ [] ∧ d.all isName = true ∧ d ≠ [49])
    ⟨fun h => ⟨h.1, List.all_eq_true.mp h.2.1, h.2.2⟩,
      fun h => ⟨h.ne_nil, List.all_eq_true.mpr h.plain, h.ne_one⟩⟩

theorem takeWhile_name (h : ∀ b ∈ d, isName b = true) (s : Bytes) :
    (d ++ 32 :: s).takeWhile isName = d ∧ (d ++ 32 :: s).dropWhile isName = 32 :: s := by
  rw [List.takeWhile_append_of_pos h, List.dropWhile_append_of_pos h,
    List.takeWhile_cons_of_neg (by decide), List.dropWhile_cons_of_neg (by decide),
    List.append_nil]
  exact ⟨rfl, rfl⟩

theorem dimensionsLoop_cons {c : UInt8} {rest : Bytes} (hne : s.takeWhile isName ≠ [])
    (h : skipSpace (s.dropWhile isName) = c :: rest) :
    dimensionsLoop foundSlash v s =
      if c = 47 then
        if foundSlash then (v.add foundSlash (s.takeWhile isName), [.secondSlash])
        else dimensionsLoop true (v.add foundSlash (s.takeWhile isName)) (skipSpace rest)
      else if c = 42 then
        dimensionsLoop foundSlash (v.add foundSlash (s.takeWhile isName)) (skipSpace rest)
      else (v.add foundSlash (s.takeWhile isName), [.separator c]) := by
  rw [dimensionsLoop, if_neg hne]
  split
  next hnil => exact absurd (h.symm.trans hnil) (List.cons_ne_nil _ _)
  next c' rest' hcons =>
    obtain ⟨rfl, rfl⟩ := List.cons.inj (h.symm.trans hcons)
    rfl

theorem dimensionsLoop_last (h : UnitName d) :
    dimensionsLoop foundSlash v d = (v.add foundSlash d, []) := by
  have htake : d.takeWhile isName = d := List.takeWhile_eq_self_iff.mpr h.plain
  have hdrop : d.dropWhile isName = [] := List.dropWhile_eq_nil_iff.mpr h.plain
  rw [dimensionsLoop, htake, if_neg h.ne_nil]
  split
  next => rfl
  next c rest hcons =>
    rw [hdrop] at hcons
    cases hcons

theorem dimensionsLoop_times (h : UnitName d) (s : Bytes) :
    dimensionsLoop foundSlash v (d ++ 32 :: 42 :: 32 :: s) =
      dimensionsLoop foundSlash (v.add foundSlash d) s := by
  obtain ⟨htake, hdrop⟩ := takeWhile_name h.plain (42 :: 32 :: s)
  have hskip : skipSpace ((d ++ 32 :: 42 :: 32 :: s).dropWhile isName) = 42 :: 32 :: s := by
    rw [hdrop]
    rfl
  rw [dimensionsLoop_cons (by rw [htake]; exact h.ne_nil) hskip, htake, if_neg (by decide),
    if_pos rfl]
  rfl

theorem dimensionsLoop_slash (h : UnitName d) (s : Bytes) :
    dimensionsLoop false v (d ++ 32 :: 47 :: 32 :: s) =
      dimensionsLoop true (v.add false d) s := by
  obtain ⟨htake, hdrop⟩ := takeWhile_name h.plain (47 :: 32 :: s)
  have hskip : skipSpace ((d ++ 32 :: 47 :: 32 :: s).dropWhile isName) = 47 :: 32 :: s := by
    rw [hdrop]
    rfl
  rw [dimensionsLoop_cons (by rw [htake]; exact h.ne_nil) hskip, htake, if_pos rfl,
    if_neg Bool.false_ne_true]
  rfl

theorem times_cons (d : Bytes) (hne : names ≠ []) :
    times (d :: names) = d ++ 32 :: 42 :: 32 :: times names := by
  obtain ⟨e, names, rfl⟩ := List.exists_cons_of_ne_nil hne
  rw [times, times, List.intercalate_cons_cons, List.append_assoc]
  rfl

theorem times_singleton (d : Bytes) : times [d] = d := List.intercalate_singleton

theorem dimensionsLoop_divisor (h : ∀ d ∈ divisor, UnitName d) (hne : divisor ≠ []) :
    dimensionsLoop true v (times divisor) = (⟨v.dividend, v.divisor ++ divisor⟩, []) := by
  induction divisor generalizing v with
  | nil => exact absurd rfl hne
  | cons d divisor ih =>
    obtain ⟨hd, h⟩ := List.forall_mem_cons.mp h
    by_cases hlast : divisor = []
    · rw [hlast, times_singleton, dimensionsLoop_last hd]
      rfl
    · rw [times_cons d hlast, dimensionsLoop_times hd, ih h hlast, Vectors.add, if_pos rfl,
        List.append_assoc]
      rfl

theorem dimensionsLoop_dividend (h : ∀ d ∈ dividend, UnitName d) (hne : dividend ≠ [])
    (h' : ∀ d ∈ divisor, UnitName d) :
    dimensionsLoop false v (rebuildDimension dividend divisor) =
      (⟨v.dividend ++ dividend, v.divisor ++ divisor⟩, []) := by
  rw [rebuildDimension, if_neg (fun hnil => hne hnil.1), if_neg hne]
  induction dividend generalizing v with
  | nil => exact absurd rfl hne
  | cons d dividend ih =>
    obtain ⟨hd, h⟩ := List.forall_mem_cons.mp h
    by_cases hlast : dividend = []
    · rw [hlast, times_singleton]
      by_cases hnone : divisor = []
      · rw [if_pos hnone, List.append_nil, dimensionsLoop_last hd, hnone, List.append_nil]
        rfl
      · rw [if_neg hnone]
        exact (dimensionsLoop_slash hd _).trans (dimensionsLoop_divisor h' hnone)
    · rw [times_cons d hlast, List.append_assoc, List.cons_append, List.cons_append,
        List.cons_append, dimensionsLoop_times hd, ih h hlast, Vectors.add,
        if_neg Bool.false_ne_true, List.append_assoc]
      rfl

theorem dimensionsToVectors_name (h : UnitName d) (s : Bytes) :
    dimensionsToVectors (d ++ s) v = dimensionsLoop false v (d ++ s) := by
  obtain ⟨b, d, rfl⟩ := List.exists_cons_of_ne_nil h.ne_nil
  cases d with
  | nil =>
    have hb : b ≠ 49 := fun heq => h.ne_one (by rw [heq])
    rw [List.cons_append, dimensionsToVectors] <;> simp [hb]
  | cons c d =>
    have hc := h.plain c (List.mem_cons_of_mem b List.mem_cons_self)
    have hspace : c ≠ 32 := by rintro rfl; exact absurd hc (by decide)
    have hslash : c ≠ 47 := by rintro rfl; exact absurd hc (by decide)
    rw [List.cons_append, List.cons_append, dimensionsToVectors] <;> simp [hspace, hslash]

theorem dimensionsToVectors_rebuild (h : ∀ d ∈ dividend, UnitName d)
    (h' : ∀ d ∈ divisor, UnitName d) (v : Vectors) :
    dimensionsToVectors (rebuildDimension dividend divisor) v =
      (⟨v.dividend ++ dividend, v.divisor ++ divisor⟩, []) := by
  by_cases hdividend : dividend = []
  · by_cases hdivisor : divisor = []
    · rw [hdividend, hdivisor, List.append_nil, List.append_nil]
      rfl
    · obtain ⟨d, names, hcons⟩ := List.exists_cons_of_ne_nil hdivisor
      have hd := h' d (hcons ▸ List.mem_cons_self)
      have hlength : 1 < (32 :: times divisor).length := by
        rw [List.length_cons]
        refine Nat.succ_lt_succ (List.length_pos_iff.mpr ?_)
        by_cases hlast : names = []
        · rw [hcons, hlast, times_singleton]
          exact hd.ne_nil
        · rw [hcons, times_cons d hlast]
          simp
      have hskip : skipFirst (32 :: times divisor) = times divisor := by
        rw [skipFirst, if_pos hlength]
        rfl
      rw [rebuildDimension, if_neg (fun hnil => hdivisor hnil.2), if_pos hdividend,
        if_neg hdivisor, hdividend, List.append_nil]
      change dimensionsLoop true v (skipFirst (32 :: times divisor)) = _
      rw [hskip, dimensionsLoop_divisor h' hdivisor]
  · rw [← dimensionsLoop_dividend h hdividend h']
    obtain ⟨d, names, hcons⟩ := List.exists_cons_of_ne_nil hdividend
    have hd := h d (hcons ▸ List.mem_cons_self)
    have hstart : ∃ s, rebuildDimension dividend divisor = d ++ s := by
      rw [rebuildDimension, if_neg (fun hnil => hdividend hnil.1), if_neg hdividend, hcons]
      by_cases hlast : names = []
      · rw [hlast, times_singleton]
        exact ⟨_, rfl⟩
      · rw [times_cons d hlast, List.append_assoc]
        exact ⟨_, rfl⟩
    obtain ⟨s, hs⟩ := hstart
    rw [hs, dimensionsToVectors_name hd]

end Names

section Exponents

variable {d x : Bytes} {dividend divisor front back : List Bytes} {v : Vectors}

def Vectors.exponent (v : Vectors) (x : Bytes) : ℤ := v.dividend.count x - v.divisor.count x

def exponent (dimension x : Bytes) : ℤ := (dimensionsToVectors dimension {}).1.exponent x

def Vectors.Reduced (v : Vectors) : Prop := ∀ d ∈ v.dividend, d ∉ v.divisor

theorem exponent_rebuild (h : ∀ d ∈ dividend, UnitName d) (h' : ∀ d ∈ divisor, UnitName d)
    (x : Bytes) : exponent (rebuildDimension dividend divisor) x =
      (⟨dividend, divisor⟩ : Vectors).exponent x := by
  rw [exponent, dimensionsToVectors_rebuild h h']
  rfl

theorem exponent_erase (hd : d ∈ divisor) (x : Bytes) :
    (⟨front ++ back, divisor.erase d⟩ : Vectors).exponent x =
      (⟨front ++ d :: back, divisor⟩ : Vectors).exponent x := by
  have hpos := List.count_pos_iff.mpr hd
  rw [Vectors.exponent, Vectors.exponent, List.count_append, List.count_append, List.count_cons,
    List.count_erase]
  by_cases hx : d = x
  · subst hx
    simp only [beq_self_eq_true, if_true]
    omega
  · have hne : ¬ (d == x) = true := by simpa using hx
    rw [if_neg hne]
    simp

/-- The loop keeps the exponents, and what it is done with is on one side only. -/
theorem cancel_spec (front back divisor : List Bytes) (hback : ∀ d ∈ back, d ∉ divisor) :
    (∀ x, (cancel front.length ⟨front ++ back, divisor⟩).exponent x =
      (⟨front ++ back, divisor⟩ : Vectors).exponent x) ∧
    (cancel front.length ⟨front ++ back, divisor⟩).Reduced ∧
    (cancel front.length ⟨front ++ back, divisor⟩).dividend ⊆ front ++ back ∧
    (cancel front.length ⟨front ++ back, divisor⟩).divisor ⊆ divisor := by
  induction front using List.reverseRecOn generalizing back divisor with
  | nil => exact ⟨fun x => rfl, hback, List.Subset.refl _, List.Subset.refl _⟩
  | append_singleton front d ih =>
    have hsplit : front ++ [d] ++ back = front ++ d :: back := by
      rw [List.append_assoc, List.singleton_append]
    have hget : (front ++ d :: back)[front.length]? = some d := by
      rw [List.getElem?_append_right le_rfl, Nat.sub_self]
      rfl
    have herase : (front ++ d :: back).eraseIdx front.length = front ++ back := by
      rw [List.eraseIdx_append_of_length_le le_rfl, Nat.sub_self]
      rfl
    rw [List.length_append, List.length_singleton, hsplit, cancel]
    dsimp only
    rw [hget]
    dsimp only
    by_cases hd : d ∈ divisor
    · rw [if_pos hd, herase]
      obtain ⟨hexponent, hreduced, hdividend, hdivisor⟩ := ih back (divisor.erase d)
        fun e he hmem => hback e he (List.mem_of_mem_erase hmem)
      refine ⟨fun x => (hexponent x).trans (exponent_erase hd x), hreduced, fun e he => ?_,
        fun e he => List.mem_of_mem_erase (hdivisor he)⟩
      have := hdividend he
      simp only [List.mem_append, List.mem_cons] at this ⊢
      tauto
    · rw [if_neg hd]
      exact ih (d :: back) divisor (List.forall_mem_cons.mpr ⟨hd, hback⟩)

/-- The whole loop. -/
theorem cancel_all (v : Vectors) : (∀ x, (cancel v.dividend.length v).exponent x = v.exponent x) ∧
    (cancel v.dividend.length v).Reduced ∧
    (cancel v.dividend.length v).dividend ⊆ v.dividend ∧
    (cancel v.dividend.length v).divisor ⊆ v.divisor := by
  have h := cancel_spec v.dividend [] v.divisor (by simp)
  rwa [List.append_nil] at h

theorem count_repeated (count : ℕ) (names : List Bytes) (x : Bytes) :
    (repeated count names).count x = count * names.count x := by
  induction count with
  | zero => simp [repeated]
  | succ count ih =>
    rw [repeated, List.replicate_succ, List.flatten_cons, List.count_append, ← repeated, ih]
    ring

theorem mem_repeated {count : ℕ} {names : List Bytes} (h : d ∈ repeated count names) :
    d ∈ names := by
  obtain ⟨l, hl, hd⟩ := List.mem_flatten.mp h
  rwa [← List.eq_of_mem_replicate hl]

end Exponents

section Algebra

variable {A B A' B' : List Bytes}

/-- The two vectors of a product or of a quotient, before the names on both sides are removed. -/
theorem multiplicativeDimension_eq (hA : ∀ d ∈ A, UnitName d) (hB : ∀ d ∈ B, UnitName d)
    (hA' : ∀ d ∈ A', UnitName d) (hB' : ∀ d ∈ B', UnitName d) (op : NodeType) :
    ∃ v : Vectors, (∀ d ∈ v.dividend, UnitName d) ∧ (∀ d ∈ v.divisor, UnitName d) ∧
      (∀ x, v.exponent x = if op = .multiply
        then exponent (rebuildDimension A B) x + exponent (rebuildDimension A' B') x
        else exponent (rebuildDimension A B) x - exponent (rebuildDimension A' B') x) ∧
      multiplicativeDimension (rebuildDimension A B) op (rebuildDimension A' B') =
        (rebuildDimension (cancel v.dividend.length v).dividend
          (cancel v.dividend.length v).divisor, []) := by
  have happend : ∀ {l m : List Bytes}, (∀ d ∈ l, UnitName d) → (∀ d ∈ m, UnitName d) →
      ∀ d ∈ l ++ m, UnitName d := fun hl hm d hd => (List.mem_append.mp hd).elim (hl d) (hm d)
  rw [multiplicativeDimension, dimensionsToVectors_rebuild hA hB]
  dsimp only
  rw [List.nil_append, List.nil_append]
  simp only [exponent_rebuild hA hB, exponent_rebuild hA' hB']
  by_cases hop : op = .multiply
  · rw [if_pos hop, dimensionsToVectors_rebuild hA' hB']
    refine ⟨⟨A ++ A', B ++ B'⟩, happend hA hA', happend hB hB', fun x => ?_, rfl⟩
    rw [if_pos hop, Vectors.exponent, Vectors.exponent, Vectors.exponent, List.count_append,
      List.count_append]
    push_cast
    ring
  · rw [if_neg hop, dimensionsToVectors_rebuild hA' hB']
    refine ⟨⟨A ++ B', B ++ A'⟩, happend hA hB', happend hB hA', fun x => ?_, rfl⟩
    rw [if_neg hop, Vectors.exponent, Vectors.exponent, Vectors.exponent, List.count_append,
      List.count_append]
    push_cast
    ring

/-- The exponents of a product or of a quotient, which is written without a name on both sides. -/
theorem multiplicativeDimension_spec (hA : ∀ d ∈ A, UnitName d) (hB : ∀ d ∈ B, UnitName d)
    (hA' : ∀ d ∈ A', UnitName d) (hB' : ∀ d ∈ B', UnitName d) (op : NodeType) :
    ∃ dimension, multiplicativeDimension (rebuildDimension A B) op (rebuildDimension A' B') =
        (dimension, []) ∧ (dimensionsToVectors dimension {}).1.Reduced ∧
      ∀ x, exponent dimension x = if op = .multiply
        then exponent (rebuildDimension A B) x + exponent (rebuildDimension A' B') x
        else exponent (rebuildDimension A B) x - exponent (rebuildDimension A' B') x := by
  obtain ⟨v, hdividend, hdivisor, hexponent, heq⟩ := multiplicativeDimension_eq hA hB hA' hB' op
  obtain ⟨hcancel, hreduced, hleft, hright⟩ := cancel_all v
  refine ⟨_, heq, ?_, fun x => ?_⟩
  · rw [dimensionsToVectors_rebuild (fun d hd => hdividend d (hleft hd))
      fun d hd => hdivisor d (hright hd)]
    exact hreduced
  · rw [exponent_rebuild (fun d hd => hdividend d (hleft hd)) fun d hd => hdivisor d (hright hd),
      ← hexponent x]
    exact hcancel x

theorem powerDimension_spec (hA : ∀ d ∈ A, UnitName d) (hB : ∀ d ∈ B, UnitName d) (power : ℤ) :
    ∃ dimension, powerDimension power (rebuildDimension A B) = (dimension, []) ∧
      ∀ x, exponent dimension x = power * exponent (rebuildDimension A B) x := by
  have hcount : ∀ {l m : List Bytes}, (∀ d ∈ l, UnitName d) → (∀ d ∈ m, UnitName d) → ∀ x,
      exponent (rebuildDimension (repeated power.natAbs l) (repeated power.natAbs m)) x =
        power.natAbs * (⟨l, m⟩ : Vectors).exponent x := by
    intro l m hl hm x
    rw [exponent_rebuild (fun d hd => hl d (mem_repeated hd)) fun d hd => hm d (mem_repeated hd),
      Vectors.exponent, Vectors.exponent, count_repeated, count_repeated]
    push_cast
    ring
  rw [powerDimension, dimensionsToVectors_rebuild hA hB]
  dsimp only
  rw [List.nil_append, List.nil_append]
  by_cases hpower : 0 ≤ power
  · rw [if_pos hpower]
    refine ⟨_, rfl, fun x => ?_⟩
    rw [hcount hA hB, exponent_rebuild hA hB, Int.natCast_natAbs, abs_of_nonneg hpower]
  · rw [if_neg hpower]
    refine ⟨_, rfl, fun x => ?_⟩
    have hswap : (⟨B, A⟩ : Vectors).exponent x = -(⟨A, B⟩ : Vectors).exponent x := by
      rw [Vectors.exponent, Vectors.exponent]
      ring
    rw [Vectors.swap, hcount hB hA, exponent_rebuild hA hB, hswap, Int.natCast_natAbs,
      abs_of_neg (not_le.mp hpower)]
    ring

variable {D : Type}

/-- A number without a dimension that is the integer `power`. -/
def IsPower (ar : Arithmetic D) (rhs : DimensionNode D) (power : ℤ) : Prop :=
  rhs.fString = [] ∧ (rhs.fType = .integer ∧ rhs.fInteger = power ∨
    rhs.fType = .decimalNumber ∧ ar.isZero (ar.modf rhs.fDecimalNumber).1 = true ∧
      ar.toInteger (ar.modf rhs.fDecimalNumber).2 = power)

theorem IsPower.thePower {ar : Arithmetic D} {rhs : DimensionNode D} {power : ℤ}
    (h : IsPower ar rhs power) : thePower ar rhs = some power := by
  rw [Css.thePower]
  rcases h.2 with ⟨htype, hvalue⟩ | ⟨htype, hzero, hvalue⟩
  · rw [if_pos htype, hvalue]
  · rw [htype, if_neg (by decide)]
    dsimp only
    rw [if_pos hzero, hvalue]

theorem applyPower_spec (ar : Arithmetic D) {lhs rhs : DimensionNode D} {power : ℤ}
    (hA : ∀ d ∈ A, UnitName d) (hB : ∀ d ∈ B, UnitName d)
    (hlhs : lhs.fType = .integer ∨ lhs.fType = .decimalNumber)
    (hdimension : lhs.fString = rebuildDimension A B) (hrhs : IsPower ar rhs power)
    (hpos : 1 ≤ |power|) (hlimit : |power| ≤ 100) :
    ∃ result, applyPower ar lhs rhs = (some result, []) ∧
      ∀ x, exponent result.fString x = power * exponent lhs.fString x := by
  have hnumber : ∃ result, result.fString = [] ∧ powerNumber ar lhs rhs = some (result, true) := by
    have htype : rhs.fType = .integer ∨ rhs.fType = .decimalNumber :=
      hrhs.2.imp And.left And.left
    rw [powerNumber, if_pos htype]
    split_ifs with hboth
    · exact ⟨_, rfl, rfl⟩
    · exact ⟨_, rfl, rfl⟩
  obtain ⟨result, hstring, hnumber⟩ := hnumber
  rw [applyPower, if_neg (fun h => h.2 hrhs.1), hnumber]
  dsimp only
  by_cases hempty : lhs.fString = []
  · rw [if_neg (fun h => h.2 hempty)]
    refine ⟨result, rfl, fun x => ?_⟩
    rw [hstring, hempty]
    simp [exponent, dimensionsToVectors, Vectors.exponent]
  · obtain ⟨dimension, hpower, hexponent⟩ := powerDimension_spec hA hB power
    rw [← hdimension] at hpower hexponent
    have hne : power ≠ 0 := by
      rintro rfl
      exact absurd hpos (by decide)
    have hsmall : ¬ 100 < power.natAbs := by
      have habs := Int.natCast_natAbs power
      omega
    rw [if_pos ⟨rfl, hempty⟩, hrhs.thePower]
    dsimp only
    rw [if_neg hne, if_neg hsmall, hpower]
    exact ⟨_, rfl, hexponent⟩

/-- What is expected of the dimensions `l`, built from `A` and `B`, and `r`, from `A'` and `B'`. -/
structure DimensionAlgebra (ar : Arithmetic D) (A B A' B' : List Bytes) : Prop where
  split : dimensionsToVectors (rebuildDimension A B) {} = (⟨A, B⟩, [])
  product : ∃ product, multiplicativeDimension (rebuildDimension A B) .multiply
      (rebuildDimension A' B') = (product, []) ∧
    (dimensionsToVectors product {}).1.Reduced ∧ ∀ x, exponent product x =
      exponent (rebuildDimension A B) x + exponent (rebuildDimension A' B') x
  quotient : ∃ quotient, multiplicativeDimension (rebuildDimension A B) .divide
      (rebuildDimension A' B') = (quotient, []) ∧
    (dimensionsToVectors quotient {}).1.Reduced ∧ ∀ x, exponent quotient x =
      exponent (rebuildDimension A B) x - exponent (rebuildDimension A' B') x
  power : ∀ (lhs rhs : DimensionNode D) (power : ℤ),
    lhs.fType = .integer ∨ lhs.fType = .decimalNumber → lhs.fString = rebuildDimension A B →
    IsPower ar rhs power → 1 ≤ |power| → |power| ≤ 100 →
    ∃ result, applyPower ar lhs rhs = (some result, []) ∧
      ∀ x, exponent result.fString x = power * exponent lhs.fString x

theorem dimension_algebra (ar : Arithmetic D) (hA : ∀ d ∈ A, UnitName d)
    (hB : ∀ d ∈ B, UnitName d) (hA' : ∀ d ∈ A', UnitName d) (hB' : ∀ d ∈ B', UnitName d) :
    DimensionAlgebra ar A B A' B' where
  split := by
    rw [dimensionsToVectors_rebuild hA hB]
    rfl
  product := by
    obtain ⟨product, heq, hreduced, hexponent⟩ :=
      multiplicativeDimension_spec hA hB hA' hB' .multiply
    exact ⟨product, heq, hreduced, fun x => (hexponent x).trans (if_pos rfl)⟩
  quotient := by
    obtain ⟨quotient, heq, hreduced, hexponent⟩ :=
      multiplicativeDimension_spec hA hB hA' hB' .divide
    exact ⟨quotient, heq, hreduced, fun x => (hexponent x).trans (if_neg (by decide))⟩
  power _ _ _ hlhs hdimension hrhs hpos hlimit :=
    applyPower_spec ar hA hB hlhs hdimension hrhs hpos hlimit

/-- Pixels for each em, and ems, with the arithmetic of integers. -/
theorem dimension_algebra_ems : DimensionAlgebra
    (⟨fun a b => a ^ b.toNat, id, id, fun a => (0, a), fun a => a = 0⟩ : Arithmetic ℤ)
    [[112, 120]] [[101, 109]] [[101, 109]] [] :=
  dimension_algebra _ (List.forall_iff_forall_mem.mp (by decide))
    (List.forall_iff_forall_mem.mp (by decide)) (List.forall_iff_forall_mem.mp (by decide))
    (List.forall_iff_forall_mem.mp (by decide))

/-- An empty name is lost. -/
theorem empty_name_lost : ¬ ∀ A B : List Bytes,
    (∀ d ∈ A, (∀ b ∈ d, isName b = true) ∧ d ≠ [49]) →
    (∀ d ∈ B, (∀ b ∈ d, isName b = true) ∧ d ≠ [49]) →
    dimensionsToVectors (rebuildDimension A B) {} = (⟨A, B⟩, []) := by
  intro h
  have hsplit := h [[]] [] (by simp) (by simp)
  exact absurd hsplit (by decide)

end Algebra

end SnapCpp.Css
