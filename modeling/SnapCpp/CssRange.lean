import SnapCpp.CssPrintedHashes

/-!
The ranges of Unicode characters, as they are printed. A range is written as six question marks, as
one number, as a number in which question marks stand for the last digits, or as two numbers.
-/
namespace SnapCpp.Css

/-- What `verify_range()` throws. -/
inductive RangeError
  | startTooLarge (start : ℤ)
  | endTooLarge (stop : ℤ)
  | order (start stop : ℤ)
deriving DecidableEq, Repr

def verifyRange (start stop : ℤ) : Except RangeError Unit :=
  if 0x110000 ≤ start then .error (.startTooLarge start)
  -- special end to support all possible masks
  else if 0x200000 ≤ stop then .error (.endTooLarge stop)
  else if stop < start then .error (.order start stop)
  else .ok ()

def hexDigit (d : ℕ) : UInt8 := if d < 10 then (48 + d).toUInt8 else (87 + d).toUInt8

def hexDigits (n : ℕ) : List ℕ := if n < 16 then [n] else hexDigits (n / 16) ++ [n % 16]

/-- A number written with `std::hex`. -/
def hexText (n : ℕ) : Bytes := (hexDigits n).map hexDigit

/-- The same with `std::setw(6)` and `std::setfill('0')`. -/
def filledText (n : ℕ) : Bytes := List.replicate (6 - (hexText n).length) 48 ++ hexText n

/-- The loop that looks for the digits that are zero in the start and `f` in the end, with the
number of digits in front of them. -/
def maskStart (startStr endStr : Bytes) : ℕ → ℕ
  | 0 => 0
  | p + 1 =>
      if startStr[p]? ≠ some 48 ∨ endStr[p]? ≠ some 102 then p + 1
      else maskStart startStr endStr p

/-- `unicode_range_t::to_string()`, with nothing for the error of strings that are too long. -/
def rangeString (start stop : ℕ) : Option Bytes :=
  if start = 0 ∧ 0x10FFFF ≤ stop then some (List.replicate 6 63)
  else if start = stop then some (hexText start)
  else
    let startStr := filledText start
    let endStr := filledText stop
    if startStr.length ≠ 6 ∨ endStr.length ≠ 6 then none
    else
      let p := maskStart startStr endStr 6
      let result := startStr.take p
      if result = endStr.take p then
        some ((result ++ List.replicate (6 - p) 63).dropWhile (· = 48))
      else some (hexText start ++ 45 :: hexText stop)

section Digits

def digitsValue (n : ℕ) (ds : List ℕ) : ℕ := ds.foldl (fun n d => n * 16 + d) n

/-- Exactly `k` digits of a number. -/
def padded : ℕ → ℕ → List ℕ
  | 0, _ => []
  | k + 1, n => padded k (n / 16) ++ [n % 16]

variable {n k d : ℕ}

theorem digitsValue_concat (n d : ℕ) (ds : List ℕ) :
    digitsValue n (ds ++ [d]) = digitsValue n ds * 16 + d := by
  rw [digitsValue, List.foldl_append]
  rfl

theorem digitsValue_hexDigits (n : ℕ) : digitsValue 0 (hexDigits n) = n := by
  fun_induction hexDigits n with
  | case1 n h => exact Nat.zero_add n
  | case2 n h ih =>
    rw [digitsValue_concat, ih]
    omega

theorem digitsValue_padded (h : n < 16 ^ k) : digitsValue 0 (padded k n) = n := by
  induction k generalizing n with
  | zero =>
    rw [pow_zero, Nat.lt_one_iff] at h
    rw [h]
    rfl
  | succ k ih =>
    rw [pow_succ] at h
    rw [padded, digitsValue_concat, ih (by omega)]
    omega

theorem digitsValue_dropWhile (ds : List ℕ) :
    digitsValue 0 (ds.dropWhile (· = 0)) = digitsValue 0 ds := by
  induction ds with
  | nil => rfl
  | cons d ds ih =>
    by_cases hd : d = 0
    · rw [List.dropWhile_cons_of_pos (by simpa using hd), ih, hd]
      rfl
    · rw [List.dropWhile_cons_of_neg (by simpa using hd)]

theorem hexDigits_lt (hd : d ∈ hexDigits n) : d < 16 := by
  fun_induction hexDigits n with
  | case1 n h =>
    rw [List.mem_singleton.mp hd]
    exact h
  | case2 n h ih =>
    rcases List.mem_append.mp hd with hd | hd
    · exact ih hd
    · rw [List.mem_singleton.mp hd]
      exact Nat.mod_lt n (by decide)

theorem padded_lt (hd : d ∈ padded k n) : d < 16 := by
  induction k generalizing n with
  | zero => cases hd
  | succ k ih =>
    rcases List.mem_append.mp hd with hd | hd
    · exact ih hd
    · rw [List.mem_singleton.mp hd]
      exact Nat.mod_lt n (by decide)

theorem length_padded (k n : ℕ) : (padded k n).length = k := by
  induction k generalizing n with
  | zero => rfl
  | succ k ih => rw [padded, List.length_append, ih, List.length_singleton]

/-- Zeros in front of the digits of a number make as many digits as are asked for. -/
theorem fill_hexDigits (h : n < 16 ^ (k + 1)) : (hexDigits n).length ≤ k + 1 ∧
    List.replicate (k + 1 - (hexDigits n).length) 0 ++ hexDigits n = padded (k + 1) n := by
  induction k generalizing n with
  | zero =>
    rw [zero_add, pow_one] at h
    rw [hexDigits, if_pos h, padded, padded, Nat.mod_eq_of_lt h]
    exact ⟨le_rfl, rfl⟩
  | succ k ih =>
    rw [hexDigits, padded]
    split_ifs with hsmall
    · have hzero : n / 16 = 0 := Nat.div_eq_of_lt hsmall
      have hrest := ih (n := 0) (Nat.pow_pos (by decide))
      rw [hexDigits, if_pos (by decide)] at hrest
      rw [hzero, ← hrest.2, Nat.mod_eq_of_lt hsmall]
      refine ⟨Nat.succ_le_succ (Nat.zero_le _), ?_⟩
      rw [List.length_singleton, List.length_singleton, Nat.add_sub_cancel, Nat.add_sub_cancel,
        ← List.replicate_succ']
    · rw [pow_succ] at h
      obtain ⟨hlength, hfill⟩ := ih (n := n / 16) (by omega)
      rw [List.length_append, List.length_singleton, ← hfill]
      refine ⟨Nat.succ_le_succ hlength, ?_⟩
      rw [Nat.add_sub_add_right, List.append_assoc]

end Digits

section Masks

variable {start stop n p k : ℕ}

theorem toNat_hexDigit {d : ℕ} (h : d < 16) :
    (hexDigit d).toNat = if d < 10 then 48 + d else 87 + d := by
  rw [hexDigit]
  split_ifs <;> exact toNat_toUInt8 (by omega)

theorem hexDigit_injective {d d' : ℕ} (h : d < 16) (h' : d' < 16)
    (heq : hexDigit d = hexDigit d') : d = d' := by
  have hnat := congrArg UInt8.toNat heq
  rw [toNat_hexDigit h, toNat_hexDigit h'] at hnat
  split_ifs at hnat <;> omega

theorem filledText_eq (h : n < 16 ^ 6) : filledText n = (padded 6 n).map hexDigit := by
  rw [← (fill_hexDigits h).2, List.map_append, List.map_replicate, filledText, hexText,
    List.length_map]
  rfl

theorem length_filledText (h : n < 16 ^ 6) : (filledText n).length = 6 := by
  rw [filledText_eq h, List.length_map, length_padded]

theorem maskStart_spec (k start stop : ℕ) (x y : Bytes) : ∃ p q, p + q = k ∧
    maskStart ((padded k start).map hexDigit ++ x) ((padded k stop).map hexDigit ++ y) k = p ∧
    start % 16 ^ q = 0 ∧ stop % 16 ^ q = 16 ^ q - 1 := by
  induction k generalizing start stop x y with
  | zero => exact ⟨0, 0, rfl, rfl, Nat.mod_one _, Nat.mod_one _⟩
  | succ k ih =>
    have hlast : ∀ n z, ((padded (k + 1) n).map hexDigit ++ z)[k]? = some (hexDigit (n % 16)) := by
      intro n z
      rw [padded, List.map_append, List.append_assoc, List.getElem?_append_right
        (by rw [List.length_map, length_padded]), List.length_map, length_padded, Nat.sub_self]
      rfl
    rw [maskStart, hlast, hlast]
    split_ifs with hother
    · exact ⟨k + 1, 0, rfl, rfl, Nat.mod_one _, Nat.mod_one _⟩
    · rw [not_or, not_not, not_not, Option.some.injEq, Option.some.injEq] at hother
      have hzero : start % 16 = 0 := hexDigit_injective (Nat.mod_lt _ (by decide)) (by decide)
        (hother.1.trans (by decide))
      have hlarge : stop % 16 = 15 := hexDigit_injective (Nat.mod_lt _ (by decide)) (by decide)
        (hother.2.trans (by decide))
      rw [padded, padded, List.map_append, List.map_append, List.append_assoc, List.append_assoc]
      obtain ⟨p, q, hk, hp, hstart, hstop⟩ := ih (start / 16) (stop / 16) _ _
      have hpos : 0 < 16 ^ q := Nat.pow_pos (by decide)
      refine ⟨p, q + 1, congrArg Nat.succ hk, hp, ?_, ?_⟩
      · rw [pow_succ', Nat.mod_mul, hzero, hstart]
      · rw [pow_succ', Nat.mod_mul, hlarge, hstop]
        omega

theorem take_padded (p q n : ℕ) : (padded (p + q) n).take p = padded p (n / 16 ^ q) := by
  induction q generalizing n with
  | zero =>
    rw [Nat.add_zero, pow_zero, Nat.div_one, List.take_of_length_le (length_padded p n).le]
  | succ q ih =>
    rw [← Nat.add_assoc, padded, List.take_append_of_le_length
      (by rw [length_padded]; exact Nat.le_add_right p q), ih, Nat.div_div_eq_div_mul, pow_succ']

theorem padded_injective {m : ℕ} (hn : n < 16 ^ k) (hm : m < 16 ^ k) (h : padded k n = padded k m) :
    n = m := by
  rw [← digitsValue_padded hn, h, digitsValue_padded hm]

theorem map_hexDigit_injective {ds ds' : List ℕ} (hds : ∀ d ∈ ds, d < 16)
    (hds' : ∀ d ∈ ds', d < 16) (h : ds.map hexDigit = ds'.map hexDigit) : ds = ds' := by
  induction ds generalizing ds' with
  | nil => exact (List.map_eq_nil_iff.mp h.symm).symm
  | cons d ds ih =>
    cases ds' with
    | nil => cases h
    | cons d' ds' =>
      obtain ⟨hd, hds⟩ := List.forall_mem_cons.mp hds
      obtain ⟨hd', hds'⟩ := List.forall_mem_cons.mp hds'
      obtain ⟨hfirst, hrest⟩ := List.cons.inj h
      rw [hexDigit_injective hd hd' hfirst, ih hds hds' hrest]

/-- The zeros in front of a mask are removed. -/
theorem dropWhile_mask {ds : List ℕ} (hds : ∀ d ∈ ds, d < 16) (q : ℕ) :
    (ds.map hexDigit ++ List.replicate q 63).dropWhile (· = 48) =
      (ds.dropWhile (· = 0)).map hexDigit ++ List.replicate q 63 := by
  induction ds with
  | nil => cases q <;> rfl
  | cons d ds ih =>
    obtain ⟨hd, hds⟩ := List.forall_mem_cons.mp hds
    rw [List.map_cons, List.cons_append]
    by_cases hzero : d = 0
    · rw [List.dropWhile_cons_of_pos (by rw [hzero]; decide), ih hds,
        List.dropWhile_cons_of_pos (by simpa using hzero)]
    · have hdigit : hexDigit d ≠ 48 := fun h =>
        hzero (hexDigit_injective hd (by decide) (h.trans (by decide)))
      rw [List.dropWhile_cons_of_neg (by simpa using hdigit),
        List.dropWhile_cons_of_neg (by simpa using hzero), List.map_cons, List.cons_append]

inductive RangeForm (start stop : ℕ) : Bytes → Prop
  | single : start = stop → RangeForm start stop (hexText start)
  | mask {ds : List ℕ} {q : ℕ} : (∀ d ∈ ds, d < 16) → 0 < q → ds.length + q ≤ 6 →
      start = digitsValue 0 ds * 16 ^ q → stop = start + (16 ^ q - 1) →
      RangeForm start stop (ds.map hexDigit ++ List.replicate q 63)
  | pair : start ≠ stop → RangeForm start stop (hexText start ++ 45 :: hexText stop)

theorem rangeString_form (hstart : start < 16 ^ 6) (hstop : stop < 16 ^ 6)
    (hall : ¬ (start = 0 ∧ 0x10FFFF ≤ stop)) :
    ∃ text, rangeString start stop = some text ∧ RangeForm start stop text := by
  have hlength : ¬ ((filledText start).length ≠ 6 ∨ (filledText stop).length ≠ 6) :=
    not_or.mpr ⟨not_not.mpr (length_filledText hstart), not_not.mpr (length_filledText hstop)⟩
  rw [rangeString, if_neg hall]
  by_cases hsame : start = stop
  · rw [if_pos hsame]
    exact ⟨_, rfl, .single hsame⟩
  rw [if_neg hsame]
  dsimp only
  rw [if_neg hlength]
  split_ifs with hprefix
  · obtain ⟨p, q, hk, hp, hzeros, hfs⟩ := maskStart_spec 6 start stop [] []
    rw [List.append_nil, List.append_nil, ← filledText_eq hstart, ← filledText_eq hstop] at hp
    rw [hp] at hprefix ⊢
    rw [filledText_eq hstart, filledText_eq hstop, ← List.map_take, ← List.map_take, ← hk,
      take_padded, take_padded] at hprefix
    rw [filledText_eq hstart, ← List.map_take, ← hk, take_padded, Nat.add_sub_cancel_left]
    have hpos : 0 < 16 ^ q := Nat.pow_pos (by decide)
    have hbound : ∀ n, n < 16 ^ 6 → n / 16 ^ q < 16 ^ p := fun n hn => by
      rwa [Nat.div_lt_iff_lt_mul hpos, ← pow_add, hk]
    have hhigh : start / 16 ^ q = stop / 16 ^ q :=
      padded_injective (hbound _ hstart) (hbound _ hstop)
        (map_hexDigit_injective (fun d => padded_lt) (fun d => padded_lt) hprefix)
    have hdivstart := Nat.div_add_mod start (16 ^ q)
    have hdivstop := Nat.div_add_mod stop (16 ^ q)
    rw [← hhigh] at hdivstop
    rw [dropWhile_mask fun d => padded_lt]
    refine ⟨_, rfl, .mask (fun d hd => padded_lt ((List.dropWhile_sublist _).subset hd)) ?_ ?_ ?_
      ?_⟩
    · refine Nat.pos_of_ne_zero fun hzero => hsame ?_
      rwa [hzero, pow_zero, Nat.div_one, Nat.div_one] at hhigh
    · have hlength := (List.dropWhile_sublist (· = 0) (l := padded p (start / 16 ^ q))).length_le
      rw [length_padded] at hlength
      omega
    · rw [digitsValue_dropWhile, digitsValue_padded (hbound _ hstart)]
      rw [hzeros, Nat.add_zero, Nat.mul_comm] at hdivstart
      exact hdivstart.symm
    · omega
  · exact ⟨_, rfl, .pair hsame⟩

end Masks

section Codes

def hexCode (d : ℕ) : ℤ := ((hexDigit d).toNat : ℤ)

variable {d : ℕ}

theorem hexCode_eq (h : d < 16) : hexCode d = if d < 10 then (48 + d : ℤ) else 87 + d := by
  rw [hexCode, toNat_hexDigit h]
  split_ifs <;> omega

theorem isHex_hexCode (h : d < 16) : isHex (hexCode d) = true := by
  rw [hexCode_eq h]
  simp only [isHex, isDigit, Bool.or_eq_true, Bool.and_eq_true, decide_eq_true_eq,
    Char.reduceToNat, Nat.cast_ofNat]
  split_ifs <;> omega

theorem hexToDec_hexCode (h : d < 16) : hexToDec (hexCode d) = pure (d : ℤ) := by
  rw [hexCode_eq h, hexToDec]
  by_cases hdigit : d < 10
  · have hisDigit : isDigit (48 + d : ℤ) = true := by
      simp only [isDigit, Bool.and_eq_true, decide_eq_true_eq, Char.reduceToNat, Nat.cast_ofNat]
      omega
    rw [if_pos hdigit, if_pos hisDigit]
    congr 1
    simp only [Char.reduceToNat, Nat.cast_ofNat]
    omega
  · have hisDigit : ¬ isDigit (87 + d : ℤ) = true := by
      simp only [isDigit, Bool.and_eq_true, decide_eq_true_eq, Char.reduceToNat, Nat.cast_ofNat]
      omega
    simp only [Char.reduceToNat, Nat.cast_ofNat]
    rw [if_neg hdigit, if_neg hisDigit, if_neg (by omega), if_pos (by omega)]
    congr 1
    omega

end Codes

section Reading

variable {throws : Throw → Prop} {s : Lexer} {room count k : ℕ} {c e start stop : ℤ}
  {l rest : List ℤ} {ds : List ℕ}

/-- The question marks of a mask are read up to the character `e`. -/
theorem rangeDigits_masks (h : Ahead s room rest)
    (hrest : c :: rest = List.replicate k ('?' : ℤ) ++ e :: l) (hcount : k ≤ count)
    (hstop : k = count ∨ e ≠ '?') :
    Ensures (rangeDigits count c ⟨start, stop, true⟩) s throws fun p t =>
      p = (e, ⟨start * 16 ^ k, stop * 16 ^ k + (16 ^ k - 1), true⟩) ∧ Ahead t room l := by
  induction k generalizing s count c rest start stop with
  | zero =>
    obtain ⟨rfl, rfl⟩ := List.cons.inj hrest
    rw [pow_zero, mul_one, mul_one, sub_self, add_zero]
    cases count with
    | zero =>
      rw [rangeDigits]
      exact Ensures.pure ⟨rfl, h⟩
    | succ count =>
      have hne : c ≠ '?' := hstop.resolve_left (by omega)
      rw [rangeDigits, if_neg hne, if_neg (by simp)]
      exact Ensures.pure ⟨rfl, h⟩
  | succ k ih =>
    rw [List.replicate_succ, List.cons_append] at hrest
    obtain ⟨rfl, rfl⟩ := List.cons.inj hrest
    obtain ⟨count, rfl⟩ : ∃ n, count = n + 1 := ⟨count - 1, by omega⟩
    rw [rangeDigits, if_pos rfl, if_pos rfl]
    obtain ⟨f, l', hl'⟩ : ∃ f l', List.replicate k ('?' : ℤ) ++ e :: l = f :: l' :=
      List.exists_cons_of_ne_nil (by simp)
    rw [hl'] at h
    refine Ensures.bind (h.getc fun t ht => ?_)
    refine (ih ht.less hl'.symm (by omega)
      (hstop.imp_left (by omega))).mono fun p u hp => ⟨?_, hp.2⟩
    rw [hp.1, pow_succ]
    congr 2
    · ring
    · ring

/-- The digits of a range and the question marks after them are read up to the character `e`. -/
theorem rangeDigits_ahead (hds : ∀ d ∈ ds, d < 16) (h : Ahead s room rest)
    (hrest : c :: rest = ds.map hexCode ++ (List.replicate k ('?' : ℤ) ++ e :: l))
    (hcount : ds.length + k ≤ count)
    (hstop : ds.length + k = count ∨ e ≠ '?' ∧ (k = 0 → isHex e = false)) (n : ℕ) :
    Ensures (rangeDigits count c ⟨n, 0, false⟩) s throws fun p t =>
      p = (e, if k = 0 then ⟨digitsValue n ds, 0, false⟩
        else ⟨digitsValue n ds * 16 ^ k, digitsValue n ds * 16 ^ k + (16 ^ k - 1), true⟩) ∧
      Ahead t room l := by
  induction ds generalizing s count c rest n with
  | nil =>
    cases k with
    | zero =>
      obtain ⟨rfl, rfl⟩ := List.cons.inj hrest
      rw [if_pos rfl]
      cases count with
      | zero =>
        rw [rangeDigits]
        exact Ensures.pure ⟨rfl, h⟩
      | succ count =>
        obtain ⟨hne, hhex⟩ := hstop.resolve_left (by simp)
        rw [rangeDigits, if_neg hne, if_neg (by simp [hhex rfl])]
        exact Ensures.pure ⟨rfl, h⟩
    | succ k =>
      rw [List.map_nil, List.nil_append, List.replicate_succ, List.cons_append] at hrest
      obtain ⟨rfl, rfl⟩ := List.cons.inj hrest
      rw [List.length_nil, Nat.zero_add] at hcount hstop
      obtain ⟨count, rfl⟩ : ∃ n, count = n + 1 := ⟨count - 1, by omega⟩
      rw [rangeDigits, if_pos rfl, if_neg (by simp)]
      obtain ⟨f, l', hl'⟩ : ∃ f l', List.replicate k ('?' : ℤ) ++ e :: l = f :: l' :=
        List.exists_cons_of_ne_nil (by simp)
      rw [hl'] at h
      refine Ensures.bind (h.getc fun t ht => ?_)
      refine (rangeDigits_masks ht.less hl'.symm (by omega)
        (hstop.imp (by omega) And.left)).mono fun p u hp => ⟨?_, hp.2⟩
      rw [hp.1, if_neg (by omega), pow_succ, digitsValue, List.foldl_nil]
      congr 2
      · ring
      · ring
  | cons d ds ih =>
    obtain ⟨hd, hds⟩ := List.forall_mem_cons.mp hds
    rw [List.map_cons, List.cons_append] at hrest
    obtain ⟨rfl, rfl⟩ := List.cons.inj hrest
    rw [List.length_cons] at hcount hstop
    obtain ⟨count, rfl⟩ : ∃ n, count = n + 1 := ⟨count - 1, by omega⟩
    have hmask : hexCode d ≠ '?' := by
      rw [hexCode_eq hd]
      simp only [Char.reduceToNat, Nat.cast_ofNat]
      split_ifs <;> omega
    rw [rangeDigits, if_neg hmask, if_pos (by simp [isHex_hexCode hd]), hexToDec_hexCode hd,
      pure_bind]
    obtain ⟨f, l', hl'⟩ : ∃ f l', ds.map hexCode ++ (List.replicate k ('?' : ℤ) ++ e :: l) =
        f :: l' := List.exists_cons_of_ne_nil (by simp)
    rw [hl'] at h
    refine Ensures.bind (h.getc fun t ht => ?_)
    have hcount' : ds.length + k ≤ count := by omega
    have hstop' : ds.length + k = count ∨ e ≠ '?' ∧ (k = 0 → isHex e = false) :=
      hstop.imp_left fun hall => by omega
    have hstep := ih hds ht.less hl'.symm hcount' hstop' (n * 16 + d)
    rw [Nat.cast_add, Nat.cast_mul, Nat.cast_ofNat] at hstep
    exact hstep

/-- The digits of the end of a range are read up to the character `e`. -/
theorem rangeStop_ahead (hds : ∀ d ∈ ds, d < 16) (h : Ahead s room rest)
    (hrest : c :: rest = ds.map hexCode ++ e :: l) (hcount : ds.length ≤ count)
    (hstop : ds.length = count ∨ isHex e = false) (n : ℕ) :
    Ensures (rangeStop count c n) s throws fun p t =>
      p = (e, (digitsValue n ds : ℤ)) ∧ Ahead t room l := by
  induction ds generalizing s count c rest n with
  | nil =>
    obtain ⟨rfl, rfl⟩ := List.cons.inj hrest
    cases count with
    | zero =>
      rw [rangeStop]
      exact Ensures.pure ⟨rfl, h⟩
    | succ count =>
      have hhex := hstop.resolve_left (by simp)
      rw [rangeStop, if_neg (by simp [hhex])]
      exact Ensures.pure ⟨rfl, h⟩
  | cons d ds ih =>
    obtain ⟨hd, hds⟩ := List.forall_mem_cons.mp hds
    rw [List.map_cons, List.cons_append] at hrest
    obtain ⟨rfl, rfl⟩ := List.cons.inj hrest
    rw [List.length_cons] at hcount hstop
    obtain ⟨count, rfl⟩ : ∃ n, count = n + 1 := ⟨count - 1, by omega⟩
    rw [rangeStop, if_pos (isHex_hexCode hd), hexToDec_hexCode hd, pure_bind]
    obtain ⟨f, l', hl'⟩ : ∃ f l', ds.map hexCode ++ e :: l = f :: l' :=
      List.exists_cons_of_ne_nil (by simp)
    rw [hl'] at h
    refine Ensures.bind (h.getc fun t ht => ?_)
    have hcount' : ds.length ≤ count := by omega
    have hstop' : ds.length = count ∨ isHex e = false := hstop.imp_left fun hall => by omega
    have hstep := ih hds ht.less hl'.symm hcount' hstop' (n * 16 + d)
    rw [Nat.cast_add, Nat.cast_mul, Nat.cast_ofNat] at hstep
    exact hstep

/-- The character behind a range is put back, and the range is returned. -/
theorem rangeEnd_ahead {m n : ℕ} (h : Ahead s room l) (hc : 0 < c ∧ c ≤ 0x10FFFF)
    (hroom : room < ungetSize) (hle : m ≤ n) :
    Ensures (rangeEnd c m n) s throws fun tok t =>
      tok = rangeNode ((n : ℤ) * 2 ^ 32 + m) ∧ t.errors = [] := by
  rw [rangeEnd, if_neg (by omega)]
  exact Ensures.bind (h.ungetc_hand hc hroom fun t ht => Ensures.pure ⟨rfl, ht.errors⟩)

theorem rangeCheck_ahead {m n : ℕ} (h : Ahead s room l) (hc : 0 < c ∧ c ≤ 0x10FFFF)
    (hroom : room < ungetSize) (hle : m ≤ n) (hn : n ≤ 0x10FFFF) :
    Ensures (rangeCheck c m n) s throws fun tok t =>
      tok = rangeNode ((n : ℤ) * 2 ^ 32 + m) ∧ t.errors = [] := by
  rw [rangeCheck, if_neg (by omega)]
  exact rangeEnd_ahead h hc hroom hle

end Reading

section Forms

variable {throws : Throw → Prop} {s : Lexer} {room start stop n : ℕ} {c e : ℤ} {l rest : List ℤ}
  {text : Bytes}

def codesOf (text : Bytes) : List ℤ := text.map fun b => (b.toNat : ℤ)

def Extends (text : Bytes) (c : ℤ) : Prop :=
  if 45 ∈ text then isHex c = true ∧ (text.dropWhile (· ≠ 45)).length ≤ 6
  else if 63 ∈ text then c = '?' ∧ text.length < 6
  else c = '-' ∨ (isHex c = true ∨ c = '?') ∧ text.length < 6

instance (text : Bytes) (c : ℤ) : Decidable (Extends text c) :=
  inferInstanceAs (Decidable (ite _ _ _))

theorem codesOf_map (ds : List ℕ) : codesOf (ds.map hexDigit) = ds.map hexCode := by
  rw [codesOf, List.map_map]
  rfl

theorem notMem_map_hexDigit {ds : List ℕ} (hds : ∀ d ∈ ds, d < 16) {b : UInt8}
    (hb : b = 45 ∨ b = 63) : b ∉ ds.map hexDigit := by
  intro hmem
  obtain ⟨d, hd, rfl⟩ := List.mem_map.mp hmem
  have hnat := toNat_hexDigit (hds d hd)
  rcases hb with hb | hb
  all_goals
    rw [hb] at hnat
    simp only [UInt8.toNat_ofNat] at hnat
    split_ifs at hnat <;> omega

theorem length_hexDigits (h : n < 16 ^ 6) : (hexDigits n).length ≤ 6 := (fill_hexDigits h).1

theorem length_hexText (n : ℕ) : (hexText n).length = (hexDigits n).length :=
  List.length_map _

theorem notMem_hexText {b : UInt8} (hb : b = 45 ∨ b = 63) (n : ℕ) : b ∉ hexText n :=
  notMem_map_hexDigit (fun _ => hexDigits_lt) hb

/-- A number and question marks behind it. -/
theorem unicodeRange_mask {ds : List ℕ} {q : ℕ} (hds : ∀ d ∈ ds, d < 16) (hq : 0 < q)
    (hlength : ds.length + q ≤ 6) (hstart : start = digitsValue 0 ds * 16 ^ q)
    (hstop : stop = start + (16 ^ q - 1)) (hlimit : start < 0x110000) (h : Ahead s room rest)
    (hrest : c :: rest = codesOf (ds.map hexDigit ++ List.replicate q 63) ++ e :: l)
    (hend : ¬ Extends (ds.map hexDigit ++ List.replicate q 63) e) (he : 0 < e ∧ e ≤ 0x10FFFF)
    (hroom : room < ungetSize) :
    Ensures (unicodeRange c) s throws fun tok t =>
      tok = rangeNode (((min stop 0x1FFFFF : ℕ) : ℤ) * 2 ^ 32 + start) ∧ t.errors = [] := by
  have hcodes : codesOf (ds.map hexDigit ++ List.replicate q 63) =
      ds.map hexCode ++ List.replicate q ('?' : ℤ) := by
    rw [codesOf, List.map_append, ← codesOf, codesOf_map, List.map_replicate]
    rfl
  have hdash : ¬ 45 ∈ ds.map hexDigit ++ List.replicate q 63 := by
    rw [List.mem_append, not_or]
    exact ⟨notMem_map_hexDigit hds (Or.inl rfl),
      fun hmem => absurd (List.eq_of_mem_replicate hmem) (by decide)⟩
  have hmark : 63 ∈ ds.map hexDigit ++ List.replicate q 63 :=
    List.mem_append_right _ (List.mem_replicate.mpr ⟨hq.ne', rfl⟩)
  rw [Extends, if_neg hdash, if_pos hmark, List.length_append, List.length_map,
    List.length_replicate] at hend
  have hstops : ds.length + q = 6 ∨ e ≠ '?' ∧ (q = 0 → isHex e = false) := by
    by_cases hfull : ds.length + q = 6
    · exact Or.inl hfull
    · exact Or.inr ⟨fun heq => hend ⟨heq, by omega⟩, fun hzero => absurd hzero hq.ne'⟩
  rw [hcodes, List.append_assoc] at hrest
  have hpow : 0 < 16 ^ q := Nat.pow_pos (by decide)
  rw [unicodeRange]
  refine Ensures.bind ((rangeDigits_ahead hds h hrest hlength hstops 0).mono
    fun p t hp => ?_)
  obtain ⟨rfl, ht⟩ := hp
  rw [if_neg hq.ne']
  dsimp only
  have hstart' : (digitsValue 0 ds : ℤ) * 16 ^ q = (start : ℤ) := by
    rw [hstart]
    push_cast
    rfl
  have hstop' : (start : ℤ) + (16 ^ q - 1) = (stop : ℤ) := by
    rw [hstop, Nat.cast_add, Nat.cast_sub hpow]
    push_cast
    rfl
  rw [hstart', hstop', if_pos rfl, if_neg (by omega)]
  have hclamp : (if (0x1FFFFF : ℤ) < stop then (0x1FFFFF : ℤ) else stop) =
      ((min stop 0x1FFFFF : ℕ) : ℤ) := by
    split_ifs <;> omega
  rw [hclamp]
  exact rangeEnd_ahead ht he hroom (by omega)

theorem unicodeRange_digits (hstart : start ≤ 0x10FFFF) (h : Ahead s room rest)
    (hrest : c :: rest = codesOf (hexText start) ++ e :: l)
    (hend : (hexDigits start).length = 6 ∨ e ≠ '?' ∧ isHex e = false) {post : Token → Lexer → Prop}
    (hpost : ∀ t, Ahead t room l → Ensures (if e = '-' then do
        let d ← getc
        let (d, stop) ← rangeStop 6 d 0
        rangeCheck d start stop
      else rangeCheck e start start) t throws post) :
    Ensures (unicodeRange c) s throws post := by
  rw [hexText, codesOf_map] at hrest
  rw [unicodeRange]
  refine Ensures.bind ((rangeDigits_ahead (k := 0) (fun d => hexDigits_lt) h hrest
    (length_hexDigits (by omega)) (hend.imp id fun h => ⟨h.1, fun _ => h.2⟩) 0).mono
      fun p t hp => ?_)
  obtain ⟨rfl, ht⟩ := hp
  rw [if_pos rfl, digitsValue_hexDigits]
  exact hpost t ht

theorem unicodeRange_single (hstart : start ≤ 0x10FFFF) (h : Ahead s room rest)
    (hrest : c :: rest = codesOf (hexText start) ++ e :: l) (hend : ¬ Extends (hexText start) e)
    (he : 0 < e ∧ e ≤ 0x10FFFF) (hroom : room < ungetSize) :
    Ensures (unicodeRange c) s throws fun tok t =>
      tok = rangeNode ((start : ℤ) * 2 ^ 32 + start) ∧ t.errors = [] := by
  have hlength := length_hexDigits (n := start) (by omega)
  rw [Extends, if_neg (notMem_hexText (Or.inl rfl) start),
    if_neg (notMem_hexText (Or.inr rfl) start), not_or, length_hexText] at hend
  have hstops : (hexDigits start).length = 6 ∨ e ≠ '?' ∧ isHex e = false := by
    by_cases hfull : (hexDigits start).length = 6
    · exact Or.inl hfull
    · refine Or.inr ⟨fun heq => hend.2 ⟨Or.inr heq, by omega⟩, ?_⟩
      rw [Bool.eq_false_iff]
      exact fun hhex => hend.2 ⟨Or.inl hhex, by omega⟩
  refine unicodeRange_digits hstart h hrest hstops fun t ht => ?_
  rw [if_neg hend.1]
  exact rangeCheck_ahead ht he hroom le_rfl hstart

theorem unicodeRange_pair (hle : start ≤ stop) (hstop : stop ≤ 0x10FFFF) (h : Ahead s room rest)
    (hrest : c :: rest = codesOf (hexText start ++ 45 :: hexText stop) ++ e :: l)
    (hend : ¬ Extends (hexText start ++ 45 :: hexText stop) e) (he : 0 < e ∧ e ≤ 0x10FFFF)
    (hroom : room < ungetSize) :
    Ensures (unicodeRange c) s throws fun tok t =>
      tok = rangeNode ((stop : ℤ) * 2 ^ 32 + start) ∧ t.errors = [] := by
  have hlength := length_hexDigits (n := stop) (by omega)
  have hdrop : (hexText start ++ 45 :: hexText stop).dropWhile (· ≠ 45) = 45 :: hexText stop := by
    rw [List.dropWhile_append_of_pos fun b hb => ?_, List.dropWhile_cons_of_neg (by decide)]
    refine decide_eq_true fun heq => ?_
    exact notMem_hexText (Or.inl rfl) start (heq ▸ hb)
  rw [Extends, if_pos (List.mem_append_right _ List.mem_cons_self), hdrop, List.length_cons,
    length_hexText] at hend
  have hstops : (hexDigits stop).length = 6 ∨ isHex e = false := by
    by_cases hfull : (hexDigits stop).length = 6
    · exact Or.inl hfull
    · rw [Bool.eq_false_iff]
      exact Or.inr fun hhex => hend ⟨hhex, by omega⟩
  have hcodes : codesOf (hexText start ++ 45 :: hexText stop) ++ e :: l =
      codesOf (hexText start) ++ ('-' : ℤ) :: ((hexDigits stop).map hexCode ++ e :: l) := by
    rw [codesOf, List.map_append, List.map_cons, ← codesOf, ← codesOf, hexText, hexText,
      codesOf_map, codesOf_map, List.append_assoc, List.cons_append]
    rfl
  rw [hcodes] at hrest
  refine unicodeRange_digits (by omega) h hrest (Or.inr ⟨by decide, by decide⟩) fun t ht => ?_
  obtain ⟨f, l', hl'⟩ : ∃ f l', (hexDigits stop).map hexCode ++ e :: l = f :: l' :=
    List.exists_cons_of_ne_nil (by simp)
  rw [if_pos rfl]
  rw [hl'] at ht
  refine Ensures.bind (ht.getc fun u hu => ?_)
  refine Ensures.bind ((rangeStop_ahead (fun d => hexDigits_lt) hu.less
    hl'.symm hlength hstops 0).mono fun ⟨d, n⟩ w ⟨heq, hw⟩ => ?_)
  obtain ⟨rfl, rfl⟩ := Prod.mk.inj heq
  rw [digitsValue_hexDigits]
  exact rangeCheck_ahead hw he hroom hle hstop

end Forms

def getRange (start stop : ℕ) : ℤ := (stop : ℤ) * 2 ^ 32 + start

/-- The ranges of the tokens: a number larger than a character ends one of two of them only. -/
def Limited (start stop : ℕ) : Prop :=
  start ≤ stop ∧ (stop ≤ 0x10FFFF ∨ start = 0x100000 ∧ stop = 0x1FFFFF ∨
    start = 0 ∧ 0x10FFFF ≤ stop)

/-- What is known of the digits and of the mask, of which there are `k` at most. -/
def MaskOf (k : ℕ) (r : RangeStart) : Prop :=
  if r.hasMask then ∃ h q : ℕ, q ≤ k ∧ r.start = h * 16 ^ q ∧ r.stop = h * 16 ^ q + (16 ^ q - 1)
  else 0 ≤ r.start ∧ r.stop = 0

theorem hexToDec_returns (d : ℤ) : Returns (hexToDec d) (0 ≤ ·) := by
  refine Returns.ite (fun hdigit => Returns.pure ?_) (fun _ => ?_)
  · simp only [isDigit, Bool.and_eq_true, decide_eq_true_eq] at hdigit
    omega
  refine Returns.ite (fun hupper => Returns.pure ?_) (fun _ => ?_)
  · omega
  · exact Returns.ite (fun hlower => Returns.pure (by omega)) (fun _ => Returns.throw)

theorem rangeDigits_returns {k : ℕ} (count : ℕ) (d : ℤ) {r : RangeStart} (h : MaskOf k r) :
    Returns (rangeDigits count d r) fun p => MaskOf (k + count) p.2 := by
  induction count generalizing k d r with
  | zero => exact Returns.pure h
  | succ count ih =>
    rw [rangeDigits]
    have hcount : k + (count + 1) = k + 1 + count := by omega
    rw [hcount]
    refine Returns.both (Returns.last fun c => ih c ?_) ?_
    · rw [MaskOf, if_pos rfl]
      rw [MaskOf] at h
      by_cases hmask : r.hasMask = true
      · rw [if_pos hmask] at h
        obtain ⟨n, q, hq, hstart, hstop⟩ := h
        refine ⟨n, q + 1, Nat.succ_le_succ hq, ?_, ?_⟩
        · dsimp only
          rw [hstart, pow_succ]
          ring
        · dsimp only
          rw [if_pos hmask, hstop, pow_succ]
          ring
      · rw [if_neg hmask] at h
        obtain ⟨n, hn⟩ := Int.eq_ofNat_of_zero_le h.1
        refine ⟨n, 1, Nat.le_add_left 1 k, ?_, ?_⟩
        · rw [hn]
          rfl
        · dsimp only
          rw [if_neg hmask, hn]
          norm_num
    · refine Returns.ite (fun hhex => ?_) (fun _ => Returns.pure ?_)
      · refine (hexToDec_returns d).bind fun n hn => Returns.last fun c => ih c ?_
        have hmask : ¬ r.hasMask = true := by
          have hnot := hhex.2
          rw [Bool.not_eq_true']  at hnot
          rw [hnot]
          decide
        rw [MaskOf, if_neg hmask] at h ⊢
        refine ⟨?_, h.2⟩
        dsimp only
        omega
      · rw [MaskOf] at h ⊢
        split_ifs at h ⊢ with hmask
        · obtain ⟨n, q, hq, hsame⟩ := h
          exact ⟨n, q, by omega, hsame⟩
        · exact h

theorem rangeEnd_returns {d start stop : ℤ}
    (h : start ≤ stop → ∃ m n : ℕ, start = m ∧ stop = n ∧ Limited m n) :
    Returns (rangeEnd d start stop) fun tok =>
      ∃ m n, Limited m n ∧ tok.fInteger = getRange m n := by
  refine Returns.ite (fun _ => ?_) (fun hle => ?_)
  · exact Returns.last fun _ => Returns.pure ⟨0, 0, ⟨le_rfl, Or.inl (by decide)⟩, rfl⟩
  · obtain ⟨m, n, rfl, rfl, hlimited⟩ := h (not_lt.mp hle)
    exact Returns.last fun _ => Returns.pure ⟨m, n, hlimited, rfl⟩

theorem rangeStop_returns (count : ℕ) (d : ℤ) {stop : ℤ} (h : 0 ≤ stop) :
    Returns (rangeStop count d stop) fun p => 0 ≤ p.2 := by
  induction count generalizing d stop with
  | zero => exact Returns.pure h
  | succ count ih =>
    refine Returns.both ?_ (Returns.pure h)
    exact (hexToDec_returns d).bind fun n hn => Returns.last fun c => ih c (by omega)

theorem rangeCheck_returns (d : ℤ) {start stop : ℤ} (hstart : 0 ≤ start) (hstop : 0 ≤ stop) :
    Returns (rangeCheck d start stop) fun tok =>
      ∃ m n, Limited m n ∧ tok.fInteger = getRange m n := by
  refine Returns.ite (fun _ => ?_) (fun hsmall => rangeEnd_returns fun hle => ?_)
  · exact Returns.last fun _ => Returns.pure ⟨0, 0, ⟨le_rfl, Or.inl (by decide)⟩, rfl⟩
  · refine ⟨start.toNat, stop.toNat, by omega, by omega, by omega, Or.inl (by omega)⟩

theorem limited_mask {h q m : ℕ} (hq : q ≤ 6) (hstart : m = h * 16 ^ q) (hm : m < 0x110000) :
    Limited m (min (m + (16 ^ q - 1)) 0x1FFFFF) := by
  rw [Limited]
  interval_cases q <;> omega

theorem unicodeRange_limited (d : ℤ) : Returns (unicodeRange d) fun tok =>
    ∃ m n, Limited m n ∧ tok.fInteger = getRange m n := by
  have hbegin : MaskOf 0 {} := ⟨le_rfl, rfl⟩
  refine (rangeDigits_returns 6 d hbegin).bind fun ⟨c, r⟩ hr => ?_
  rw [MaskOf] at hr
  refine Returns.ite (fun hmask => ?_) (fun hmask => ?_)
  · rw [if_pos hmask] at hr
    obtain ⟨h, q, hq, hstart, hstop⟩ := hr
    have hpos : 0 < 16 ^ q := Nat.pow_pos (by decide)
    have hstart' : r.start = (h * 16 ^ q : ℕ) := by
      rw [hstart]
      push_cast
      rfl
    have hstop' : r.stop = (h * 16 ^ q + (16 ^ q - 1) : ℕ) := by
      rw [hstop, Nat.cast_add, Nat.cast_sub hpos]
      push_cast
      rfl
    have hclamp : (if 0x1FFFFF < r.stop then (0x1FFFFF : ℤ) else r.stop) =
        (min (h * 16 ^ q + (16 ^ q - 1)) 0x1FFFFF : ℕ) := by
      rw [hstop']
      split_ifs <;> omega
    dsimp only
    rw [hclamp]
    refine Returns.ite (fun hlarge => ?_) (fun hsmall => ?_)
    · refine Returns.last fun _ => rangeEnd_returns fun _ =>
        ⟨0, _, rfl, rfl, Nat.zero_le _, Or.inr (Or.inr ⟨rfl, ?_⟩)⟩
      omega
    · exact rangeEnd_returns fun _ => ⟨_, _, hstart', rfl, limited_mask hq rfl (by omega)⟩
  · rw [if_neg hmask] at hr
    refine Returns.both ?_ (rangeCheck_returns c hr.1 hr.1)
    refine Returns.last fun d => (rangeStop_returns 6 d le_rfl).bind fun p hp => ?_
    exact rangeCheck_returns p.1 hr.1 hp

def Produced (start stop : ℕ) : Prop :=
  ∃ s tok t, nextToken s = .ok (tok, t) ∧ tok.fType = .unicodeRange ∧
    tok.fInteger = getRange start stop

theorem Produced.limited {start stop : ℕ} (h : Produced start stop) (hstart : start < 2 ^ 32) :
    Limited start stop := by
  obtain ⟨s, tok, t, hnext, htype, hinteger⟩ := h
  have hrules : TokenRules fun tok => tok.fType = .unicodeRange →
      ∃ m n, Limited m n ∧ tok.fInteger = getRange m n := by
    refine .of_others (fun tok htok heq => ?_) (fun fuel cComment => ?_) (fun d => ?_)
    · rw [heq] at htok
      exact absurd (by decide) htok
    · exact comment_yields (fun _ _ _ heq => by cases heq) fuel cComment
    · exact (unicodeRange_limited d).mono fun tok htok _ => htok
  obtain ⟨m, n, hlimited, hvalue⟩ := (hrules.nextToken_returns s).of_ok hnext htype
  have hm : m < 2 ^ 32 := by
    have := hlimited
    rw [Limited] at this
    omega
  rw [hvalue, getRange, getRange] at hinteger
  obtain ⟨rfl, rfl⟩ : m = start ∧ n = stop := by omega
  exact hlimited

section Back

variable {throws : Throw → Prop} {post : Token → Lexer → Prop} {s : Lexer} {start stop : ℕ}
  {c e : ℤ} {l : List ℤ} {text rest : Bytes} {more : List (ℤ × List Error)}

theorem readChar_printable {b : UInt8} (hb : 13 < b ∧ b < 0x80) (rest : Bytes) :
    readChar b rest = ⟨b.toNat, [], rest⟩ := by
  have hnat : 13 < b.toNat := UInt8.lt_iff_toNat_lt.mp hb.1
  have hreturn : ¬ (b.toNat : ℤ) = '\r' := by
    rw [show (('\r' : Char) : ℤ) = 13 from rfl]
    omega
  rw [readChar, if_pos hb.2, Reading.normal, if_neg hreturn, if_neg, if_neg]
  · dsimp only
    omega
  · dsimp only
    omega

theorem characters_printable (h : ∀ b ∈ text, 13 < b ∧ b < 0x80) (rest : Bytes) :
    characters (text ++ rest) = text.map (fun b => ((b.toNat : ℤ), [])) ++ characters rest := by
  induction text with
  | nil => rfl
  | cons b text ih =>
    obtain ⟨hb, htext⟩ := List.forall_mem_cons.mp h
    rw [List.cons_append, characters_cons, readChar_printable hb, List.map_cons, List.cons_append,
      ih htext]

/-- A lexer at the start of a text that is followed by the character `e`. -/
theorem Ahead.start_printable (h : ∀ b ∈ text, 13 < b ∧ b < 0x80)
    (hrest : characters rest = (e, []) :: more) (hmore : ∀ p ∈ more, p.2 = []) :
    Ahead (.start (text ++ rest)) 0 (codesOf text ++ e :: more.map Prod.fst) := by
  have hcharacters := characters_printable h rest
  have hpos := characters_pos (text ++ rest)
  have hcodes : (characters (text ++ rest)).map Prod.fst =
      codesOf text ++ e :: more.map Prod.fst := by
    rw [hcharacters, hrest, List.map_append, List.map_map, List.map_cons]
    rfl
  refine ⟨hcodes, ?_, ?_, rfl, le_rfl⟩
  · change ∀ p ∈ characters (text ++ rest), p.2 = []
    rw [hcharacters, hrest]
    intro p hp
    rcases List.mem_append.mp hp with hp | hp
    · obtain ⟨b, -, rfl⟩ := List.mem_map.mp hp
      rfl
    · rcases List.mem_cons.mp hp with rfl | hp
      · rfl
      · exact hmore p hp
  · rw [← hcodes]
    intro d hd
    obtain ⟨p, hp, rfl⟩ := List.mem_map.mp hd
    exact hpos p hp

theorem hexDigit_printable {d : ℕ} (hd : d < 16) : 13 < hexDigit d ∧ hexDigit d < 0x80 := by
  have hnat := toNat_hexDigit hd
  rw [UInt8.lt_iff_toNat_lt, UInt8.lt_iff_toNat_lt]
  simp only [UInt8.toNat_ofNat]
  split_ifs at hnat <;> omega

theorem RangeForm.printable (h : RangeForm start stop text) : ∀ b ∈ text, 13 < b ∧ b < 0x80 := by
  have hdigits : ∀ ds : List ℕ, (∀ d ∈ ds, d < 16) → ∀ b ∈ ds.map hexDigit, 13 < b ∧ b < 0x80 := by
    intro ds hds b hb
    obtain ⟨d, hd, rfl⟩ := List.mem_map.mp hb
    exact hexDigit_printable (hds d hd)
  have htext : ∀ n, ∀ b ∈ hexText n, 13 < b ∧ b < 0x80 := fun n => hdigits _ fun _ => hexDigits_lt
  intro b hb
  cases h with
  | single => exact htext _ b hb
  | mask hds =>
    rcases List.mem_append.mp hb with hb | hb
    · exact hdigits _ hds b hb
    · rw [List.eq_of_mem_replicate hb]
      decide
  | pair =>
    rcases List.mem_append.mp hb with hb | hb
    · exact htext _ b hb
    rcases List.mem_cons.mp hb with rfl | hb
    · decide
    · exact htext _ b hb

theorem hexText_ne_nil (n : ℕ) : hexText n ≠ [] := by
  rw [hexText, hexDigits]
  split_ifs <;> simp

theorem RangeForm.first (h : RangeForm start stop text) (tail : List ℤ) :
    ∃ c l, codesOf text ++ tail = c :: l ∧ (isHex c = true ∨ c = '?') := by
  have hdigits : ∀ ds : List ℕ, ds ≠ [] → (∀ d ∈ ds, d < 16) → ∀ more : List ℤ,
      ∃ c l, codesOf (ds.map hexDigit) ++ more = c :: l ∧ (isHex c = true ∨ c = '?') := by
    intro ds hne hds more
    obtain ⟨d, ds, rfl⟩ := List.exists_cons_of_ne_nil hne
    exact ⟨_, _, rfl, Or.inl (isHex_hexCode (hds d List.mem_cons_self))⟩
  have htext : ∀ n more, ∃ c l, codesOf (hexText n) ++ more = c :: l ∧
      (isHex c = true ∨ c = '?') := fun n => hdigits _
    (fun hnil => hexText_ne_nil n (by rw [hexText, hnil]; rfl)) fun _ => hexDigits_lt
  cases h with
  | single => exact htext _ _
  | @mask ds q hds hq =>
    rw [codesOf, List.map_append, List.append_assoc, ← codesOf]
    by_cases hnil : ds = []
    · obtain ⟨q, rfl⟩ : ∃ n, q = n + 1 := ⟨q - 1, by omega⟩
      rw [hnil, List.replicate_succ]
      exact ⟨'?', _, rfl, Or.inr rfl⟩
    · exact hdigits ds hnil hds _
  | pair =>
    rw [codesOf, List.map_append, List.append_assoc, ← codesOf]
    exact htext _ _

/-- A range is read behind the letter and the plus sign. -/
theorem turn_range (h : Ahead s 0 ('U' :: '+' :: c :: l)) (hc : isHex c = true ∨ c = '?')
    (hpost : ∀ t, Ahead t 0 l → Ensures (unicodeRange c) t throws post) :
    Ensures turn s throws fun x t => ∃ tok, x = some tok ∧ post tok t := by
  rw [turn]
  refine Ensures.bind (Ensures.bind (h.getc fun t ht => ?_))
  rw [tokenAt_start _ (by decide), if_pos (Or.inr rfl), letterU]
  refine Ensures.bind (ht.getc fun u hu => ?_)
  rw [if_pos rfl]
  refine Ensures.bind (hu.getc fun w hw => ?_)
  rw [if_pos hc]
  exact Ensures.bind ((hpost w hw).mono fun tok v hv => Ensures.pure ⟨tok, rfl, hv⟩)

def ReadsRange (bytes : Bytes) (start stop : ℕ) : Prop :=
  ∃ tok t, nextToken (.start bytes) = .ok (tok, t) ∧ tok.fType = .unicodeRange ∧
    tok.fInteger = getRange start stop ∧ t.errors = []

theorem readsRange (h : ∀ b ∈ text, 13 < b ∧ b < 0x80)
    (hrest : characters rest = (e, []) :: more) (hmore : ∀ p ∈ more, p.2 = [])
    (hfirst : codesOf text ++ e :: more.map Prod.fst = c :: l) (hc : isHex c = true ∨ c = '?')
    (hrange : ∀ t, Ahead t 0 l → Ensures (unicodeRange c) t (fun _ => False)
      fun tok t => tok = rangeNode (getRange start stop) ∧ t.errors = []) :
    ReadsRange (85 :: 43 :: text ++ rest) start stop := by
  have hall : ∀ b ∈ 85 :: 43 :: text, (13 : UInt8) < b ∧ b < 0x80 :=
    List.forall_mem_cons.mpr ⟨by decide, List.forall_mem_cons.mpr ⟨by decide, h⟩⟩
  have hahead := Ahead.start_printable hall hrest hmore
  have hcodes : codesOf (85 :: 43 :: text) ++ e :: more.map Prod.fst =
      ('U' : ℤ) :: ('+' : ℤ) :: c :: l := by
    rw [← hfirst]
    rfl
  rw [hcodes] at hahead
  obtain ⟨x, t, hrun, tok, rfl, rfl, herrors⟩ := (turn_range hahead hc hrange).total
  exact ⟨_, t, nextTokenLoop_some hrun, rfl, rfl, herrors⟩

/-- The text of a range is read as this range, whose end is cut off behind a mask. -/
theorem RangeForm.reads (h : RangeForm start stop text) (hstart : start < 0x110000)
    (hle : start ≤ stop) (hdash : 45 ∈ text → stop ≤ 0x10FFFF)
    (hrest : characters rest = (e, []) :: more) (hmore : ∀ p ∈ more, p.2 = [])
    (he : e ≤ 0x10FFFF) (hend : ¬ Extends text e) :
    ReadsRange (85 :: 43 :: text ++ rest) start (min stop 0x1FFFFF) := by
  have hpos : 0 < e := characters_pos rest (e, []) (hrest ▸ List.mem_cons_self)
  have hroom : 0 < ungetSize := by decide
  obtain ⟨c, l, hfirst, hc⟩ := h.first (e :: more.map Prod.fst)
  refine readsRange h.printable hrest hmore hfirst hc fun t ht => ?_
  cases h with
  | single heq =>
    rw [← heq, min_eq_left (by omega)]
    exact unicodeRange_single (by omega) ht hfirst.symm hend ⟨hpos, he⟩ hroom
  | mask hds hq hlength hvalue hstop =>
    exact unicodeRange_mask hds hq hlength hvalue hstop hstart ht hfirst.symm hend ⟨hpos, he⟩ hroom
  | pair hne =>
    have hstop : stop ≤ 0x10FFFF := hdash (List.mem_append_right _ List.mem_cons_self)
    rw [min_eq_left (by omega)]
    exact unicodeRange_pair hle hstop ht hfirst.symm hend ⟨hpos, he⟩ hroom

theorem rangeString_last : rangeString 0x100000 0x1FFFFF = some (49 :: List.replicate 5 63) := by
  rw [rangeString, filledText_eq (by decide), filledText_eq (by decide)]
  decide

theorem verifyRange_ok (h : verifyRange start stop = .ok ()) :
    start < 0x110000 ∧ stop < 0x200000 ∧ start ≤ stop := by
  rw [verifyRange] at h
  split_ifs at h
  omega

/-- The ranges are printed and read again, but that of all characters ends with the largest value
that a mask has. -/
theorem rangeString_readsBack (haccept : verifyRange start stop = .ok ())
    (hproduced : Produced start stop) (hrest : characters rest = (e, []) :: more)
    (hmore : ∀ p ∈ more, p.2 = []) (he : e ≤ 0x10FFFF) :
    ∃ text, rangeString start stop = some text ∧ (¬ Extends text e →
      ReadsRange (85 :: 43 :: text ++ rest) start
        (if start = 0 ∧ 0x10FFFF ≤ stop then 0x1FFFFF else stop)) := by
  obtain ⟨hstart, hstop, hle⟩ := verifyRange_ok haccept
  by_cases hall : start = 0 ∧ 0x10FFFF ≤ stop
  · rw [if_pos hall, hall.1]
    refine ⟨List.replicate 6 63, by rw [rangeString, if_pos ⟨rfl, hall.2⟩], fun hend => ?_⟩
    have hform : RangeForm 0 (16 ^ 6 - 1) (List.replicate 6 63) :=
      @RangeForm.mask 0 (16 ^ 6 - 1) [] 6 (by simp) (by decide) (by decide) rfl rfl
    exact hform.reads (by decide) (by decide) (by decide) hrest hmore he hend
  · rw [if_neg hall]
    have hfilled : start < 16 ^ 6 ∧ stop < 16 ^ 6 := by omega
    obtain ⟨text, htext, hform⟩ := rangeString_form hfilled.1 hfilled.2 hall
    refine ⟨text, htext, fun hend => ?_⟩
    have hreads := hform.reads hstart hle ?_ hrest hmore he hend
    · rwa [min_eq_left (by omega)] at hreads
    · intro hdash
      have hlimited := hproduced.limited (by omega)
      rw [Limited] at hlimited
      by_contra hlarge
      obtain ⟨rfl, rfl⟩ : start = 0x100000 ∧ stop = 0x1FFFFF := by omega
      rw [rangeString_last] at htext
      rw [← Option.some.inj htext] at hdash
      exact absurd hdash (by decide)

theorem characters_semicolon : characters [59] = [((';' : ℤ), [])] := by
  rw [characters_cons, readChar_printable (by decide), characters]
  rfl

/-- The capital letters, in front of a semicolon. -/
theorem rangeString_readsBack_letters : ∃ text, rangeString 0x41 0x5A = some text ∧
    (¬ Extends text ';' → ReadsRange (85 :: 43 :: text ++ [59]) 0x41
      (if 0x41 = 0 ∧ 0x10FFFF ≤ 0x5A then 0x1FFFFF else 0x5A)) :=
  rangeString_readsBack rfl
    ⟨.start [85, 43, 52, 49, 45, 53, 65], rangeNode (getRange 0x41 0x5A), .start [],
      by decide +kernel, rfl, rfl⟩
    characters_semicolon (by simp) (by decide)

/-- The range of all characters is read as a larger one. -/
theorem rangeString_all_characters :
    ¬ ∀ (start stop : ℕ) rest e more, verifyRange start stop = .ok () → Produced start stop →
      characters rest = (e, []) :: more → (∀ p ∈ more, p.2 = []) → e ≤ 0x10FFFF →
      ∃ text, rangeString start stop = some text ∧
        (¬ Extends text e → ReadsRange (85 :: 43 :: text ++ rest) start stop) := by
  intro h
  obtain ⟨text, htext, hreads⟩ := h 0 0x10FFFF [59] ';' [] rfl
    ⟨.start [85, 43, 48, 45, 49, 48, 70, 70, 70, 70], rangeNode (getRange 0 0x10FFFF),
      .start [], by decide +kernel, rfl, rfl⟩
    characters_semicolon (by simp) (by decide)
  rw [rangeString, if_pos (by decide)] at htext
  rw [← Option.some.inj htext] at hreads
  obtain ⟨tok, t, hnext, -, hinteger, -⟩ := hreads (by decide)
  have hrun : (nextToken (.start [85, 43, 63, 63, 63, 63, 63, 63, 59])).map
      (fun p => p.1.fInteger) = .ok (getRange 0 0x1FFFFF) := by decide +kernel
  change nextToken (.start [85, 43, 63, 63, 63, 63, 63, 63, 59]) = .ok (tok, t) at hnext
  rw [hnext] at hrun
  change Except.ok tok.fInteger = _ at hrun
  rw [hinteger] at hrun
  exact absurd (Except.ok.inj hrun) (by decide)

end Back

end SnapCpp.Css
