import SnapCpp.QString

/-!
Integers and lists of words in Qt strings: `QString("%1").arg()` of an integer
and `toLongLong()`, `join(",")` and `split(',')` without the empty parts. What is
written is read back.
-/
namespace SnapCpp.QNumber

open QString

def minus : UInt16 := 45

def plus : UInt16 := 43

def comma : UInt16 := 44

/-- `QString("%1").arg(n)`. -/
def number : ℤ → QString
  | .ofNat n => decimal n
  | .negSucc n => minus :: decimal (n + 1)

def isSpace (c : UInt16) : Bool :=
  (9 ≤ c && c ≤ 13) || c == 32 || c == 0x85 || c == 0xA0 || c == 0x1680 ||
    (0x2000 ≤ c && c ≤ 0x200A) || c == 0x2028 || c == 0x2029 || c == 0x202F || c == 0x205F ||
    c == 0x3000

def trimmed (s : QString) : QString :=
  ((s.dropWhile isSpace).reverse.dropWhile isSpace).reverse

def digitValue (c : UInt16) : ℕ := c.toNat - 48

def readDigits (s : QString) : ℕ := s.foldl (fun n c => 10 * n + digitValue c) 0

def toDigits (s : QString) : Option ℕ :=
  if s ≠ [] ∧ s.all isDigit then some (readDigits s) else none

def toSigned : QString → Option ℤ
  | [] => none
  | c :: rest =>
      if c = minus then (toDigits rest).map (fun n => -(n : ℤ))
      else if c = plus then (toDigits rest).map (fun n => (n : ℤ))
      else (toDigits (c :: rest)).map (fun n => (n : ℤ))

def IsInt64 (n : ℤ) : Prop := -2 ^ 63 ≤ n ∧ n < 2 ^ 63

instance (n : ℤ) : Decidable (IsInt64 n) := by
  unfold IsInt64
  infer_instance

/-- `QString::toLongLong()` in base 10. -/
def toLongLong (s : QString) : Option ℤ :=
  (toSigned (trimmed s)).filter (fun n => IsInt64 n)

/-- `join(",")`. -/
def joinComma (l : List QString) : QString := [comma].intercalate l

/-- `split(',', QString::SkipEmptyParts)`. -/
def splitComma (s : QString) : List QString := (s.splitOn comma).filter (fun w => w ≠ [])

theorem digitValue_ofChar {c : Char} (h : c.isDigit = true) :
    digitValue c.toNat.toUInt16 = c.toNat - '0'.toNat := by
  have hrange : 48 ≤ c.toNat ∧ c.toNat ≤ 57 := by
    simpa [Char.isDigit, UInt32.le_iff_toNat_le] using h
  have hval : (c.toNat.toUInt16).toNat = c.toNat := by
    simp only [Nat.toUInt16, UInt16.toNat_ofNat']
    omega
  rw [digitValue, hval]
  rfl

theorem foldl_digits (cs : List Char) (h : ∀ c ∈ cs, c.isDigit = true) (n : ℕ) :
    (cs.map (fun c => c.toNat.toUInt16)).foldl (fun n c => 10 * n + digitValue c) n =
      Nat.ofDigitChars 10 cs n := by
  induction cs generalizing n with
  | nil => simp [Nat.ofDigitChars]
  | cons c rest ih =>
    rw [List.map_cons, List.foldl_cons, Nat.ofDigitChars_cons,
      digitValue_ofChar (h c List.mem_cons_self), ih (List.forall_mem_cons.mp h).2]

theorem readDigits_decimal (n : ℕ) : readDigits (decimal n) = n := by
  rw [readDigits, decimal, foldl_digits _ (fun c hc =>
    Nat.isDigit_of_mem_toDigits (by decide) (by decide) hc), Nat.ofDigitChars_ten_toDigits]

theorem decimal_injective {m n : ℕ} (h : decimal m = decimal n) : m = n := by
  rw [← readDigits_decimal m, h, readDigits_decimal]

theorem decimal_ne_nil (n : ℕ) : decimal n ≠ [] := by
  simp [decimal, Nat.toDigits_ne_nil]

theorem toDigits_decimal (n : ℕ) : toDigits (decimal n) = some n := by
  rw [toDigits, if_pos, readDigits_decimal]
  exact ⟨decimal_ne_nil n, List.all_eq_true.mpr (fun c hc => isDigit_of_mem_decimal n c hc)⟩

theorem not_space_of_digit {c : UInt16} (h : isDigit c = true) : isSpace c = false := by
  have hc := isDigit_iff.mp h
  exact of_ascii (p := fun c => isDigit c = true → isSpace c = false) (by decide) (by omega) h

theorem trimmed_of_ends {s : QString} (hfirst : ∀ c, s.head? = some c → isSpace c = false)
    (hlast : ∀ c, s.getLast? = some c → isSpace c = false) : trimmed s = s := by
  have hdrop : ∀ t : QString, (∀ c, t.head? = some c → isSpace c = false) →
      t.dropWhile isSpace = t := by
    intro t ht
    cases t with
    | nil => rfl
    | cons c rest => rw [List.dropWhile_cons_of_neg (by simp [ht c rfl])]
  rw [trimmed, hdrop s hfirst, hdrop s.reverse, List.reverse_reverse]
  intro c hc
  exact hlast c (by rwa [List.head?_reverse] at hc)

theorem trimmed_number (n : ℤ) : trimmed (number n) = number n := by
  have hdigit : ∀ m c, c ∈ decimal m → isSpace c = false := fun m c hc =>
    not_space_of_digit (isDigit_of_mem_decimal m c hc)
  cases n with
  | ofNat m =>
    exact trimmed_of_ends (fun c hc => hdigit m c (List.mem_of_mem_head? hc))
      (fun c hc => hdigit m c (List.mem_of_mem_getLast? hc))
  | negSucc m =>
    refine trimmed_of_ends (fun c hc => ?_) (fun c hc => ?_)
    · obtain rfl := Option.some.inj hc
      rfl
    · rw [number, List.getLast?_cons_of_ne_nil (decimal_ne_nil _)] at hc
      exact hdigit _ c (List.mem_of_mem_getLast? hc)

theorem toSigned_number (n : ℤ) : toSigned (number n) = some n := by
  cases n with
  | ofNat m =>
    obtain ⟨c, rest, hcons⟩ := List.exists_cons_of_ne_nil (decimal_ne_nil m)
    have hc : isDigit c = true := isDigit_of_mem_decimal m c (by rw [hcons]; simp)
    have hminus : c ≠ minus := by
      rintro rfl
      exact absurd hc (by decide)
    have hplus : c ≠ plus := by
      rintro rfl
      exact absurd hc (by decide)
    have hdigits := toDigits_decimal m
    rw [hcons] at hdigits
    rw [number, hcons, toSigned, if_neg hminus, if_neg hplus, hdigits]
    rfl
  | negSucc m =>
    rw [number, toSigned, if_pos rfl, toDigits_decimal]
    rfl

/-- A 64 bit integer is read back. -/
theorem toLongLong_number {n : ℤ} (h : IsInt64 n) : toLongLong (number n) = some n := by
  rw [toLongLong, trimmed_number, toSigned_number]
  simp [Option.filter, h]

/-- A word of a joined list is found again, whatever the other words are. -/
theorem mem_splitComma_join {x : QString} {l : List QString} (hmem : x ∈ l) (hcomma : comma ∉ x)
    (hne : x ≠ []) : x ∈ splitComma (joinComma l) := by
  have hsplit : x ∈ (joinComma l).splitOn comma := by
    induction l with
    | nil => cases hmem
    | cons a rest ih =>
      cases rest with
      | nil =>
        obtain rfl := List.mem_singleton.mp hmem
        rw [joinComma, List.intercalate_singleton, List.splitOn_eq_singleton hcomma]
        exact List.mem_singleton.mpr rfl
      | cons b rest =>
        rw [joinComma, List.intercalate_cons_cons, List.append_assoc, List.singleton_append,
          List.splitOn_append_cons_self, List.mem_append]
        rcases List.mem_cons.mp hmem with rfl | hmem
        · rw [List.splitOn_eq_singleton hcomma]
          exact Or.inl (List.mem_singleton.mpr rfl)
        · exact Or.inr (ih hmem)
  exact List.mem_filter.mpr ⟨hsplit, by simpa using hne⟩

theorem splitComma_join {l : List QString} (h : ∀ x ∈ l, comma ∉ x ∧ x ≠ []) :
    splitComma (joinComma l) = l := by
  by_cases hl : l = []
  · subst hl
    rfl
  · rw [splitComma, joinComma, List.splitOn_intercalate comma (fun x hx => (h x hx).1) hl]
    exact List.filter_eq_self.mpr (fun x hx => by simpa using (h x hx).2)

end SnapCpp.QNumber
