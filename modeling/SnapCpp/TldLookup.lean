import SnapCpp.Bisection
import SnapCpp.TldSearch

/-!
`search()` looks up a label among the children of an entry. The children are in the
order of their labels, and one of them may be the wildcard `"*"`, which `cmp()` finds
equal to any label wherever it stands. The search finds the right child when there is
no wildcard. A wildcard with siblings is passed over by the first probe for some label
that only the wildcard stands for, or hides the siblings when it is the first probe.
-/
namespace SnapCpp.TldLookup

open TldParser TldNames TldTable TldSearch QString WordOrder Bisection

/-- The label of a line of `tld_descriptions`. -/
def labelAt (tldDescriptions : List TldDescription) (p : ℕ) : List UInt8 :=
  ((tldDescriptions[p]?).map TldDescription.fTld).getD []

/-- `search()`, where `none` is the result -1. -/
def search (tldDescriptions : List TldDescription) (i j : ℕ) (domain : List UInt8) : Option ℕ :=
  bisect (fun p => TldParser.cmp (labelAt tldDescriptions p) domain) i j

def wildcard : List UInt8 := [0x2A]

/-- A level of the table: the lines from `start` to `stop` have labels of visible
characters, and they are in the order of these labels. -/
structure Level (tldDescriptions : List TldDescription) (start stop : ℕ) : Prop where
  inside : ∀ p, start ≤ p → p < stop → p < tldDescriptions.length
  ne_nil : ∀ p, start ≤ p → p < stop → labelAt tldDescriptions p ≠ []
  visible : ∀ p, start ≤ p → p < stop → ∀ b ∈ labelAt tldDescriptions p, 0x21 < b ∧ b < 0x80
  sorted : ∀ p q, start ≤ p → p < q → q < stop →
    cmpFrom (labelAt tldDescriptions p) (labelAt tldDescriptions q) = -1

def placeOf (tldDescriptions : List TldDescription) (start stop : ℕ) (label : List UInt8) :
    Option ℕ :=
  (List.range' start (stop - start)).find? fun p => labelAt tldDescriptions p = label

def expected (tldDescriptions : List TldDescription) (start stop : ℕ) (label : List UInt8) :
    Option ℕ :=
  placeOf tldDescriptions start stop label <|> placeOf tldDescriptions start stop wildcard

def Honours (tldDescriptions : List TldDescription) (start stop : ℕ) : Prop :=
  ∀ label, label ≠ [] → 0 ∉ label →
    search tldDescriptions start stop label = expected tldDescriptions start stop label

section Order

variable {a b c : List UInt8}

theorem charValue_injective : Function.Injective charValue := by
  intro x y h
  unfold charValue at h
  have hx := x.toNat_lt
  have hy := y.toNat_lt
  refine UInt8.toNat_inj.mp ?_
  split_ifs at h with h₁ h₂ h₂ <;> rw [UInt8.lt_iff_toNat_lt] at h₁ h₂ <;> simp at h₁ h₂ <;> omega

theorem cmpFrom_spec (a b : List UInt8) :
    (cmpFrom a b = -1 ∧ a.map charValue < b.map charValue) ∨ (cmpFrom a b = 0 ∧ a = b) ∨
      (cmpFrom a b = 1 ∧ b.map charValue < a.map charValue) := by
  induction a generalizing b with
  | nil =>
    cases b with
    | nil => exact .inr (.inl ⟨rfl, rfl⟩)
    | cons y b => exact .inl ⟨rfl, List.nil_lt_cons _ _⟩
  | cons x a ih =>
    cases b with
    | nil => exact .inr (.inr ⟨rfl, List.nil_lt_cons _ _⟩)
    | cons y b =>
      rw [cmpFrom, List.map_cons, List.map_cons, List.cons_lt_cons_iff, List.cons_lt_cons_iff]
      rcases lt_trichotomy (charValue x) (charValue y) with hlt | heq | hgt
      · rw [if_pos hlt]
        exact .inl ⟨rfl, .inl hlt⟩
      · obtain rfl := charValue_injective heq
        rw [if_neg (lt_irrefl _), if_neg (lt_irrefl _)]
        rcases ih b with ⟨hcmp, hlt⟩ | ⟨hcmp, rfl⟩ | ⟨hcmp, hlt⟩
        · exact .inl ⟨hcmp, .inr ⟨rfl, hlt⟩⟩
        · exact .inr (.inl ⟨hcmp, rfl⟩)
        · exact .inr (.inr ⟨hcmp, .inr ⟨rfl, hlt⟩⟩)
      · rw [if_neg hgt.not_gt, if_pos hgt]
        exact .inr (.inr ⟨rfl, .inl hgt⟩)

theorem cmpFrom_eq_zero : cmpFrom a b = 0 ↔ a = b := by
  constructor
  · intro h
    rcases cmpFrom_spec a b with ⟨hcmp, -⟩ | ⟨-, heq⟩ | ⟨hcmp, -⟩
    · omega
    · exact heq
    · omega
  · rintro rfl
    rcases cmpFrom_spec a a with ⟨-, hlt⟩ | ⟨hcmp, -⟩ | ⟨-, hlt⟩
    · exact absurd hlt (lt_irrefl _)
    · exact hcmp
    · exact absurd hlt (lt_irrefl _)

theorem cmpFrom_swap (h : cmpFrom a b = -1) : cmpFrom b a = 1 := by
  rcases cmpFrom_spec a b with ⟨-, hlt⟩ | ⟨hcmp, -⟩ | ⟨hcmp, -⟩
  · rcases cmpFrom_spec b a with ⟨-, hgt⟩ | ⟨-, rfl⟩ | ⟨hcmp, -⟩
    · exact absurd hlt hgt.not_gt
    · exact absurd hlt (lt_irrefl _)
    · exact hcmp
  · omega
  · omega

theorem cmpFrom_append (a : List UInt8) (x : UInt8) : cmpFrom a (a ++ [x]) = -1 := by
  induction a with
  | nil => rfl
  | cons y a ih =>
    rw [List.cons_append, cmpFrom, if_neg (lt_irrefl _), if_neg (lt_irrefl _)]
    exact ih

theorem cmp_eq_zero : TldParser.cmp a b = 0 ↔ a = wildcard ∨ a = b := by
  unfold TldParser.cmp
  by_cases hwild : a = [0x2A]
  · rw [if_pos hwild]
    exact iff_of_true rfl (.inl hwild)
  · rw [if_neg hwild, cmpFrom_eq_zero]
    exact (or_iff_right hwild).symm

theorem cmp_of_ne (h : a ≠ wildcard) : TldParser.cmp a b = cmpFrom a b := if_neg h

end Order

section Levels

variable {tldDescriptions : List TldDescription} {start stop p q : ℕ} {label : List UInt8}

theorem Level.injective (h : Level tldDescriptions start stop) (hp : start ≤ p) (hp' : p < stop)
    (hq : start ≤ q) (hq' : q < stop)
    (heq : labelAt tldDescriptions p = labelAt tldDescriptions q) : p = q := by
  rcases Nat.lt_trichotomy p q with hlt | rfl | hgt
  · have hcmp := h.sorted p q hp hlt hq'
    rw [cmpFrom_eq_zero.mpr heq] at hcmp
    omega
  · rfl
  · have hcmp := h.sorted q p hq hgt hp'
    rw [cmpFrom_eq_zero.mpr heq.symm] at hcmp
    omega

theorem placeOf_eq_none (h : ∀ p, start ≤ p → p < stop → labelAt tldDescriptions p ≠ label) :
    placeOf tldDescriptions start stop label = none := by
  rw [placeOf, List.find?_eq_none]
  intro p hp
  rw [List.mem_range'_1] at hp
  simpa using h p hp.1 (by omega)

theorem Level.placeOf_eq (h : Level tldDescriptions start stop) (hp : start ≤ p) (hp' : p < stop)
    (heq : labelAt tldDescriptions p = label) :
    placeOf tldDescriptions start stop label = some p := by
  cases hfind : placeOf tldDescriptions start stop label with
  | none =>
    rw [placeOf, List.find?_eq_none] at hfind
    have hnot := hfind p (List.mem_range'_1.mpr ⟨hp, by omega⟩)
    simp [heq] at hnot
  | some q =>
    have hlabel := List.find?_some hfind
    have hmem := List.mem_range'_1.mp (List.mem_of_find?_eq_some hfind)
    rw [decide_eq_true_eq] at hlabel
    rw [h.injective hp hp' hmem.1 (by omega) (heq.trans hlabel.symm)]

theorem Level.search_plain (h : Level tldDescriptions start stop)
    (hplain : ∀ p, start ≤ p → p < stop → labelAt tldDescriptions p ≠ wildcard)
    (label : List UInt8) :
    search tldDescriptions start stop label = expected tldDescriptions start stop label := by
  rw [expected, placeOf_eq_none hplain, Option.orElse_eq_orElse, Option.orElse_eq_or,
    Option.or_none]
  by_cases hin : ∃ t, start ≤ t ∧ t < stop ∧ labelAt tldDescriptions t = label
  · obtain ⟨t, hstart, hstop, rfl⟩ := hin
    rw [h.placeOf_eq hstart hstop rfl]
    refine bisect_complete hstart hstop (cmp_eq_zero.mpr (.inr rfl)) ?_ ?_
    · intro p hp hpt
      rw [cmp_of_ne (hplain p hp (by omega)), h.sorted p t hp hpt hstop]
      decide
    · intro p htp hp
      rw [cmp_of_ne (hplain p (by omega) hp), cmpFrom_swap (h.sorted t p hstart htp hp)]
      decide
  · have hout : ∀ p, start ≤ p → p < stop → labelAt tldDescriptions p ≠ label :=
      fun p hp hp' heq => hin ⟨p, hp, hp', heq⟩
    rw [placeOf_eq_none hout]
    refine bisect_eq_none fun p hp hp' hzero => ?_
    rcases cmp_eq_zero.mp hzero with hwild | heq
    · exact hplain p hp hp' hwild
    · exact hout p hp hp' heq

theorem Level.search_single (h : Level tldDescriptions start (start + 1))
    (hwild : labelAt tldDescriptions start = wildcard) (label : List UInt8) :
    search tldDescriptions start (start + 1) label =
      expected tldDescriptions start (start + 1) label := by
  have hmiddle : (start + 1 - start) / 2 + start = start := by omega
  have hsearch : search tldDescriptions start (start + 1) label = some start := by
    have hfound : search tldDescriptions start (start + 1) label =
        some ((start + 1 - start) / 2 + start) :=
      bisect_of_zero (Nat.lt_succ_self start)
        (by rw [hmiddle]; exact cmp_eq_zero.mpr (.inl hwild))
    rwa [hmiddle] at hfound
  have hplace := h.placeOf_eq (le_refl start) (Nat.lt_succ_self start) hwild
  rw [hsearch, expected, hplace]
  by_cases heq : labelAt tldDescriptions start = label
  · rw [h.placeOf_eq (le_refl start) (Nat.lt_succ_self start) heq]
    rfl
  · rw [placeOf_eq_none]
    · rfl
    · intro p hp hp' heq'
      obtain rfl : p = start := by omega
      exact heq heq'

theorem Level.unlike (h : Level tldDescriptions start stop) (hmark : 0x21 ∈ label) (hp : start ≤ p)
    (hp' : p < stop) : labelAt tldDescriptions p ≠ label := by
  rintro rfl
  exact absurd (h.visible p hp hp' _ hmark).1 (by decide)

theorem Level.zero_notMem (h : Level tldDescriptions start stop) (hp : start ≤ p) (hp' : p < stop) :
    0 ∉ labelAt tldDescriptions p := by
  intro hmem
  exact absurd (h.visible p hp hp' 0 hmem).1 (by decide)

theorem Level.not_honours (h : Level tldDescriptions start stop) {w : ℕ} (hw : start ≤ w)
    (hw' : w < stop) (hwild : labelAt tldDescriptions w = wildcard) (hmore : stop ≠ start + 1) :
    ¬Honours tldDescriptions start stop := by
  intro hall
  have hlt : start < stop := by omega
  obtain ⟨m, hm⟩ : ∃ m, m = (stop - start) / 2 + start := ⟨_, rfl⟩
  have hmstart : start ≤ m := by omega
  have hmstop : m < stop := by omega
  have hmark : ∀ label : List UInt8, label ≠ [] → 0 ∉ label → 0x21 ∈ label →
      search tldDescriptions start stop label = some w := by
    intro label hne hzero hmem
    rw [hall label hne hzero, expected,
      placeOf_eq_none fun p hp hp' => h.unlike hmem hp hp', h.placeOf_eq hw hw' hwild]
    rfl
  rcases Nat.lt_trichotomy w m with hwm | rfl | hmw
  · -- A longer label than that of the first probe is looked for behind it.
    have hprobe : labelAt tldDescriptions m ≠ wildcard := fun heq =>
      absurd (h.injective hw hw' hmstart hmstop (hwild.trans heq.symm)) (by omega)
    have hfound := hmark (labelAt tldDescriptions m ++ [0x21]) (by simp)
      (by simpa using h.zero_notMem hmstart hmstop) (by simp)
    rw [search, bisect_of_neg hlt, ← hm] at hfound
    · have := (bisect_sound hfound).1
      omega
    · rw [← hm, cmp_of_ne hprobe, cmpFrom_append]
      decide
  · -- The wildcard is the first probe and hides a sibling.
    obtain ⟨q, hq, hq', hqw⟩ : ∃ q, start ≤ q ∧ q < stop ∧ q ≠ w := by
      by_cases heq : w = start
      · exact ⟨start + 1, by omega, by omega, by omega⟩
      · exact ⟨start, le_refl _, hlt, Ne.symm heq⟩
    have hfound := hall (labelAt tldDescriptions q) (h.ne_nil q hq hq') (h.zero_notMem hq hq')
    rw [expected, h.placeOf_eq hq hq' rfl, search, bisect_of_zero hlt, ← hm] at hfound
    · exact hqw (Option.some.inj hfound).symm
    · rw [← hm]
      exact cmp_eq_zero.mpr (.inl hwild)
  · -- A label below that of the first probe is looked for in front of it.
    have hprobe : labelAt tldDescriptions m ≠ wildcard := fun heq =>
      absurd (h.injective hw hw' hmstart hmstop (hwild.trans heq.symm)) (by omega)
    have hbelow : cmpFrom (labelAt tldDescriptions m) [0x21] = 1 := by
      have hvisible := h.visible m hmstart hmstop
      cases hlabel : labelAt tldDescriptions m with
      | nil => exact absurd hlabel (h.ne_nil m hmstart hmstop)
      | cons b rest =>
        obtain ⟨hlow, hhigh⟩ := hvisible b (by simp [hlabel])
        have hvalue : charValue 0x21 < charValue b := by
          rw [charValue, charValue, if_pos (by decide), if_pos hhigh]
          exact_mod_cast UInt8.lt_iff_toNat_lt.mp hlow
        rw [cmpFrom, if_neg hvalue.not_gt, if_pos hvalue]
    have hfound := hmark [0x21] (by simp) (by decide) (by simp)
    rw [search, bisect_of_pos hlt, ← hm] at hfound
    · have := (bisect_sound hfound).2.1
      omega
    · rw [← hm, cmp_of_ne hprobe, hbelow]
      decide

/-- `search()` finds what stands for each label exactly when the level has no wildcard
or nothing else. -/
theorem search_honours_iff (h : Level tldDescriptions start stop) :
    Honours tldDescriptions start stop ↔
      (∀ p, start ≤ p → p < stop → labelAt tldDescriptions p ≠ wildcard) ∨ stop = start + 1 := by
  constructor
  · intro hall
    by_contra hnot
    rw [not_or] at hnot
    obtain ⟨hwild, hmore⟩ := hnot
    simp only [not_forall, not_not] at hwild
    obtain ⟨w, hw, hw', hlabel⟩ := hwild
    exact h.not_honours hw hw' hlabel hmore hall
  · rintro (hplain | rfl) label - -
    · exact h.search_plain hplain label
    · by_cases hwild : labelAt tldDescriptions start = wildcard
      · exact h.search_single hwild label
      · refine h.search_plain (fun p hp hp' => ?_) label
        obtain rfl : p = start := by omega
        exact hwild

end Levels

section Generated

variable {m : TldInfoMap} {n : ℕ} {key : QString} {level start stop : ℕ} {w : Written}

theorem level_of_children (hplaced : PlacedOrder m n) (hkey : IsKey key level)
    (hlength : w.tldDescriptions.length = (order m n).length)
    (hnamed : ∀ (i : ℕ) key row, (order m n)[i]? = some key → w.tldDescriptions[i]? = some row →
      row.fTld = outputUtf8 (baseOf key))
    (hrange : ∀ p, start ≤ p → p < stop →
      ∃ child, (order m n)[p]? = some child ∧ parentOf child = key) :
    Level w.tldDescriptions start stop := by
  have hinside : ∀ p, start ≤ p → p < stop → p < w.tldDescriptions.length := by
    intro p hp hp'
    obtain ⟨child, hchild, -⟩ := hrange p hp hp'
    rw [hlength]
    exact (List.getElem?_eq_some_iff.mp hchild).1
  have hlabel : ∀ p, start ≤ p → p < stop → ∃ child, (order m n)[p]? = some child ∧
      parentOf child = key ∧ IsLabel (baseOf child) ∧
      labelAt w.tldDescriptions p = outputUtf8 (baseOf child) := by
    intro p hp hp'
    obtain ⟨child, hchild, hparent⟩ := hrange p hp hp'
    obtain ⟨info, -, hplace⟩ := hplaced child (List.mem_of_getElem? hchild)
    obtain ⟨ls, l, -, hl, hsplit, -⟩ := key_split hplace.isKey hplace.level
    have hrow := List.getElem?_eq_getElem (hinside p hp hp')
    refine ⟨child, hchild, hparent, ?_, ?_⟩
    · rwa [hsplit, baseOf_joined ls hl.mark_notMem]
    · rw [labelAt, hrow, Option.map_some, Option.getD_some, hnamed p child _ hchild hrow]
  refine ⟨hinside, fun p hp hp' => ?_, fun p hp hp' b hb => ?_, fun p q hp hpq hq => ?_⟩
  · obtain ⟨child, -, -, hl, heq⟩ := hlabel p hp hp'
    rw [heq, outputUtf8_label hl]
    exact mt List.map_eq_nil_iff.mp hl.ne_nil
  · obtain ⟨child, -, -, hl, heq⟩ := hlabel p hp hp'
    rw [heq, outputUtf8_label hl] at hb
    obtain ⟨c, hc, rfl⟩ := List.mem_map.mp hb
    have hlow : 0x21 < c.toNat := UInt16.lt_iff_toNat_lt.mp (hl.above c hc)
    have hhigh : c.toNat < 0x80 := UInt16.lt_iff_toNat_lt.mp (hl.ascii c hc)
    have hvalue : c.toUInt8.toNat = c.toNat := by
      rw [UInt16.toNat_toUInt8]
      exact Nat.mod_eq_of_lt (by omega)
    rw [UInt8.lt_iff_toNat_lt, UInt8.lt_iff_toNat_lt, hvalue]
    exact ⟨hlow, hhigh⟩
  · obtain ⟨a, ha, hparent, -, heq⟩ := hlabel p hp (by omega)
    obtain ⟨b, hb, hparent', -, heq'⟩ := hlabel q (by omega) hq
    rw [heq, heq']
    exact cmpFrom_children hplaced hkey ha hb hpq hparent hparent'

/-- All ranges of a table that the tool writes are levels. -/
theorem generated_levels (isLetterOrNumber : UInt16 → Bool) (doc : List Node)
    (read verified : TldInfoMap) (countries : CountryMap)
    (hread : readTlds doc = .ok (read, countries))
    (hverify : verifyData isLetterOrNumber read = .ok verified) (hparents : HasParents verified)
    (hsize : verified.size ≤ 65534) (hknown : Known verified) :
    ∃ w, outputTlds verified countries = .ok w ∧
      Level w.tldDescriptions w.tldStartOffset w.tldEndOffset ∧
      ∀ row ∈ w.tldDescriptions, Level w.tldDescriptions row.fStartOffset row.fEndOffset := by
  have hm : AllPlaced verified := verifyData_placed (readTlds_entered hread) hverify
  obtain ⟨out, top, start, stop, hout, hinv, -, htracks⟩ :=
    outputTlds_ok countries hm hparents hsize hknown
  have hsearch : Searchable verified (names verified)
      ⟨out.rows, start, stop, maxLevelOf (withTop verified)⟩ :=
    searchable_of_writing hm hsize hinv htracks
  have hplaced := placedOrder_names hm
  refine ⟨_, hout, ?_, fun row hrow => ?_⟩
  · refine level_of_children hplaced isKey_nil hsearch.length hsearch.named fun p hp hp' => ?_
    obtain ⟨child, info, hchild, hfind, hlevel⟩ := (hsearch.top p).mp ⟨hp, hp'⟩
    exact ⟨child, hchild,
      parentOf_of_prefix isKey_nil (hm child info hfind) hlevel List.nil_prefix⟩
  · obtain ⟨i, hi⟩ := List.mem_iff_getElem?.mp hrow
    have hlt : i < (names verified).length :=
      hsearch.length ▸ (List.getElem?_eq_some_iff.mp hi).1
    have hkey := List.getElem?_eq_getElem hlt
    obtain ⟨info, -, hplace⟩ := hplaced _ (List.mem_of_getElem? hkey)
    refine level_of_children hplaced hplace.isKey hsearch.length hsearch.named fun p hp hp' => ?_
    obtain ⟨child, hchild, hbelow⟩ := (hsearch.children i _ row hkey hi p).mp ⟨hp, hp'⟩
    obtain ⟨cinfo, -, hcplace⟩ := hplaced child (List.mem_of_getElem? hchild)
    exact ⟨child, hchild, (parentOf_iff hplace.isKey hcplace).mpr hbelow⟩

end Generated

def line (label : List UInt8) : TldDescription where
  fCategory := some .country
  fStatus := some .valid
  fStartOffset := ushrtMax
  fEndOffset := ushrtMax
  fExceptionApplyTo := ushrtMax
  fExceptionLevel := 2
  fTld := label
  fCountry := some 0

/-- `www` and all other names below one entry. -/
def wwwLevel : List TldDescription := [line wildcard, line [0x77, 0x77, 0x77]]

theorem level_wwwLevel : Level wwwLevel 0 2 := by
  refine ⟨fun p _ hp => hp, fun p _ hp => ?_, fun p _ hp => ?_, fun p q _ hpq hq => ?_⟩
  · interval_cases p <;> decide
  · interval_cases p <;> simp [labelAt, wwwLevel, line, wildcard]
  · obtain rfl : p = 0 := by omega
    obtain rfl : q = 1 := by omega
    decide

theorem search_honours_single : Honours [line wildcard] 0 1 := by
  have hlevel : Level [line wildcard] 0 1 := by
    refine ⟨fun p _ hp => hp, fun p _ hp => ?_, fun p _ hp => ?_, fun p q _ _ hq => by omega⟩
    · obtain rfl : p = 0 := by omega
      decide
    · obtain rfl : p = 0 := by omega
      simp [labelAt, line, wildcard]
  exact (search_honours_iff hlevel).mpr (.inr rfl)

/-- `xyz` is behind `www`, and the wildcard in front of it. -/
theorem wildcard_passed_over : ¬∀ (tldDescriptions : List TldDescription) (start stop : ℕ),
    Level tldDescriptions start stop → Honours tldDescriptions start stop := by
  intro hall
  have hfound := hall wwwLevel 0 2 level_wwwLevel [0x78, 0x79, 0x7A] (by decide) (by decide)
  have hmissed : search wwwLevel 0 2 [0x78, 0x79, 0x7A] = none := by
    rw [search, bisect_of_neg (by decide) (by decide)]
    exact bisect_of_le (by decide)
  rw [hmissed] at hfound
  exact absurd hfound (by decide)

end SnapCpp.TldLookup
