import SnapCpp.QuotedReading

/-!
When a quoted-printable text reads back. A character in hexadecimal is written ahead of
the space that is held back, and leaves a carriage return pending, so that a
later line feed is lost; a text in which neither happens is decoded as it was, with its
line ends made alike, and no other text is.
-/
namespace SnapCpp.QuotedPrintable

/-- A text with every CR LF, CR or LF replaced by one line break. -/
def unifyLineEnds (br : Bytes) : Bytes → Bytes
  | 0x0D :: 0x0A :: s => br ++ unifyLineEnds br s
  | 0x0D :: s => br ++ unifyLineEnds br s
  | 0x0A :: s => br ++ unifyLineEnds br s
  | c :: s => c :: unifyLineEnds br s
  | [] => []

def expected (flags : BitVec 32) (s : Bytes) : Bytes :=
  if hasFlag flags flagBinary then s else unifyLineEnds (lineBreak flags) s

def advance (flags : BitVec 32) (column : ℕ) (c : UInt8) : ℕ :=
  if isEol c then 0 else wrap column (if encodeChar flags c then 3 else 1)

def column (flags : BitVec 32) (p : Bytes) : ℕ := p.foldl (advance flags) 0

def lastBlank (p : Bytes) : Bytes := (p.getLast?.filter isBlank).toList

def withoutBlank (p : Bytes) : Bytes := if lastBlank p = [] then p else p.dropLast

/-- A character that is written in hexadecimal where it stands: after `p`, before `rest`. -/
def Escapes (flags : BitVec 32) (p : Bytes) (c : UInt8) (rest : Bytes) : Prop :=
  (hasFlag flags flagNoLonePeriod = true ∧ c = 0x2E ∧ atLineEnd rest = true ∧
    (column flags (withoutBlank p) = 0 ∨ 75 ≤ column flags (withoutBlank p))) ∨
      encodeChar flags c = true

/-- After the last carriage return of `p` there are only spaces, tabs and characters in
hexadecimal. -/
def Pending (flags : BitVec 32) (p rest : Bytes) : Prop :=
  ∃ q m, p = q ++ 0x0D :: m ∧ ∀ m₁ c m₂, m = m₁ ++ c :: m₂ →
    isBlank c = true ∨ Escapes flags (q ++ 0x0D :: m₁) c (m₂ ++ rest)

/-- What the encoder keeps: no character in hexadecimal comes right after a space or a tab,
and a line feed that a carriage return precedes with nothing plain in between comes
right after it. -/
structure Keeps (flags : BitVec 32) (s : Bytes) : Prop where
  space : ∀ p c rest, s = p ++ c :: rest → Escapes flags p c rest → lastBlank p = []
  lineFeed : ∀ p rest, s = p ++ 0x0A :: rest → Pending flags p (0x0A :: rest) →
    p.getLast? = some 0x0D

section LineEnds

def lineEndOf (br : Bytes) (afterCr : Bool) (c : UInt8) : Bytes :=
  if c = 0x0D then br else if c = 0x0A then (if afterCr then [] else br) else [c]

def lineEnds (br : Bytes) : Bool → Bytes → Bytes
  | _, [] => []
  | afterCr, c :: s => lineEndOf br afterCr c ++ lineEnds br (decide (c = 0x0D)) s

variable (br : Bytes)

theorem lineEnds_true {s : Bytes} (h : ∀ t, s ≠ 0x0A :: t) :
    lineEnds br true s = lineEnds br false s := by
  cases s with
  | nil => rfl
  | cons c s =>
    have hc : c ≠ 0x0A := fun hc => h s (by rw [hc])
    simp [lineEnds, lineEndOf, hc]

theorem unifyLineEnds_eq (s : Bytes) : unifyLineEnds br s = lineEnds br false s := by
  fun_induction unifyLineEnds br s with
  | case1 s ih => simp [lineEnds, lineEndOf, ih]
  | case2 s hs ih =>
    rw [ih, ← lineEnds_true br fun t ht => hs t ht]
    rfl
  | case3 s ih => simp [lineEnds, lineEndOf, ih]
  | case4 c s hcr hret hlf ih =>
    rw [ih, lineEnds, lineEndOf, if_neg (fun hc => hret hc), if_neg (fun hc => hlf hc),
      decide_eq_false (fun hc => hret hc)]
    rfl
  | case5 => rfl

theorem lineEndOf_of_plain {c : UInt8} (afterCr : Bool) (h : isEol c = false) :
    lineEndOf br afterCr c = [c] := by
  simp only [isEol, Bool.or_eq_false_iff, beq_eq_false_iff_ne] at h
  rw [lineEndOf, if_neg h.1, if_neg h.2]

theorem lineEndOf_of_eol {c : UInt8} {afterCr : Bool} (h : isEol c = true)
    (hlf : c = 0x0A → afterCr = false) : lineEndOf br afterCr c = br := by
  simp only [isEol, Bool.or_eq_true, beq_iff_eq] at h
  rcases h with rfl | rfl
  · rfl
  · rw [hlf rfl]
    rfl

theorem count_lineBreak (flags : BitVec 32) : (lineBreak flags).count 0x0A = 1 := by
  unfold lineBreak
  split_ifs <;> rfl

end LineEnds

section AnyText

open Encoder

variable {flags : BitVec 32} {r : Encoder} {v : Bytes} {c : UInt8} {r' : Encoder} {rest w : Bytes}

theorem written_of_binary (hbinary : hasFlag r.fFlags flagBinary = true) (s : Bytes)
    (h : Written r v) (hempty : r.fBuffer = 0) (h0 : 0 ∉ s) :
    Written (r.addChars s) (v ++ s) ∧ (r.addChars s).fBuffer = 0 := by
  induction s generalizing r v with
  | nil => exact ⟨by rwa [List.append_nil], hempty⟩
  | cons c rest ih =>
    simp only [List.mem_cons, not_or] at h0
    obtain ⟨w, hturn, hwritten⟩ := turn_addNext rest h (Ne.symm h0.1) (fun hne => absurd hempty hne)
    have hnone : r.held = [] := by simp [Encoder.held, hempty]
    have hsame : w = [c] ∧ (r.addNext c rest).fFlags = r.fFlags ∧
        (r.addNext c rest).fBuffer = 0 := by
      generalize r.addNext c rest = r' at hturn
      cases hturn with
      | escaped => exact ⟨rfl, rfl, hempty⟩
      | blank hplain hblank =>
        exact absurd (Or.inr ((encodeChar_blank hblank).trans hbinary)) hplain
      | dropped hplain hc =>
        exact absurd (Or.inr ((encodeChar_eol (by rw [hc]; rfl)).trans hbinary)) hplain
      | lineEnd hplain heol =>
        exact absurd (Or.inr ((encodeChar_eol heol).trans hbinary)) hplain
      | plain => exact ⟨by rw [hnone, List.nil_append], rfl, rfl⟩
    obtain ⟨rfl, hflags, hbuffer⟩ := hsame
    have hrest := ih (by rw [hflags]; exact hbinary) hwritten hbuffer h0.2
    rw [List.append_assoc, List.singleton_append] at hrest
    exact hrest

def HoldsBlank (r : Encoder) : Prop := r.fBuffer ≠ 0 → isBlank r.fBuffer = true

theorem Encoder.Turn.kept (hturn : Turn r c rest w r')
    (h : HoldsBlank r) : HoldsBlank r' ∧ r'.fFlags = r.fFlags := by
  cases hturn with
  | escaped => exact ⟨h, rfl⟩
  | blank hplain hblank => exact ⟨fun _ => hblank, rfl⟩
  | dropped => exact ⟨h, rfl⟩
  | lineEnd | plain => exact ⟨fun hne => absurd rfl hne, rfl⟩

theorem count_held (h : HoldsBlank r) : r.held.count 0x0A = 0 := by
  unfold Encoder.held
  by_cases hempty : r.fBuffer = 0
  · simp [hempty]
  · have hblank := h hempty
    have hne : r.fBuffer ≠ 0x0A := by
      intro heq
      rw [heq] at hblank
      cases hblank
    simp [hempty, hne]

theorem not_blank_of_escaped (hbinary : hasFlag r.fFlags flagBinary = false)
    (h : r.Escaped c rest) :
    isBlank c = false ∧ isEol c = false := by
  rcases h with hlone | hencode
  · rw [hlone.2.1]
    exact ⟨rfl, rfl⟩
  · constructor
    · apply eq_false_of_ne_true
      intro hblank
      rw [encodeChar_blank hblank, hbinary] at hencode
      cases hencode
    · apply eq_false_of_ne_true
      intro heol
      rw [encodeChar_eol heol, hbinary] at hencode
      cases hencode

/-- A turn gives a reader at most the line feeds its character stands for. -/
theorem Encoder.Turn.count_le {afterCr : Bool}
    (hturn : Turn r c rest w r') (hbinary : hasFlag r.fFlags flagBinary = false)
    (hheld : HoldsBlank r) (hcr : afterCr = true → r.fCr = true) :
    w.count 0x0A ≤ (lineEndOf (lineBreak r.fFlags) afterCr c).count 0x0A ∧
      (decide (c = 0x0D) = true → r'.fCr = true) := by
  have hnone := count_held hheld
  cases hturn with
  | escaped hescaped =>
    have heol := (not_blank_of_escaped hbinary hescaped).2
    rw [lineEndOf_of_plain _ _ heol]
    refine ⟨Nat.le_refl _, fun hc => ?_⟩
    rw [of_decide_eq_true hc] at heol
    cases heol
  | blank hplain hblank =>
    refine ⟨by omega, fun hc => ?_⟩
    rw [of_decide_eq_true hc] at hblank
    cases hblank
  | dropped hplain hc =>
    refine ⟨Nat.zero_le _, fun hret => ?_⟩
    rw [hc] at hret
    cases hret
  | lineEnd hplain heol hpending =>
    have hfirst : c = 0x0A → afterCr = false := by
      intro hc
      apply eq_false_of_ne_true
      intro hafter
      rw [hpending hc] at hcr
      cases hcr hafter
    rw [lineEndOf_of_eol _ heol hfirst, List.count_append, hnone]
    exact ⟨by omega, fun hret => hret⟩
  | plain hplain hblank heol =>
    rw [lineEndOf_of_plain _ _ heol, List.count_append, hnone]
    refine ⟨by omega, fun hc => ?_⟩
    rw [of_decide_eq_true hc] at heol
    cases heol

theorem Encoder.Turn.eq_of_escaped (hturn : Turn r c rest w r') (h : r.Escaped c rest) :
    w = [c] := by
  cases hturn with
  | escaped => rfl
  | blank hplain | dropped hplain | lineEnd hplain | plain hplain => exact absurd h hplain

theorem Encoder.Turn.eq_nil_of_pending (hturn : Turn r c rest w r')
    (hbinary : hasFlag r.fFlags flagBinary = false) (hc : c = 0x0A)
    (hcr : r.fCr = true) : w = [] := by
  subst hc
  cases hturn with
  | escaped hescaped => cases (not_blank_of_escaped hbinary hescaped).2
  | blank hplain hblank => cases hblank
  | dropped => rfl
  | lineEnd hplain heol hfirst =>
    rw [hfirst rfl] at hcr
    cases hcr
  | plain hplain hblank heol => cases heol

/-- Whatever an encoder has written stays, and from any state on it gives a reader at most
the line feeds that are to come. -/
theorem written_addChars (hbinary : hasFlag r.fFlags flagBinary = false) (s : Bytes)
    (afterCr : Bool) (h : Written r v) (hheld : HoldsBlank r) (h0 : 0 ∉ s)
    (hcr : afterCr = true → r.fCr = true) :
    ∃ w, Written (r.addChars s).finish (v ++ w) ∧
      w.count 0x0A ≤ (lineEnds (lineBreak r.fFlags) afterCr s).count 0x0A := by
  induction s generalizing r v afterCr with
  | nil =>
    obtain ⟨-, -, -, hwritten⟩ := finish_eq h
    exact ⟨r.held, hwritten, by rw [count_held hheld]; exact Nat.zero_le _⟩
  | cons c rest ih =>
    simp only [List.mem_cons, not_or] at h0
    obtain ⟨w, hturn, hwritten⟩ := turn_addNext rest h (Ne.symm h0.1) hheld
    obtain ⟨hheld', hflags⟩ := hturn.kept hheld
    obtain ⟨hcount, hcr'⟩ := hturn.count_le hbinary hheld hcr
    obtain ⟨w', hwritten', hcount'⟩ := ih (by rw [hflags]; exact hbinary) _ hwritten
      hheld' h0.2 hcr'
    refine ⟨w ++ w', ?_, ?_⟩
    · rw [← List.append_assoc]
      exact hwritten'
    · rw [hflags] at hcount'
      rw [lineEnds, List.count_append, List.count_append]
      omega

end AnyText

section Prefixes

variable {flags : BitVec 32} {p rest : Bytes} {c : UInt8}

theorem lastBlank_snoc (p : Bytes) (c : UInt8) :
    lastBlank (p ++ [c]) = if isBlank c then [c] else [] := by
  unfold lastBlank
  rw [List.getLast?_append_of_ne_nil _ (List.cons_ne_nil c []), List.getLast?_singleton,
    Option.filter]
  split_ifs <;> rfl

theorem lastBlank_of_ne_nil (h : lastBlank p ≠ []) :
    ∃ b, lastBlank p = [b] ∧ isBlank b = true := by
  unfold lastBlank at h ⊢
  cases hlast : p.getLast?.filter isBlank with
  | none =>
    rw [hlast] at h
    exact absurd rfl h
  | some b => exact ⟨b, rfl, (Option.filter_eq_some_iff.mp hlast).2⟩

theorem withoutBlank_snoc (p : Bytes) (c : UInt8) :
    withoutBlank (p ++ [c]) = if isBlank c then p else p ++ [c] := by
  unfold withoutBlank
  rw [lastBlank_snoc, List.dropLast_concat]
  split_ifs <;> simp_all

theorem column_snoc (flags : BitVec 32) (p : Bytes) (c : UInt8) :
    column flags (p ++ [c]) = advance flags (column flags p) c := by
  unfold column
  rw [List.foldl_append]
  rfl

theorem pending_snoc : Pending flags (p ++ [c]) rest ↔
    c = 0x0D ∨ (Pending flags p (c :: rest) ∧ (isBlank c = true ∨ Escapes flags p c rest)) := by
  constructor
  · rintro ⟨q, m, heq, hm⟩
    rcases List.eq_nil_or_concat m with rfl | ⟨m', d, rfl⟩
    · exact Or.inl (List.append_inj_right' heq rfl |> List.singleton_inj.mp)
    · rw [List.concat_eq_append, ← List.cons_append, ← List.append_assoc] at heq
      obtain ⟨rfl, hd⟩ := List.append_inj' heq rfl
      obtain rfl := List.singleton_inj.mp hd
      refine Or.inr ⟨⟨q, m', rfl, ?_⟩, ?_⟩
      · intro m₁ e m₂ he
        have := hm m₁ e (m₂ ++ [c]) (by rw [he, List.concat_eq_append]; simp)
        rwa [List.append_assoc, List.singleton_append] at this
      · exact hm m' c [] (by rw [List.concat_eq_append])
  · rintro (rfl | ⟨⟨q, m, rfl, hm⟩, hc⟩)
    · refine ⟨p, [], rfl, fun m₁ e m₂ he => ?_⟩
      cases m₁ <;> cases he
    · refine ⟨q, m ++ [c], by simp, ?_⟩
      intro m₁ e m₂ he
      rcases List.eq_nil_or_concat m₂ with rfl | ⟨m', d, rfl⟩
      · obtain ⟨rfl, hd⟩ := List.append_inj' he rfl
        obtain rfl := List.singleton_inj.mp hd
        exact hc
      · rw [List.concat_eq_append, ← List.cons_append, ← List.append_assoc] at he
        obtain ⟨rfl, hd⟩ := List.append_inj' he rfl
        obtain rfl := List.singleton_inj.mp hd
        have := hm m₁ e m' rfl
        rwa [List.concat_eq_append, List.append_assoc, List.singleton_append]

end Prefixes

/-- What an encoder has in mind after `p`, when it has kept everything so far. -/
structure Follows (flags : BitVec 32) (p rest : Bytes) (r : Encoder) : Prop where
  sameFlags : r.fFlags = flags
  held : r.held = lastBlank p
  blank : HoldsBlank r
  cr : r.fCr = true ↔ Pending flags p rest
  line : (p.getLast? = some 0x2E → atLineEnd rest = false) →
    r.fLine = column flags (withoutBlank p)

section Following

open Encoder

variable {flags : BitVec 32} {p rest w : Bytes} {c : UInt8} {r r' : Encoder}

theorem atLineEnd_cons (c : UInt8) (rest : Bytes) : atLineEnd (c :: rest) = isEol c := rfl

theorem Follows.line_of_plain (h : Follows flags p (c :: rest) r) (hc : isEol c = false) :
    r.fLine = column flags (withoutBlank p) :=
  h.line fun _ => (atLineEnd_cons c rest).trans hc

theorem Follows.escaped_iff (h : Follows flags p (c :: rest) r) :
    r.Escaped c rest ↔ Escapes flags p c rest := by
  unfold Encoder.Escaped Escapes
  rw [h.sameFlags]
  by_cases hc : c = 0x2E
  · rw [h.line_of_plain (by rw [hc]; rfl)]
  · simp [hc]

theorem Follows.heldLine (h : Follows flags p (c :: rest) r) (hc : isEol c = false)
    (hbinary : hasFlag flags flagBinary = false) : r.heldLine = column flags p := by
  have hline := h.line_of_plain hc
  have hheld := h.held
  unfold Encoder.heldLine
  unfold Encoder.held at hheld
  by_cases hempty : r.fBuffer = 0
  · rw [if_pos hempty] at hheld ⊢
    rw [hline, withoutBlank, if_pos hheld.symm]
  · have hblank := h.blank hempty
    rw [if_neg hempty] at hheld ⊢
    rcases List.eq_nil_or_concat p with rfl | ⟨q, b, rfl⟩
    · cases hheld
    · rw [List.concat_eq_append] at hheld hline ⊢
      rw [lastBlank_snoc] at hheld
      split_ifs at hheld with hb
      have hencode : encodeChar flags b = false := (encodeChar_blank hb).trans hbinary
      have heol : isEol b = false := by
        simp only [isBlank, Bool.or_eq_true, beq_iff_eq] at hb
        rcases hb with rfl | rfl <;> rfl
      rw [hline, withoutBlank_snoc, if_pos hb, column_snoc, advance, heol, hencode]
      rfl

theorem pending_of_plain {p rest : Bytes} {c : UInt8} (hret : c ≠ 0x0D) (hblank : isBlank c = false)
    (hescapes : ¬Escapes flags p c rest) : ¬Pending flags (p ++ [c]) rest := by
  rw [pending_snoc]
  rintro (hc | ⟨-, hc | hc⟩)
  · exact hret hc
  · rw [hblank] at hc
    cases hc
  · exact hescapes hc

theorem getLast?_snoc (p : Bytes) (c : UInt8) : (p ++ [c]).getLast? = some c := by simp

/-- A turn that keeps everything brings the encoder to the next place of the text, and
a reader to what was expected there. -/
theorem Follows.turn (h : Follows flags p (c :: rest) r) (hturn : Turn r c rest w r')
    (hbinary : hasFlag flags flagBinary = false)
    (hspace : Escapes flags p c rest → lastBlank p = [])
    (hlf : c = 0x0A → Pending flags p (c :: rest) → p.getLast? = some 0x0D) :
    Follows flags (p ++ [c]) rest r' ∧ w ++ lastBlank (p ++ [c]) =
      lastBlank p ++ lineEndOf (lineBreak flags) (decide (p.getLast? = some 0x0D)) c := by
  have hkept := hturn.kept h.blank
  have hpending : Pending flags (p ++ [c]) rest ↔
    c = 0x0D ∨ (Pending flags p (c :: rest) ∧ (isBlank c = true ∨ Escapes flags p c rest)) :=
      pending_snoc
  cases hturn with
  | escaped hescaped out =>
    obtain ⟨hblank, heol⟩ := not_blank_of_escaped (h.sameFlags ▸ hbinary) hescaped
    have hescapes := h.escaped_iff.mp hescaped
    have hnone := hspace hescapes
    have hret : c ≠ 0x0D := by
      rintro rfl
      cases heol
    refine ⟨⟨hkept.2.trans h.sameFlags, ?_, hkept.1, ?_, ?_⟩, ?_⟩
    · rw [lastBlank_snoc, hblank]
      exact h.held.trans hnone
    · rw [hpending, ← h.cr]
      simp [hret, hescapes]
    · intro hlone
      show wrap r.fLine 3 = _
      rw [getLast?_snoc] at hlone
      rw [withoutBlank_snoc, hblank, if_neg Bool.false_ne_true, column_snoc, advance, heol,
        h.line_of_plain heol, withoutBlank, if_pos hnone]
      have hencode : encodeChar flags c = true := by
        rcases hescapes with ⟨-, hc, hend, -⟩ | hencode
        · rw [hlone (by rw [hc])] at hend
          cases hend
        · exact hencode
      rw [hencode]
      rfl
    · rw [lastBlank_snoc, hblank, lineEndOf_of_plain _ _ heol, hnone]
      rfl
  | blank hplain hblank out =>
    have heol : isEol c = false := by
      simp only [isBlank, Bool.or_eq_true, beq_iff_eq] at hblank
      rcases hblank with rfl | rfl <;> rfl
    have hne : c ≠ 0 ∧ c ≠ 0x0D := by
      simp only [isBlank, Bool.or_eq_true, beq_iff_eq] at hblank
      rcases hblank with rfl | rfl <;> decide
    refine ⟨⟨hkept.2.trans h.sameFlags, ?_, hkept.1, ?_, ?_⟩, ?_⟩
    · rw [lastBlank_snoc, hblank]
      simp [Encoder.held, hne.1]
    · rw [hpending, ← h.cr]
      simp [hne.2, hblank]
    · intro hlone
      show r.heldLine = _
      rw [withoutBlank_snoc, hblank, if_pos rfl]
      exact h.heldLine heol hbinary
    · rw [lastBlank_snoc, hblank, lineEndOf_of_plain _ _ heol, h.held]
      rfl
  | dropped hplain hc hcr =>
    subst hc
    have hlast := hlf rfl (h.cr.mp hcr)
    have hnone : lastBlank p = [] := by
      rw [lastBlank, hlast]
      rfl
    have hescapes : ¬Escapes flags p 0x0A rest := fun he => hplain (h.escaped_iff.mpr he)
    refine ⟨⟨hkept.2.trans h.sameFlags, ?_, hkept.1, ?_, ?_⟩, ?_⟩
    · rw [lastBlank_snoc]
      exact h.held.trans hnone
    · exact iff_of_false Bool.false_ne_true (pending_of_plain (by decide) rfl hescapes)
    · intro _
      have hline := h.line (by rw [hlast]; intro heq; cases heq)
      show r.fLine = _
      have hp : column flags p = 0 := by
        obtain ⟨q, rfl⟩ := List.getLast?_eq_some_iff.mp hlast
        rw [column_snoc]
        rfl
      rw [hline, withoutBlank, if_pos hnone, hp, withoutBlank_snoc, if_neg (by decide), column_snoc]
      rfl
    · rw [lastBlank_snoc, hnone, hlast]
      rfl
  | lineEnd hplain heol hfirst out =>
    have hescapes : ¬Escapes flags p c rest := fun he => hplain (h.escaped_iff.mpr he)
    have hblank : isBlank c = false := by
      simp only [isEol, Bool.or_eq_true, beq_iff_eq] at heol
      rcases heol with rfl | rfl <;> rfl
    have hafter : c = 0x0A → decide (p.getLast? = some 0x0D) = false := by
      intro hc
      apply decide_eq_false
      intro hlast
      obtain ⟨q, rfl⟩ := List.getLast?_eq_some_iff.mp hlast
      have hcr := h.cr.mpr (pending_snoc.mpr (Or.inl rfl))
      rw [hfirst hc] at hcr
      cases hcr
    refine ⟨⟨hkept.2.trans h.sameFlags, ?_, hkept.1, ?_, ?_⟩, ?_⟩
    · rw [lastBlank_snoc, hblank]
      rfl
    · rw [hpending]
      simp [hblank, hescapes]
    · intro _
      rw [withoutBlank_snoc, hblank, if_neg Bool.false_ne_true, column_snoc, advance, heol]
      rfl
    · rw [lastBlank_snoc, hblank, lineEndOf_of_eol _ heol hafter, h.held, h.sameFlags]
      simp
  | plain hplain hblank heol out =>
    have hescapes : ¬Escapes flags p c rest := fun he => hplain (h.escaped_iff.mpr he)
    have hret : c ≠ 0x0D := by
      rintro rfl
      cases heol
    refine ⟨⟨hkept.2.trans h.sameFlags, ?_, hkept.1, ?_, ?_⟩, ?_⟩
    · rw [lastBlank_snoc, hblank]
      rfl
    · exact iff_of_false Bool.false_ne_true (pending_of_plain hret hblank hescapes)
    · intro _
      have hencode : encodeChar flags c = false :=
        eq_false_of_ne_true fun he => hescapes (Or.inr he)
      show wrap r.heldLine 1 = _
      rw [withoutBlank_snoc, hblank, if_neg Bool.false_ne_true, column_snoc, advance, heol, hencode,
        h.heldLine heol hbinary]
      rfl
    · rw [lastBlank_snoc, hblank, lineEndOf_of_plain _ _ heol, h.held]
      simp

end Following

/-- `Keeps` for what follows `p` in a text. -/
def KeepsFrom (flags : BitVec 32) (p s : Bytes) : Prop :=
  ∀ m c rest, s = m ++ c :: rest →
    (Escapes flags (p ++ m) c rest → lastBlank (p ++ m) = []) ∧
    (c = 0x0A → Pending flags (p ++ m) (c :: rest) → (p ++ m).getLast? = some 0x0D)

section RoundTrip

open Encoder

variable {flags : BitVec 32}

theorem keepsFrom_cons {p rest : Bytes} {c : UInt8} : KeepsFrom flags p (c :: rest) ↔
    ((Escapes flags p c rest → lastBlank p = []) ∧
      (c = 0x0A → Pending flags p (c :: rest) → p.getLast? = some 0x0D)) ∧
    KeepsFrom flags (p ++ [c]) rest := by
  constructor
  · intro h
    refine ⟨by simpa using h [] c rest rfl, ?_⟩
    intro m d tail heq
    have := h (c :: m) d tail (by rw [heq]; rfl)
    rwa [List.append_cons] at this
  · rintro ⟨hfirst, hrest⟩ m d tail heq
    cases m with
    | nil =>
      obtain ⟨rfl, rfl⟩ := List.cons.inj heq
      simpa using hfirst
    | cons e m =>
      obtain ⟨rfl, htail⟩ := List.cons.inj heq
      have := hrest m d tail htail
      rwa [List.append_cons]

theorem keeps_iff_keepsFrom {s : Bytes} : Keeps flags s ↔ KeepsFrom flags [] s := by
  constructor
  · intro h m c rest heq
    exact ⟨h.space m c rest heq, fun hc => by subst hc; exact h.lineFeed m rest heq⟩
  · intro h
    exact ⟨fun p c rest heq => (h p c rest heq).1, fun p rest heq => (h p 0x0A rest heq).2 rfl⟩

/-- From a place up to which everything was kept, a reader gets what is expected exactly
when the rest is kept too. -/
theorem addChars_kept_iff {p : Bytes} (s : Bytes) {r : Encoder} {v : Bytes}
    (h : Follows flags p s r) (hbinary : hasFlag flags flagBinary = false) (hwritten : Written r v)
    (h0 : 0 ∉ s) :
    ∃ w, Written (r.addChars s).finish (v ++ w) ∧
      (w = lastBlank p ++ lineEnds (lineBreak flags) (decide (p.getLast? = some 0x0D)) s ↔
        KeepsFrom flags p s) := by
  induction s generalizing p r v with
  | nil =>
    obtain ⟨-, -, -, hfinish⟩ := finish_eq hwritten
    refine ⟨r.held, hfinish, iff_of_true ?_ ?_⟩
    · rw [h.held, lineEnds, List.append_nil]
    · intro m c rest heq
      cases m <;> cases heq
  | cons c rest ih =>
    have hbin : hasFlag r.fFlags flagBinary = false := h.sameFlags ▸ hbinary
    simp only [List.mem_cons, not_or] at h0
    obtain ⟨w, hturn, hnext⟩ := turn_addNext rest hwritten (Ne.symm h0.1) h.blank
    by_cases hkeep : (Escapes flags p c rest → lastBlank p = []) ∧
        (c = 0x0A → Pending flags p (c :: rest) → p.getLast? = some 0x0D)
    · obtain ⟨hfollows, hsame⟩ := h.turn hturn hbinary hkeep.1 hkeep.2
      obtain ⟨w', hwritten', hiff⟩ := ih hfollows hnext h0.2
      have hlast : decide ((p ++ [c]).getLast? = some 0x0D) = decide (c = 0x0D) := by
        rw [getLast?_snoc]
        exact decide_eq_decide.mpr Option.some_inj
      rw [hlast] at hiff
      refine ⟨w ++ w', by rwa [← List.append_assoc], ?_⟩
      rw [keepsFrom_cons, ← hiff, lineEnds, ← List.append_assoc, ← hsame, List.append_assoc,
        List.append_cancel_left_eq]
      exact (and_iff_right hkeep).symm
    · obtain ⟨w', hwritten', hcount⟩ := written_addChars
        (by rw [(hturn.kept h.blank).2]; exact hbin) rest false hnext (hturn.kept h.blank).1 h0.2
        (fun hafter => by cases hafter)
      refine ⟨w ++ w', by rwa [← List.append_assoc], iff_of_false ?_ ?_⟩
      · intro heq
        rw [(hturn.kept h.blank).2, h.sameFlags] at hcount
        by_cases hspace : Escapes flags p c rest → lastBlank p = []
        · obtain ⟨rfl, hlf⟩ := Classical.not_imp.mp (not_and.mp hkeep hspace)
          obtain ⟨hpending, hlast⟩ := Classical.not_imp.mp hlf
          rw [hturn.eq_nil_of_pending hbin rfl (h.cr.mpr hpending), lineEnds, decide_eq_false hlast,
            lineEndOf_of_eol _ rfl fun _ => rfl] at heq
          have hlf := congrArg (List.count 0x0A) heq
          rw [List.nil_append, List.count_append, List.count_append, count_lineBreak] at hlf
          have hfalse : decide ((0x0A : UInt8) = 0x0D) = false := rfl
          rw [hfalse] at hlf
          omega
        · obtain ⟨hescapes, hheld⟩ := Classical.not_imp.mp hspace
          have hescaped := h.escaped_iff.mpr hescapes
          have hblank := (not_blank_of_escaped hbin hescaped).1
          rw [hturn.eq_of_escaped hescaped] at heq
          obtain ⟨b, hb, hbblank⟩ := lastBlank_of_ne_nil hheld
          rw [hb, List.singleton_append, List.singleton_append] at heq
          rw [(List.cons.inj heq).1, hbblank] at hblank
          cases hblank
      · exact fun hk => hkeep (keepsFrom_cons.mp hk).1

theorem cStr_of_noNul {s : Bytes} (h : 0 ∉ s) : cStr s = s := by
  rw [cStr, List.takeWhile_eq_self_iff]
  intro c hc
  simp only [bne_iff_ne, ne_eq]
  rintro rfl
  exact h hc

theorem decode_of_written {r : Encoder} {v : Bytes} (h : Written r v) : decode r.fResult = v := by
  have := h.reads []
  rwa [List.append_nil, process_nil, List.append_nil, ← cStr_of_noNul h.noNul] at this

/-- An encoded text is decoded as expected with FLAG_BINARY, and otherwise exactly when
the encoder keeps the order of its spaces and all of its line feeds. -/
theorem decode_encode_iff (flags : BitVec 32) {s : Bytes} (h0 : 0 ∉ s) :
    decode (encode s flags) = expected flags s ↔
      (hasFlag flags flagBinary = true ∨ Keeps flags s) := by
  have hstart : Written { fFlags := flags, fBuffer := 0, fResult := [], fLine := 0, fCr := false }
      [] := ⟨reads_nil, List.not_mem_nil⟩
  unfold encode addString expected
  rw [cStr_of_noNul h0]
  by_cases hbinary : hasFlag flags flagBinary = true
  · obtain ⟨hwritten, hempty⟩ := written_of_binary hbinary s hstart rfl h0
    obtain ⟨-, -, -, hfinish⟩ := finish_eq hwritten
    rw [if_pos hbinary, decode_of_written hfinish]
    refine iff_of_true ?_ (Or.inl hbinary)
    simp [Encoder.held, hempty]
  · have hfalse : hasFlag flags flagBinary = false := eq_false_of_ne_true hbinary
    have hfollows : Follows flags [] s
        { fFlags := flags, fBuffer := 0, fResult := [], fLine := 0, fCr := false } := by
      refine ⟨rfl, rfl, fun hne => absurd rfl hne, ?_, fun _ => rfl⟩
      refine iff_of_false Bool.false_ne_true ?_
      rintro ⟨q, m, heq, -⟩
      cases q <;> cases heq
    obtain ⟨w, hwritten, hiff⟩ := addChars_kept_iff s hfollows hfalse hstart h0
    rw [if_neg hbinary, decode_of_written hwritten, unifyLineEnds_eq, keeps_iff_keepsFrom, ← hiff]
    exact ⟨fun heq => Or.inr heq, fun heq => heq.resolve_left hbinary⟩

/-- A space in front of an equal sign comes out behind it. -/
theorem space_moved : ¬∀ (flags : BitVec 32) (s : Bytes), 0 ∉ s →
    decode (encode s flags) = expected flags s := by
  intro h
  have hmoved : decode (encode [0x20, 0x3D] 0) = [0x3D, 0x20] := by decide +kernel
  have hsame := h 0 [0x20, 0x3D] (by decide)
  rw [hmoved] at hsame
  revert hsame
  decide

theorem decode_encode_iff_line : decode (encode [0x61, 0x20, 0x2E, 0x0D] flagNoLonePeriod) =
      expected flagNoLonePeriod [0x61, 0x20, 0x2E, 0x0D] ↔
    (hasFlag flagNoLonePeriod flagBinary = true ∨
      Keeps flagNoLonePeriod [0x61, 0x20, 0x2E, 0x0D]) :=
  decode_encode_iff flagNoLonePeriod (by decide)

end RoundTrip

end SnapCpp.QuotedPrintable
