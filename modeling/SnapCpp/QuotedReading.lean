import SnapCpp.QuotedPrintable

/-!
What the decoder makes of the pieces the encoder writes: a soft line break is nothing, a
byte in hexadecimal is that byte, and any other byte but `=` is itself. Each turn of the
encoder's loop is put in terms of these pieces.
-/
namespace SnapCpp.QuotedPrintable

/-- In front of any text, `w` is decoded as `v`. -/
def Reads (w v : Bytes) : Prop := ∀ t, process (w ++ t) = v ++ process t

theorem reads_nil : Reads [] [] := fun _ => rfl

theorem Reads.append {w v w' v' : Bytes} (h : Reads w v) (h' : Reads w' v') :
    Reads (w ++ w') (v ++ v') := by
  intro t
  rw [List.append_assoc, h, h', List.append_assoc]

variable {t : Bytes} {c : UInt8}

theorem process_congr {s : Bytes} (h : getByte s = getByte t) : process s = process t := by
  have hgetc : getc s = getc t := by
    unfold getc
    rw [h]
  rw [process_eq s, process_eq t, hgetc]

theorem process_cons {s : Bytes} (h : getc s = (c, t)) (hc : c ≠ 0) :
    process s = c :: process t := by
  rw [process_eq, h]
  simp [hc]

theorem process_nil : process [] = [] := by
  rw [process_eq]
  exact if_pos rfl

/-- A byte that starts no soft line break. -/
theorem getByte_cons (h : ∀ d u, c = 0x3D → t = d :: u → d ≠ 0x0D ∧ d ≠ 0x0A) :
    getByte (c :: t) = (c, t) := by
  unfold getByte
  split <;> simp_all

theorem getByte_of_ne (t : Bytes) (h : c ≠ 0x3D) : getByte (c :: t) = (c, t) :=
  getByte_cons fun _ _ heq => absurd heq h

theorem getByte_equal {d : UInt8} (t : Bytes) (hcr : d ≠ 0x0D) (hlf : d ≠ 0x0A) :
    getByte (0x3D :: d :: t) = (0x3D, d :: t) :=
  getByte_cons fun _ _ _ heq => (List.cons.inj heq).1 ▸ ⟨hcr, hlf⟩

theorem reads_softBreak : Reads [0x3D, 0x0D, 0x0A] [] := fun _ => process_congr rfl

theorem reads_softBreak_lf : Reads [0x3D, 0x0A] [] := fun _ => process_congr rfl

theorem reads_plain (hc : c ≠ 0x3D) (h0 : c ≠ 0) : Reads [c] [c] := by
  intro t
  apply process_cons _ h0
  show getc (c :: t) = (c, t)
  simp [getc, getByte_of_ne t hc, hc]

theorem toHex_spec (n : ℤ) : ∃ d : ℕ, (n % 16).toNat = d ∧ d < 16 ∧
    fromHex (Encoder.toHex n) = some d ∧ Encoder.toHex n ∉ ([0, 0x3D, 0x0D, 0x0A] : Bytes) := by
  have hall : ∀ d : ℕ, d < 16 → fromHex (Encoder.toHex (d : ℤ)) = some d ∧
      Encoder.toHex (d : ℤ) ∉ ([0, 0x3D, 0x0D, 0x0A] : Bytes) := by
    decide
  have hlt : (n % 16).toNat < 16 := by omega
  have hsame : Encoder.toHex n = Encoder.toHex ((n % 16).toNat : ℤ) := by
    unfold Encoder.toHex
    have hmod : (((n % 16).toNat : ℤ) % 16).toNat = (n % 16).toNat := by omega
    rw [hmod]
  exact ⟨_, rfl, hlt, hsame ▸ hall _ hlt⟩

/-- The two digits of a `char` make up that `char`, negative or not. -/
theorem digits_charToInt (c : UInt8) :
    (charToInt c / 16 % 16).toNat * 16 + (charToInt c % 16).toNat = c.toNat := by
  have hlt : c.toNat < 256 := c.toNat_lt
  unfold charToInt
  split_ifs with h <;> omega

theorem reads_hex (h0 : c ≠ 0) :
    Reads [0x3D, Encoder.toHex (charToInt c / 16), Encoder.toHex (charToInt c)] [c] := by
  obtain ⟨p, hp, -, hhigh, hp'⟩ := toHex_spec (charToInt c / 16)
  obtain ⟨q, hq, -, hlow, hq'⟩ := toHex_spec (charToInt c)
  simp only [List.mem_cons, List.not_mem_nil, not_or] at hp' hq'
  intro t
  apply process_cons _ h0
  show getc (0x3D :: _ :: _ :: t) = (c, t)
  have hvalue : UInt8.ofNat (p * 16 + q) = c := by
    rw [← hp, ← hq, digits_charToInt, UInt8.ofNat_toNat]
  simp only [getc, getByte_equal _ hp'.2.2.1 hp'.2.2.2.1, if_true, getByte_of_ne _ hp'.2.1, hhigh,
    getByte_of_ne _ hq'.2.1, hlow, hvalue]

def lineBreak (flags : BitVec 32) : Bytes :=
  if hasFlag flags flagLfOnly then [0x0A] else [0x0D, 0x0A]

/-- What was written so far is decoded as `v`, and is a C string. -/
structure Written (r : Encoder) (v : Bytes) : Prop where
  reads : Reads r.fResult v
  noNul : 0 ∉ r.fResult

/-- The column after `width` more bytes that stay together on a line. -/
def wrap (column width : ℕ) : ℕ := if 75 < column + width then width else column + width

namespace Encoder

def put (r : Encoder) (bytes : Bytes) : Encoder :=
  { r with
    fResult := r.fResult ++
      ((if 75 < r.fLine + bytes.length then softBreak r.fFlags else []) ++ bytes)
    fLine := wrap r.fLine bytes.length }

theorem addByte_eq_put (r : Encoder) {c : UInt8} (hlf : c ≠ 0x0A) (hcr : c ≠ 0x0D) :
    r.addByte c = r.put [c] := by
  unfold addByte put wrap
  rw [if_neg (by simp [hlf, hcr])]
  by_cases hline : 75 ≤ r.fLine
  · have hlong : 75 < r.fLine + 1 := by omega
    simp [hline, hlong, addSoftBreak]
  · have hshort : ¬75 < r.fLine + 1 := by omega
    simp [hline, hshort]

theorem put_put (r : Encoder) (w w' : Bytes) (h : r.fLine + w.length + w'.length ≤ 75) :
    (r.put w).put w' = r.put (w ++ w') := by
  have hw : ¬75 < r.fLine + w.length := by omega
  have hboth : ¬75 < r.fLine + (w.length + w'.length) := by omega
  simp [put, wrap, hw, hboth, Nat.add_assoc]

theorem put_addSoftBreak (r : Encoder) (w : Bytes) (hline : 75 < r.fLine + w.length)
    (hw : w.length ≤ 75) : r.addSoftBreak.put w = r.put w := by
  have hshort : ¬75 < w.length := by omega
  simp [put, wrap, hline, hshort, addSoftBreak]

theorem addHex_eq_put (r : Encoder) (n : ℤ) :
    r.addHex n = r.put [0x3D, toHex (n / 16), toHex n] := by
  obtain ⟨-, -, -, -, hhigh⟩ := toHex_spec (n / 16)
  obtain ⟨-, -, -, -, hlow⟩ := toHex_spec n
  simp only [List.mem_cons, List.not_mem_nil, not_or] at hhigh hlow
  have hdigits : ∀ r : Encoder, r.fLine ≤ 72 →
      ((r.addByte 0x3D).addByte (toHex (n / 16))).addByte (toHex n) =
        r.put [0x3D, toHex (n / 16), toHex n] := by
    intro r hr
    rw [addByte_eq_put r (by decide) (by decide), addByte_eq_put _ hhigh.2.2.2.1 hhigh.2.2.1,
      addByte_eq_put _ hlow.2.2.2.1 hlow.2.2.1,
      put_put r _ _ (by simp only [List.length_singleton]; omega)]
    exact put_put r _ _ (by simp only [List.length_append, List.length_singleton]; omega)
  unfold addHex
  by_cases hline : 73 ≤ r.fLine
  · simp only [hline, if_true]
    rw [hdigits _ (Nat.zero_le _)]
    exact put_addSoftBreak r _ (by simp only [List.length_cons, List.length_nil]; omega) (by simp)
  · simp only [hline, if_false]
    exact hdigits r (by omega)

section Written

variable {r : Encoder} {v : Bytes} {c : UInt8}

theorem written_put {bytes v' : Bytes} (h : Written r v) (hreads : Reads bytes v')
    (hnul : 0 ∉ bytes) : Written (r.put bytes) (v ++ v') := by
  have hsoft : Reads (if 75 < r.fLine + bytes.length then softBreak r.fFlags else []) [] := by
    unfold softBreak
    split_ifs
    · exact reads_softBreak_lf
    · exact reads_softBreak
    · exact reads_nil
  have hsoftNul : (0 : UInt8) ∉
      (if 75 < r.fLine + bytes.length then softBreak r.fFlags else []) := by
    unfold softBreak
    split_ifs <;> simp
  constructor
  · exact h.reads.append (hsoft.append hreads)
  · show (0 : UInt8) ∉ r.fResult ++ (_ ++ bytes)
    rw [List.mem_append, List.mem_append]
    exact not_or.mpr ⟨h.noNul, not_or.mpr ⟨hsoftNul, hnul⟩⟩

theorem written_addByte (h : Written r v) (hlf : c ≠ 0x0A) (hcr : c ≠ 0x0D) (hequal : c ≠ 0x3D)
    (h0 : c ≠ 0) : Written (r.addByte c) (v ++ [c]) := by
  rw [addByte_eq_put r hlf hcr]
  exact written_put h (reads_plain hequal h0) (by simp [h0.symm])

theorem written_addHex (h : Written r v) (h0 : c ≠ 0) :
    Written (r.addHex (charToInt c)) (v ++ [c]) := by
  obtain ⟨-, -, -, -, hhigh⟩ := toHex_spec (charToInt c / 16)
  obtain ⟨-, -, -, -, hlow⟩ := toHex_spec (charToInt c)
  simp only [List.mem_cons, List.not_mem_nil, not_or] at hhigh hlow
  rw [addHex_eq_put]
  apply written_put h (reads_hex h0)
  simp [Ne.symm hhigh.1, Ne.symm hlow.1]

theorem addLineBreak_eq (r : Encoder) :
    (r.addByte 0x0D).addByte 0x0A =
      { r with fResult := r.fResult ++ lineBreak r.fFlags, fLine := 0 } := by
  unfold addByte lineBreak
  by_cases hlf : hasFlag r.fFlags flagLfOnly = true
  · simp [hlf]
  · simp [hlf]

theorem written_addLineBreak (h : Written r v) :
    Written ((r.addByte 0x0D).addByte 0x0A) (v ++ lineBreak r.fFlags) := by
  have hcr : Reads [0x0D] [0x0D] := reads_plain (by decide) (by decide)
  have hlf : Reads [0x0A] [0x0A] := reads_plain (by decide) (by decide)
  rw [addLineBreak_eq]
  unfold lineBreak
  split_ifs
  · exact ⟨h.reads.append hlf, by simp [h.noNul]⟩
  · exact ⟨h.reads.append (hcr.append hlf), by simp [h.noNul]⟩

end Written

end Encoder

def isBlank (c : UInt8) : Bool := c == 0x20 || c == 0x09

def isEol (c : UInt8) : Bool := c == 0x0D || c == 0x0A

namespace Encoder

def held (r : Encoder) : Bytes := if r.fBuffer = 0 then [] else [r.fBuffer]

def heldLine (r : Encoder) : ℕ := if r.fBuffer = 0 then r.fLine else wrap r.fLine 1

/-- What `add_string()` writes in hexadecimal: the characters `encode_char()` says, and a
period that is alone on its line. -/
def Escaped (r : Encoder) (c : UInt8) (rest : Bytes) : Prop :=
  (hasFlag r.fFlags flagNoLonePeriod = true ∧ c = 0x2E ∧ atLineEnd rest = true ∧
    (r.fLine = 0 ∨ 75 ≤ r.fLine)) ∨ encodeChar r.fFlags c = true

inductive Turn (r : Encoder) (c : UInt8) (rest : Bytes) : Bytes → Encoder → Prop
  | escaped (hescaped : r.Escaped c rest) (out : Bytes) :
      Turn r c rest [c] { r with fResult := out, fLine := wrap r.fLine 3 }
  | blank (hplain : ¬r.Escaped c rest) (hblank : isBlank c = true) (out : Bytes) :
      Turn r c rest r.held { r with fResult := out, fLine := r.heldLine, fBuffer := c }
  | dropped (hplain : ¬r.Escaped c rest) (hc : c = 0x0A) (hcr : r.fCr = true) :
      Turn r c rest [] { r with fCr := false }
  | lineEnd (hplain : ¬r.Escaped c rest) (heol : isEol c = true) (hcr : c = 0x0A → r.fCr = false)
      (out : Bytes) :
      Turn r c rest (r.held ++ lineBreak r.fFlags)
        { r with fResult := out, fLine := 0, fBuffer := 0, fCr := decide (c = 0x0D) }
  | plain (hplain : ¬r.Escaped c rest) (hblank : isBlank c = false) (heol : isEol c = false)
      (out : Bytes) :
      Turn r c rest (r.held ++ [c])
        { r with fResult := out, fLine := wrap r.heldLine 1, fBuffer := 0, fCr := false }

section Turns

variable {r : Encoder} {v : Bytes} {c : UInt8}

theorem encodeChar_blank {flags : BitVec 32} (h : isBlank c = true) :
    encodeChar flags c = hasFlag flags flagBinary := by
  have hmem : c ∈ ([0x0A, 0x0D, 0x09, 0x20] : Bytes) := by
    simp only [isBlank, Bool.or_eq_true, beq_iff_eq] at h
    rcases h with rfl | rfl <;> simp
  rw [encodeChar, if_pos hmem]

theorem encodeChar_eol {flags : BitVec 32} (h : isEol c = true) :
    encodeChar flags c = hasFlag flags flagBinary := by
  have hmem : c ∈ ([0x0A, 0x0D, 0x09, 0x20] : Bytes) := by
    simp only [isEol, Bool.or_eq_true, beq_iff_eq] at h
    rcases h with rfl | rfl <;> simp
  rw [encodeChar, if_pos hmem]

theorem encodeChar_equal (flags : BitVec 32) : encodeChar flags 0x3D = true := by
  rw [encodeChar, if_neg (by decide), if_pos rfl]

/-- What is held back, written as it is. -/
theorem flush_eq (hheld : r.fBuffer ≠ 0 → isBlank r.fBuffer = true) (h : Written r v) :
    ∃ out, (if r.fBuffer ≠ 0 then { r.addByte r.fBuffer with fBuffer := 0 } else r) =
        { r with fResult := out, fLine := r.heldLine, fBuffer := 0 } ∧
      Written { r with fResult := out, fLine := r.heldLine, fBuffer := 0 } (v ++ r.held) := by
  unfold heldLine held
  by_cases hempty : r.fBuffer = 0
  · refine ⟨r.fResult, ?_, ?_⟩
    · simp only [hempty, ne_eq, not_true_eq_false, if_false, if_true]
      rw [← hempty]
    · simp only [hempty, if_true, List.append_nil]
      exact ⟨h.reads, h.noNul⟩
  · have hblank := hheld hempty
    have hplain : r.fBuffer ≠ 0x0A ∧ r.fBuffer ≠ 0x0D ∧ r.fBuffer ≠ 0x3D := by
      simp only [isBlank, Bool.or_eq_true, beq_iff_eq] at hblank
      rcases hblank with h | h <;> rw [h] <;> decide
    have hput := addByte_eq_put r hplain.1 hplain.2.1
    have hwritten := written_addByte h hplain.1 hplain.2.1 hplain.2.2 hempty
    rw [hput] at hwritten
    refine ⟨(r.put [r.fBuffer]).fResult, ?_, ?_⟩
    · simp only [hempty, ne_eq, not_false_eq_true, if_true, if_false, hput]
      rfl
    · simp only [hempty, if_false]
      exact ⟨hwritten.reads, hwritten.noNul⟩

/-- What is held back, written in hexadecimal. -/
theorem finish_eq (h : Written r v) : ∃ out line,
    r.finish = { r with fResult := out, fLine := line, fBuffer := 0 } ∧
      Written r.finish (v ++ r.held) := by
  unfold finish held
  by_cases hempty : r.fBuffer = 0
  · refine ⟨r.fResult, r.fLine, ?_, ?_⟩
    · simp only [hempty, ne_eq, not_true_eq_false, if_false]
      rw [← hempty]
    · simpa only [hempty, ne_eq, not_true_eq_false, if_false, if_true, List.append_nil] using h
  · have hwritten := written_addHex h hempty
    refine ⟨(r.addHex (charToInt r.fBuffer)).fResult, wrap r.fLine 3, ?_, ?_⟩
    · simp only [hempty, ne_eq, not_false_eq_true, if_true]
      rw [addHex_eq_put]
      rfl
    · simp only [hempty, ne_eq, not_false_eq_true, if_true, if_false]
      exact ⟨hwritten.reads, hwritten.noNul⟩

theorem turn_escaped {rest : Bytes} (h : Written r v) (h0 : c ≠ 0) (hescaped : r.Escaped c rest) :
    Turn r c rest [c] (r.addHex (charToInt c)) ∧ Written (r.addHex (charToInt c)) (v ++ [c]) := by
  refine ⟨?_, written_addHex h h0⟩
  rw [addHex_eq_put]
  exact Turn.escaped hescaped _

/-- `add_data()` for a character that is not written in hexadecimal. -/
theorem turn_addData {rest : Bytes} (h : Written r v) (h0 : c ≠ 0) (hplain : ¬r.Escaped c rest)
    (hheld : r.fBuffer ≠ 0 → isBlank r.fBuffer = true) :
    ∃ w, Turn r c rest w (r.addData c) ∧ Written (r.addData c) (v ++ w) := by
  unfold addData
  by_cases hblank : c = 0x20 ∨ c = 0x09
  · obtain ⟨out, hflush, hwritten⟩ := flush_eq hheld h
    have hsame :
        ({ (if r.fBuffer ≠ 0 then r.addByte r.fBuffer else r) with fBuffer := c } : Encoder) =
        { r with fResult := out, fLine := r.heldLine, fBuffer := c } := by
      have hsplit :
        ({ (if r.fBuffer ≠ 0 then r.addByte r.fBuffer else r) with fBuffer := c } : Encoder) =
          { (if r.fBuffer ≠ 0 then { r.addByte r.fBuffer with fBuffer := 0 } else r) with
            fBuffer := c } := by
        split_ifs <;> rfl
      rw [hsplit, hflush]
    rw [if_pos hblank, hsame]
    refine ⟨r.held, Turn.blank hplain ?_ out, ⟨hwritten.reads, hwritten.noNul⟩⟩
    rcases hblank with rfl | rfl <;> rfl
  rw [if_neg hblank]
  by_cases hdropped : c = 0x0A ∧ r.fCr = true
  · rw [if_pos hdropped]
    refine ⟨[], Turn.dropped hplain hdropped.1 hdropped.2, ?_⟩
    rw [List.append_nil]
    exact ⟨h.reads, h.noNul⟩
  rw [if_neg hdropped]
  have hcr : Written { r with fCr := decide (c = 0x0D) } v := ⟨h.reads, h.noNul⟩
  by_cases heol : c = 0x0A ∨ c = 0x0D
  · obtain ⟨out, line, hfinish, hwritten⟩ := finish_eq hcr
    rw [if_pos heol]
    show ∃ w, Turn r c rest w
        (((finish { r with fCr := decide (c = 0x0D) }).addByte 0x0D).addByte 0x0A) ∧
      Written (((finish { r with fCr := decide (c = 0x0D) }).addByte 0x0D).addByte 0x0A) (v ++ w)
    have hbreak := written_addLineBreak hwritten
    rw [hfinish] at hbreak ⊢
    rw [List.append_assoc] at hbreak
    refine ⟨r.held ++ lineBreak r.fFlags, ?_, hbreak⟩
    rw [addLineBreak_eq]
    apply Turn.lineEnd hplain
    · rcases heol with rfl | rfl <;> rfl
    · intro hc
      exact eq_false_of_ne_true fun hpending => hdropped ⟨hc, hpending⟩
  · obtain ⟨out, hflush, hwritten⟩ := flush_eq (r := { r with fCr := decide (c = 0x0D) }) hheld hcr
    have hequal : c ≠ 0x3D := by
      rintro rfl
      exact hplain (Or.inr (encodeChar_equal _))
    have hlf : c ≠ 0x0A := fun hc => heol (Or.inl hc)
    have hret : c ≠ 0x0D := fun hc => heol (Or.inr hc)
    have hbyte := written_addByte hwritten hlf hret hequal h0
    rw [if_neg heol]
    refine ⟨r.held ++ [c], ?_, ?_⟩
    · rw [hflush, addByte_eq_put _ hlf hret, decide_eq_false hret]
      apply Turn.plain hplain
      · simp only [isBlank, Bool.or_eq_false_iff, beq_eq_false_iff_ne]
        exact not_or.mp hblank
      · simp only [isEol, Bool.or_eq_false_iff, beq_eq_false_iff_ne]
        exact ⟨hret, hlf⟩
    · rw [hflush, ← List.append_assoc]
      exact hbyte

theorem turn_addNext (rest : Bytes) (h : Written r v) (h0 : c ≠ 0)
    (hheld : r.fBuffer ≠ 0 → isBlank r.fBuffer = true) :
    ∃ w, Turn r c rest w (r.addNext c rest) ∧ Written (r.addNext c rest) (v ++ w) := by
  unfold addNext
  split_ifs with hlone
  · have hc : c = 0x2E := hlone.2.1
    subst hc
    exact ⟨_, turn_escaped h h0 (Or.inl hlone)⟩
  · unfold addChar
    split_ifs with hencode
    · exact ⟨_, turn_escaped h h0 (Or.inr hencode)⟩
    · exact turn_addData h h0 (not_or.mpr ⟨hlone, hencode⟩) hheld

end Turns

end Encoder

end SnapCpp.QuotedPrintable
