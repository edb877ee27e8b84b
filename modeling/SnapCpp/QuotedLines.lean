import SnapCpp.QuotedRoundTrip

/-!
The lines of a quoted-printable text. What the encoder wrote is a page: the lines that are
finished and the one it is at, which is as long as the column says. Soft line breaks finish a
line with an equal sign, so only a line end of the text can leave a period alone on a line, and
only when a space that was held back has moved the period to a new line.
-/
namespace SnapCpp.QuotedPrintable

/-- The lines that are finished and the one that is being written. -/
structure Page where
  lines : List Bytes
  line : Bytes

namespace Page

def bytes (br : Bytes) (p : Page) : Bytes := p.lines.flatMap (· ++ br) ++ p.line

def put (p : Page) (w : Bytes) : Page :=
  if 75 < p.line.length + w.length then ⟨p.lines ++ [p.line ++ [0x3D]], w⟩
  else ⟨p.lines, p.line ++ w⟩

def newLine (p : Page) : Page := ⟨p.lines ++ [p.line], []⟩

end Page

def IsUpperHex (c : UInt8) : Prop := (0x30 ≤ c ∧ c ≤ 0x39) ∨ (0x41 ≤ c ∧ c ≤ 0x46)

def IsPlain (c : UInt8) : Prop := (0x20 ≤ c ∧ c ≤ 0x7E ∧ c ≠ 0x3D) ∨ c = 0x09

instance (c : UInt8) : Decidable (IsUpperHex c) := by
  unfold IsUpperHex
  infer_instance

instance (c : UInt8) : Decidable (IsPlain c) := by
  unfold IsPlain
  infer_instance

inductive Part : Bytes → Prop
  | nil : Part []
  | plain {l : Bytes} {c : UInt8} : Part l → IsPlain c → Part (l ++ [c])
  | hex {l : Bytes} {c d : UInt8} : Part l → IsUpperHex c → IsUpperHex d →
      Part (l ++ [0x3D, c, d])

structure FullLine (l : Bytes) : Prop where
  short : l.length ≤ 76
  ends : ∀ c, l.getLast? = some c → isBlank c = false
  parts : Part l ∨ ∃ p, Part p ∧ l = p ++ [0x3D]

structure Shows (r : Encoder) (p : Page) : Prop where
  result : r.fResult = p.bytes (lineBreak r.fFlags)
  column : r.fLine = p.line.length
  short : p.line.length ≤ 75

structure Neat (p : Page) : Prop where
  lines : ∀ l ∈ p.lines, FullLine l
  line : Part p.line

section Pages

open Encoder

variable {r : Encoder} {p : Page} {w : Bytes}

theorem shows_put (h : Shows r p) (hw : w.length ≤ 75) : Shows (r.put w) (p.put w) := by
  unfold Encoder.put Page.put wrap
  by_cases hlong : 75 < r.fLine + w.length
  · have hlong' : 75 < p.line.length + w.length := by
      rw [← h.column]
      exact hlong
    have hsoft : softBreak r.fFlags = 0x3D :: lineBreak r.fFlags := by
      unfold softBreak lineBreak
      split_ifs <;> rfl
    rw [if_pos hlong, if_pos hlong, if_pos hlong', hsoft]
    refine ⟨?_, rfl, hw⟩
    simp [Page.bytes, h.result]
  · have hlong' : ¬ 75 < p.line.length + w.length := by
      rw [← h.column]
      exact hlong
    rw [if_neg hlong, if_neg hlong, if_neg hlong']
    refine ⟨?_, ?_, ?_⟩
    · simp [Page.bytes, h.result]
    · simp [h.column]
    · simp only [List.length_append]
      omega

theorem shows_newLine (h : Shows r p) : Shows
    { r with fResult := r.fResult ++ lineBreak r.fFlags, fLine := 0 } p.newLine := by
  refine ⟨?_, rfl, Nat.zero_le _⟩
  simp [Page.bytes, Page.newLine, h.result]

/-- The members that are not the page have no part in it. -/
theorem Shows.with (h : Shows r p) (buffer : UInt8) (cr : Bool) :
    Shows { r with fBuffer := buffer, fCr := cr } p := ⟨h.result, h.column, h.short⟩

def Token (w : Bytes) : Prop :=
  (∃ c, w = [c] ∧ IsPlain c) ∨ ∃ c d, w = [0x3D, c, d] ∧ IsUpperHex c ∧ IsUpperHex d

theorem Part.append {l : Bytes} (h : Part l) (hw : Token w) : Part (l ++ w) := by
  rcases hw with ⟨c, rfl, hc⟩ | ⟨c, d, rfl, hc, hd⟩
  · exact h.plain hc
  · exact h.hex hc hd

theorem fullLine_soft {l : Bytes} (h : Part l) (hshort : l.length ≤ 75) :
    FullLine (l ++ [0x3D]) := by
  refine ⟨?_, fun c hc => ?_, Or.inr ⟨l, h, rfl⟩⟩
  · rw [List.length_append, List.length_singleton]
    omega
  · rw [List.getLast?_append] at hc
    obtain rfl : 0x3D = c := by simpa using hc
    rfl

theorem neat_put (h : Neat p) (hshort : p.line.length ≤ 75) (hw : Token w) : Neat (p.put w) := by
  unfold Page.put
  split_ifs
  · refine ⟨?_, by simpa using Part.nil.append hw⟩
    rw [List.forall_mem_append]
    refine ⟨h.lines, fun l hl => ?_⟩
    rw [List.mem_singleton.mp hl]
    exact fullLine_soft h.line hshort
  · exact ⟨h.lines, h.line.append hw⟩

theorem neat_newLine (h : Neat p) (hshort : p.line.length ≤ 75)
    (hends : ∀ c, p.line.getLast? = some c → isBlank c = false) : Neat p.newLine := by
  refine ⟨?_, Part.nil⟩
  rw [Page.newLine, List.forall_mem_append]
  refine ⟨h.lines, fun l hl => ?_⟩
  rw [List.mem_singleton.mp hl]
  exact ⟨by omega, hends, Or.inl h.line⟩

theorem getLast?_put (p : Page) (hw : w ≠ []) : (p.put w).line.getLast? = w.getLast? := by
  unfold Page.put
  split_ifs
  · rfl
  · rw [List.getLast?_append, List.getLast?_eq_getLast_of_ne_nil hw]
    rfl

end Pages

section Turns

open Encoder

variable {r : Encoder} {p : Page} {c : UInt8} {rest : Bytes}

theorem isUpperHex_toHex (n : ℤ) : IsUpperHex (toHex n) := by
  have hall : ∀ d : ℕ, d < 16 → IsUpperHex (toHex (d : ℤ)) := by decide
  have hlt : (n % 16).toNat < 16 := by omega
  have hsame : toHex n = toHex ((n % 16).toNat : ℤ) := by
    unfold toHex
    have hmod : (((n % 16).toNat : ℤ) % 16).toNat = (n % 16).toNat := by omega
    rw [hmod]
  rw [hsame]
  exact hall _ hlt

def hexToken (c : UInt8) : Bytes := [0x3D, toHex (charToInt c / 16), toHex (charToInt c)]

theorem token_hexToken (c : UInt8) : Token (hexToken c) :=
  Or.inr ⟨_, _, rfl, isUpperHex_toHex _, isUpperHex_toHex _⟩

theorem isPlain_of_blank (h : isBlank c = true) : IsPlain c := by
  simp only [isBlank, Bool.or_eq_true, beq_iff_eq] at h
  rcases h with rfl | rfl <;> decide

theorem isPlain_of_not_encodeChar {flags : BitVec 32} (h : encodeChar flags c = false)
    (heol : isEol c = false) : IsPlain c := by
  by_cases hblank : isBlank c = true
  · exact isPlain_of_blank hblank
  · have hplain : c ≠ 0x0A ∧ c ≠ 0x0D ∧ c ≠ 0x09 ∧ c ≠ 0x20 := by
      simp only [isBlank, isEol, Bool.or_eq_true, Bool.or_eq_false_iff, beq_iff_eq, not_or,
        beq_eq_false_iff_ne] at hblank heol
      exact ⟨heol.2, heol.1, hblank.2, hblank.1⟩
    rw [encodeChar, if_neg (by simpa using hplain)] at h
    split_ifs at h with hequal hedbic
    · have hall : ∀ d ∈ edbicChars, IsPlain d :=
        List.forall_iff_forall_mem.mp (by decide)
      exact hall c hedbic
    · simp only [Bool.not_eq_false', Bool.and_eq_true, decide_eq_true_eq] at h
      have hlt : c.toNat < 256 := c.toNat_lt
      have hrange : 0x20 ≤ c.toNat ∧ c.toNat ≤ 0x7E := by
        unfold charToInt at h
        split_ifs at h <;> omega
      exact Or.inl ⟨UInt8.le_iff_toNat_le.mpr hrange.1, UInt8.le_iff_toNat_le.mpr hrange.2, hequal⟩

instance (r : Encoder) (c : UInt8) (rest : Bytes) : Decidable (r.Escaped c rest) := by
  unfold Escaped
  infer_instance

def Page.putHeld (p : Page) (r : Encoder) : Page := if r.fBuffer = 0 then p else p.put [r.fBuffer]

def Page.putHex (p : Page) (r : Encoder) : Page :=
  if r.fBuffer = 0 then p else p.put (hexToken r.fBuffer)

def Page.turn (p : Page) (r : Encoder) (c : UInt8) (rest : Bytes) : Page :=
  if r.Escaped c rest then p.put (hexToken c)
  else if isBlank c then p.putHeld r
  else if c = 0x0A ∧ r.fCr then p
  else if isEol c then (p.putHex r).newLine
  else (p.putHeld r).put [c]

def turnBuffer (r : Encoder) (c : UInt8) (rest : Bytes) : UInt8 :=
  if r.Escaped c rest then r.fBuffer
  else if isBlank c then c
  else if c = 0x0A ∧ r.fCr then r.fBuffer
  else 0

theorem addNext_eq (r : Encoder) (c : UInt8) (rest : Bytes) : r.addNext c rest =
    if r.Escaped c rest then r.addHex (charToInt c) else r.addData c := by
  unfold addNext addChar
  by_cases hescaped : r.Escaped c rest
  · rw [if_pos hescaped]
    split_ifs with hlone hencode
    · rw [hlone.2.1]
      rfl
    · rfl
    · exact absurd hescaped (not_or.mpr ⟨hlone, hencode⟩)
  · obtain ⟨hlone, hencode⟩ := not_or.mp hescaped
    rw [if_neg hescaped, if_neg hlone, if_neg hencode]

theorem shows_addHex (h : Shows r p) (c : UInt8) :
    Shows (r.addHex (charToInt c)) (p.put (hexToken c)) := by
  rw [addHex_eq_put]
  exact shows_put h (by simp)

theorem shows_addByte (h : Shows r p) (heol : isEol c = false) :
    Shows (r.addByte c) (p.put [c]) := by
  simp only [isEol, Bool.or_eq_false_iff, beq_eq_false_iff_ne] at heol
  rw [addByte_eq_put r heol.2 heol.1]
  exact shows_put h (by simp)

theorem eol_of_blank (h : isBlank c = true) : isEol c = false := by
  simp only [isBlank, Bool.or_eq_true, beq_iff_eq] at h
  rcases h with rfl | rfl <;> rfl

theorem shows_flush (h : Shows r p) (hheld : HoldsBlank r) :
    Shows (if r.fBuffer ≠ 0 then r.addByte r.fBuffer else r) (p.putHeld r) := by
  unfold Page.putHeld
  by_cases hempty : r.fBuffer = 0
  · rw [if_neg (not_not.mpr hempty), if_pos hempty]
    exact h
  · rw [if_pos hempty, if_neg hempty]
    exact shows_addByte h (eol_of_blank (hheld hempty))

theorem shows_finish (h : Shows r p) : Shows r.finish (p.putHex r) := by
  unfold finish Page.putHex
  by_cases hempty : r.fBuffer = 0
  · rw [if_neg (not_not.mpr hempty), if_pos hempty]
    exact h
  · rw [if_pos hempty, if_neg hempty]
    have hput := shows_addHex h r.fBuffer
    exact ⟨hput.result, hput.column, hput.short⟩

theorem finish_members (r : Encoder) :
    r.finish.fFlags = r.fFlags ∧ r.finish.fBuffer = 0 ∧ r.finish.fCr = r.fCr := by
  unfold finish
  split_ifs with hempty
  · rw [addHex_eq_put]
    exact ⟨rfl, rfl, rfl⟩
  · exact ⟨rfl, not_not.mp hempty, rfl⟩

structure TurnOf (r : Encoder) (p : Page) (c : UInt8) (rest : Bytes) (r' : Encoder) : Prop where
  shows : Shows r' (p.turn r c rest)
  buffer : r'.fBuffer = turnBuffer r c rest
  flags : r'.fFlags = r.fFlags
  cr : r'.fCr = if r.Escaped c rest ∨ isBlank c = true then r.fCr else decide (c = 0x0D)

theorem turnOf_escaped (h : Shows r p) (hescaped : r.Escaped c rest) :
    TurnOf r p c rest (r.addHex (charToInt c)) := by
  refine ⟨?_, ?_, ?_, ?_⟩
  · rw [Page.turn, if_pos hescaped]
    exact shows_addHex h c
  · rw [turnBuffer, if_pos hescaped, addHex_eq_put]
    rfl
  · rw [addHex_eq_put]
    rfl
  · rw [if_pos (Or.inl hescaped), addHex_eq_put]
    rfl

theorem turnOf_blank (h : Shows r p) (hheld : HoldsBlank r) (hplain : ¬ r.Escaped c rest)
    (hblank : isBlank c = true) : TurnOf r p c rest (r.addData c) := by
  have hc : c = 0x20 ∨ c = 0x09 := by
    simpa only [isBlank, Bool.or_eq_true, beq_iff_eq] using hblank
  have hdata : r.addData c =
      { (if r.fBuffer ≠ 0 then r.addByte r.fBuffer else r) with fBuffer := c } := by
    rw [addData, if_pos hc]
  have hflush := shows_flush h hheld
  have hsame : (if r.fBuffer ≠ 0 then r.addByte r.fBuffer else r).fFlags = r.fFlags ∧
      (if r.fBuffer ≠ 0 then r.addByte r.fBuffer else r).fCr = r.fCr := by
    split_ifs with hempty
    · have heol := eol_of_blank (hheld hempty)
      simp only [isEol, Bool.or_eq_false_iff, beq_eq_false_iff_ne] at heol
      rw [addByte_eq_put r heol.2 heol.1]
      exact ⟨rfl, rfl⟩
    · exact ⟨rfl, rfl⟩
  rw [hdata]
  refine ⟨?_, ?_, hsame.1, ?_⟩
  · rw [Page.turn, if_neg hplain, if_pos hblank]
    exact ⟨hflush.result, hflush.column, hflush.short⟩
  · rw [turnBuffer, if_neg hplain, if_pos hblank]
  · rw [if_pos (Or.inr hblank)]
    exact hsame.2

theorem turnOf_dropped (h : Shows r p) (hplain : ¬ r.Escaped c rest) (hc : c = 0x0A)
    (hcr : r.fCr = true) : TurnOf r p c rest (r.addData c) := by
  subst hc
  have hdata : r.addData 0x0A = { r with fCr := false } := by
    rw [addData, if_neg (by decide), if_pos ⟨rfl, hcr⟩]
  have hblank : ¬ isBlank 0x0A = true := by decide
  rw [hdata]
  refine ⟨?_, ?_, rfl, ?_⟩
  · rw [Page.turn, if_neg hplain, if_neg hblank, if_pos ⟨rfl, hcr⟩]
    exact h.with r.fBuffer false
  · rw [turnBuffer, if_neg hplain, if_neg hblank, if_pos ⟨rfl, hcr⟩]
  · rw [if_neg (not_or.mpr ⟨hplain, hblank⟩)]
    rfl

theorem turnOf_lineEnd (h : Shows r p) (hplain : ¬ r.Escaped c rest) (heol : isEol c = true)
    (hdropped : ¬ (c = 0x0A ∧ r.fCr = true)) : TurnOf r p c rest (r.addData c) := by
  have hblank : ¬ isBlank c = true := fun hblank => by
    rw [eol_of_blank hblank] at heol
    cases heol
  have hc : c = 0x0A ∨ c = 0x0D := by
    simp only [isEol, Bool.or_eq_true, beq_iff_eq] at heol
    exact heol.symm
  have hc' : ¬ (c = 0x20 ∨ c = 0x09) := by
    simpa only [isBlank, Bool.or_eq_true, beq_iff_eq] using hblank
  have hdata : r.addData c =
      ((finish { r with fCr := decide (c = 0x0D) }).addByte 0x0D).addByte 0x0A := by
    rw [addData, if_neg hc', if_neg hdropped]
    simp only [if_pos hc]
    rfl
  have hfinish := shows_newLine (shows_finish (h.with r.fBuffer (decide (c = 0x0D))))
  have hsame := finish_members { r with fCr := decide (c = 0x0D) }
  rw [hdata, addLineBreak_eq]
  refine ⟨?_, ?_, hsame.1, ?_⟩
  · rw [Page.turn, if_neg hplain, if_neg hblank, if_neg hdropped, if_pos heol]
    exact hfinish
  · rw [turnBuffer, if_neg hplain, if_neg hblank, if_neg hdropped]
    exact hsame.2.1
  · rw [if_neg (not_or.mpr ⟨hplain, hblank⟩)]
    exact hsame.2.2

theorem turnOf_plain (h : Shows r p) (hheld : HoldsBlank r) (hplain : ¬ r.Escaped c rest)
    (hblank : ¬ isBlank c = true) (heol : isEol c = false) :
    TurnOf r p c rest (r.addData c) := by
  have hc : ¬ (c = 0x20 ∨ c = 0x09) := by
    simpa only [isBlank, Bool.or_eq_true, beq_iff_eq] using hblank
  have hc' : ¬ (c = 0x0A ∨ c = 0x0D) := by
    simp only [isEol, Bool.or_eq_false_iff, beq_eq_false_iff_ne] at heol
    exact not_or.mpr heol.symm
  have hdropped : ¬ (c = 0x0A ∧ r.fCr = true) := fun hd => hc' (Or.inl hd.1)
  have hret : decide (c = 0x0D) = false := decide_eq_false fun hret => hc' (Or.inr hret)
  have hdata : r.addData c = ((if r.fBuffer ≠ 0 then
      { ({ r with fCr := false } : Encoder).addByte r.fBuffer with fBuffer := 0 }
      else { r with fCr := false }).addByte c) := by
    rw [addData, if_neg hc, if_neg hdropped]
    simp only [if_neg hc', hret]
  have hflush := shows_flush (r := { r with fCr := false }) (h.with r.fBuffer false) hheld
  have hshows : Shows (if r.fBuffer ≠ 0 then
      { ({ r with fCr := false } : Encoder).addByte r.fBuffer with fBuffer := 0 }
      else { r with fCr := false }) (p.putHeld r) := by
    split_ifs at hflush ⊢
    · exact ⟨hflush.result, hflush.column, hflush.short⟩
    · exact hflush
  have hsame : ∀ e : Encoder, e = (if r.fBuffer ≠ 0 then
      { ({ r with fCr := false } : Encoder).addByte r.fBuffer with fBuffer := 0 }
      else { r with fCr := false }) → e.fFlags = r.fFlags ∧ e.fBuffer = 0 ∧ e.fCr = false := by
    rintro e rfl
    split_ifs with hempty
    · have heol' := eol_of_blank (hheld hempty)
      simp only [isEol, Bool.or_eq_false_iff, beq_eq_false_iff_ne] at heol'
      rw [addByte_eq_put _ heol'.2 heol'.1]
      exact ⟨rfl, rfl, rfl⟩
    · exact ⟨rfl, not_not.mp hempty, rfl⟩
  obtain ⟨hflags, hbuffer, hcr⟩ := hsame _ rfl
  have hbyte := shows_addByte hshows heol
  simp only [isEol, Bool.or_eq_false_iff, beq_eq_false_iff_ne] at heol
  rw [hdata]
  rw [addByte_eq_put _ heol.2 heol.1] at hbyte ⊢
  refine ⟨?_, ?_, hflags, ?_⟩
  · have heol' : ¬ isEol c = true := by
      simpa only [isEol, Bool.or_eq_true, beq_iff_eq, not_or] using heol
    rw [Page.turn, if_neg hplain, if_neg hblank, if_neg hdropped, if_neg heol']
    exact hbyte
  · rw [turnBuffer, if_neg hplain, if_neg hblank, if_neg hdropped]
    exact hbuffer
  · rw [if_neg (not_or.mpr ⟨hplain, hblank⟩), hret]
    exact hcr

theorem turnOf_addNext (h : Shows r p) (hheld : HoldsBlank r) :
    TurnOf r p c rest (r.addNext c rest) := by
  rw [addNext_eq]
  split_ifs with hescaped
  · exact turnOf_escaped h hescaped
  · by_cases hblank : isBlank c = true
    · exact turnOf_blank h hheld hescaped hblank
    · by_cases hdropped : c = 0x0A ∧ r.fCr = true
      · exact turnOf_dropped h hescaped hdropped.1 hdropped.2
      · cases heol : isEol c with
        | true => exact turnOf_lineEnd h hescaped heol hdropped
        | false => exact turnOf_plain h hheld hescaped hblank heol

end Turns

end SnapCpp.QuotedPrintable
