import SnapCpp.QuotedLines

/-!
A quoted-printable text is well formed: no line is longer than 76 characters or ends with a space
or a tab, an equal sign is followed by two digits or by a line break, and what else there is
stands for itself. The lone periods are kept away except for one: a period that ends its line of
the text, held away from column 75 by a space only, is moved to the next line by that space.
-/
namespace SnapCpp.QuotedPrintable

def dropCr (l : Bytes) : Bytes := if l.getLast? = some 0x0D then l.dropLast else l

def lines (out : Bytes) : List Bytes := (out.splitOn 0x0A).map dropCr

structure WellFormed (flags : BitVec 32) (out : Bytes) : Prop where
  short : ∀ l ∈ lines out, l.length ≤ 76
  ends : ∀ l ∈ lines out, ∀ c, l.getLast? = some c → isBlank c = false
  equals : ∀ front back, out = front ++ 0x3D :: back →
    (∃ c d rest, back = c :: d :: rest ∧ IsUpperHex c ∧ IsUpperHex d) ∨
      ∃ rest, back = lineBreak flags ++ rest
  characters : ∀ front c back, out = front ++ c :: back → c ≠ 0x3D →
    IsPlain c ∨ c = 0x0A ∨ (c = 0x0D ∧ back.head? = some 0x0A)
  period : hasFlag flags flagNoLonePeriod = true → ∀ l ∈ lines out, l ≠ [0x2E]

section Text

variable {flags : BitVec 32} {l t : Bytes} {c : UInt8} {p : Page}

/-- What a character of a text has to be, and what has to come after it. -/
def Fits (flags : BitVec 32) (c : UInt8) (back : Bytes) : Prop :=
  (c = 0x3D → (∃ c d rest, back = c :: d :: rest ∧ IsUpperHex c ∧ IsUpperHex d) ∨
    ∃ rest, back = lineBreak flags ++ rest) ∧
  (c ≠ 0x3D → IsPlain c ∨ c = 0x0A ∨ (c = 0x0D ∧ back.head? = some 0x0A))

def AllFit (flags : BitVec 32) : Bytes → Prop
  | [] => True
  | c :: back => Fits flags c back ∧ AllFit flags back

theorem AllFit.at_split {out : Bytes} (h : AllFit flags out) :
    ∀ front c back, out = front ++ c :: back → Fits flags c back := by
  intro front
  induction front generalizing out with
  | nil =>
    rintro c back rfl
    exact h.1
  | cons d front ih =>
    rintro c back rfl
    exact ih h.2 c back rfl

theorem isPlain_of_upperHex (h : IsUpperHex c) : IsPlain c ∧ c ≠ 0x3D := by
  simp only [IsUpperHex, IsPlain, UInt8.le_iff_toNat_le, ne_eq, ← UInt8.toNat_inj,
    UInt8.reduceToNat] at h ⊢
  omega

theorem fits_plain (h : IsPlain c) (back : Bytes) : Fits flags c back := by
  have hne : c ≠ 0x3D := by
    rintro rfl
    revert h
    decide
  exact ⟨fun heq => absurd heq hne, fun _ => Or.inl h⟩

theorem allFit_part (h : Part l) (ht : AllFit flags t) : AllFit flags (l ++ t) := by
  induction h generalizing t with
  | nil => exact ht
  | plain _ hc ih =>
    rw [List.append_assoc]
    exact ih ⟨fits_plain hc _, ht⟩
  | hex _ hc hd ih =>
    rw [List.append_assoc]
    refine ih ⟨⟨fun _ => Or.inl ⟨_, _, _, rfl, hc, hd⟩, fun hne => absurd rfl hne⟩, ?_⟩
    exact ⟨fits_plain (isPlain_of_upperHex hc).1 _, fits_plain (isPlain_of_upperHex hd).1 _, ht⟩

theorem allFit_lineBreak (ht : AllFit flags t) : AllFit flags (lineBreak flags ++ t) := by
  have hlf (back : Bytes) : Fits flags 0x0A back :=
    ⟨fun heq => absurd heq (by decide), fun _ => Or.inr (Or.inl rfl)⟩
  unfold lineBreak
  split_ifs
  · exact ⟨hlf _, ht⟩
  · refine ⟨⟨fun heq => absurd heq (by decide), fun _ => Or.inr (Or.inr ⟨rfl, rfl⟩)⟩, hlf _, ht⟩

theorem allFit_line (h : FullLine l) (ht : AllFit flags t) :
    AllFit flags (l ++ (lineBreak flags ++ t)) := by
  rcases h.parts with hpart | ⟨p, hpart, rfl⟩
  · exact allFit_part hpart (allFit_lineBreak ht)
  · rw [List.append_assoc]
    refine allFit_part hpart ⟨⟨fun _ => Or.inr ⟨t, rfl⟩, fun hne => absurd rfl hne⟩, ?_⟩
    exact allFit_lineBreak ht

theorem allFit_bytes (h : Neat p) : AllFit flags (p.bytes (lineBreak flags)) := by
  obtain ⟨ls, line⟩ := p
  have hline : AllFit flags line := by
    have hpart : AllFit flags (line ++ []) := allFit_part h.line trivial
    rwa [List.append_nil] at hpart
  rw [Page.bytes]
  induction ls with
  | nil => exact hline
  | cons l ls ih =>
    obtain ⟨hl, hls⟩ := List.forall_mem_cons.mp h.lines
    rw [List.flatMap_cons, List.append_assoc, List.append_assoc]
    exact allFit_line hl (ih ⟨hls, h.line⟩)

theorem isEol_of_plain (h : IsPlain c) : isEol c = false := by
  rw [isEol, Bool.or_eq_false_iff, beq_eq_false_iff_ne, beq_eq_false_iff_ne]
  constructor
  · rintro rfl
    revert h
    decide
  · rintro rfl
    revert h
    decide

theorem isEol_of_part (h : Part l) : ∀ c ∈ l, isEol c = false := by
  induction h with
  | nil => exact fun c hc => by cases hc
  | plain _ hc ih =>
    rw [List.forall_mem_append]
    refine ⟨ih, fun d hd => ?_⟩
    rw [List.mem_singleton.mp hd]
    exact isEol_of_plain hc
  | hex _ hc hd ih =>
    rw [List.forall_mem_append]
    refine ⟨ih, ?_⟩
    simp only [List.forall_mem_cons]
    exact ⟨rfl, isEol_of_plain (isPlain_of_upperHex hc).1,
      isEol_of_plain (isPlain_of_upperHex hd).1, fun _ h => by cases h⟩

theorem isEol_of_fullLine (h : FullLine l) : ∀ c ∈ l, isEol c = false := by
  rcases h.parts with hpart | ⟨p, hpart, rfl⟩
  · exact isEol_of_part hpart
  · rw [List.forall_mem_append]
    refine ⟨isEol_of_part hpart, fun c hc => ?_⟩
    rw [List.mem_singleton.mp hc]
    rfl

theorem dropCr_of_notMem (h : ∀ c ∈ l, isEol c = false) : dropCr l = l := by
  refine if_neg fun hlast => ?_
  have heol := h _ (List.mem_of_getLast? hlast)
  revert heol
  decide

/-- The lines of a page are cut out of its text. -/
theorem lines_cons (h : ∀ c ∈ l, isEol c = false) (t : Bytes) :
    lines (l ++ (lineBreak flags ++ t)) = l :: lines t := by
  have hlf : (0x0A : UInt8) ∉ l := fun hmem => by
    have heol := h _ hmem
    revert heol
    decide
  unfold lines lineBreak
  split_ifs
  · rw [List.singleton_append, List.splitOn_append_cons_self_of_not_mem hlf, List.map_cons,
      dropCr_of_notMem h]
  · have hcr : (0x0A : UInt8) ∉ l ++ [0x0D] := by
      rw [List.mem_append, not_or]
      exact ⟨hlf, by decide⟩
    have hjoin : l ++ ([0x0D, 0x0A] ++ t) = (l ++ [0x0D]) ++ 0x0A :: t := by simp
    have hdrop : dropCr (l ++ [0x0D]) = l := by
      rw [dropCr, if_pos (by simp), List.dropLast_concat]
    rw [hjoin, List.splitOn_append_cons_self_of_not_mem hcr, List.map_cons, hdrop]

theorem lines_bytes (h : Neat p) : lines (p.bytes (lineBreak flags)) = p.lines ++ [p.line] := by
  obtain ⟨ls, line⟩ := p
  rw [Page.bytes]
  induction ls with
  | nil =>
    have hline := isEol_of_part h.line
    have hlf : (0x0A : UInt8) ∉ line := fun hmem => by
      have heol := hline _ hmem
      revert heol
      decide
    rw [List.flatMap_nil, List.nil_append, List.nil_append, lines,
      List.splitOn_eq_singleton hlf, List.map_singleton, dropCr_of_notMem hline]
  | cons l ls ih =>
    obtain ⟨hl, hls⟩ := List.forall_mem_cons.mp h.lines
    rw [List.flatMap_cons, List.append_assoc, List.append_assoc,
      lines_cons (isEol_of_fullLine hl), ih ⟨hls, h.line⟩, List.cons_append]

theorem wellFormed_iff (h : Neat p) (hshort : p.line.length ≤ 75)
    (hends : ∀ c, p.line.getLast? = some c → isBlank c = false) :
    WellFormed flags (p.bytes (lineBreak flags)) ↔
      (hasFlag flags flagNoLonePeriod = true → ∀ l ∈ p.lines ++ [p.line], l ≠ [0x2E]) := by
  have hlines : lines (p.bytes (lineBreak flags)) = p.lines ++ [p.line] := lines_bytes h
  rw [← hlines]
  refine ⟨WellFormed.period, fun hperiod => ⟨?_, ?_, ?_, ?_, hperiod⟩⟩
  · rw [lines_bytes h, List.forall_mem_append]
    refine ⟨fun l hl => (h.lines l hl).short, fun l hl => ?_⟩
    rw [List.mem_singleton.mp hl]
    omega
  · rw [lines_bytes h, List.forall_mem_append]
    refine ⟨fun l hl => (h.lines l hl).ends, fun l hl => ?_⟩
    rw [List.mem_singleton.mp hl]
    exact hends
  · exact fun front back heq => ((allFit_bytes h).at_split front _ back heq).1 rfl
  · exact fun front c back heq hne => ((allFit_bytes h).at_split front c back heq).2 hne

end Text

def start (flags : BitVec 32) : Encoder :=
  { fFlags := flags, fBuffer := 0, fResult := [], fLine := 0, fCr := false }

/-- The encoder after the characters of `front`, when `rest` is still to come. -/
def Encoder.before (r : Encoder) : Bytes → Bytes → Encoder
  | [], _ => r
  | c :: front, rest => (r.addNext c (front ++ rest)).before front rest

def Encoder.Strands (r : Encoder) (c : UInt8) (rest : Bytes) : Prop :=
  c = 0x2E ∧ atLineEnd rest = true ∧ r.fLine = 74 ∧ r.fBuffer ≠ 0

def Page.run (p : Page) (r : Encoder) : Bytes → Page
  | [] => p
  | c :: rest => (p.turn r c rest).run (r.addNext c rest) rest

/-- What holds between two turns of the loop. -/
structure Running (flags : BitVec 32) (r : Encoder) (p : Page) : Prop where
  shows : Shows r p
  neat : Neat p
  fFlags : r.fFlags = flags
  held : HoldsBlank r
  binary : r.fBuffer ≠ 0 → hasFlag flags flagBinary = false
  quiet : ∀ c, p.line.getLast? = some c → isBlank c = true → r.fBuffer ≠ 0

/-- No line is a period alone, unless something is still to come on it. -/
structure NoneAlone (r : Encoder) (p : Page) (rest : Bytes) : Prop where
  lines : [0x2E] ∉ p.lines
  line : p.line = [0x2E] → r.fBuffer ≠ 0 ∨ atLineEnd rest = false

section Run

open Encoder

variable {flags : BitVec 32} {r : Encoder} {p : Page} {c : UInt8} {rest w : Bytes}

theorem neat_putHeld (h : Neat p) (hshort : p.line.length ≤ 75) (hheld : HoldsBlank r) :
    Neat (p.putHeld r) := by
  unfold Page.putHeld
  split_ifs with hempty
  · exact h
  · exact neat_put h hshort (Or.inl ⟨_, rfl, isPlain_of_blank (hheld hempty)⟩)

theorem neat_putHex (h : Neat p) (hshort : p.line.length ≤ 75) : Neat (p.putHex r) := by
  unfold Page.putHex
  split_ifs with hempty
  · exact h
  · exact neat_put h hshort (token_hexToken _)

/-- A line ends with a digit after a character in hexadecimal. -/
theorem getLast?_putHexToken (p : Page) (c : UInt8) :
    ∀ d, (p.put (hexToken c)).line.getLast? = some d → isBlank d = false := by
  intro d hd
  rw [getLast?_put p (by simp [hexToken])] at hd
  obtain rfl : toHex (charToInt c) = d := by simpa [hexToken] using hd
  have hdigit := isUpperHex_toHex (charToInt c)
  apply eq_false_of_ne_true
  intro hblank
  simp only [isBlank, Bool.or_eq_true, beq_iff_eq] at hblank
  rcases hblank with hc | hc
  · rw [hc] at hdigit
    revert hdigit
    decide
  · rw [hc] at hdigit
    revert hdigit
    decide

theorem getLast?_putHex (h : Running flags r p) :
    ∀ d, (p.putHex r).line.getLast? = some d → isBlank d = false := by
  unfold Page.putHex
  split_ifs with hempty
  · intro d hd
    apply eq_false_of_ne_true
    exact fun hblank => h.quiet d hd hblank hempty
  · exact getLast?_putHexToken p r.fBuffer

theorem short_putHex (h : Shows r p) : (p.putHex r).line.length ≤ 75 := (shows_finish h).short

theorem neat_turn (h : Running flags r p) : Neat (p.turn r c rest) := by
  have hheldShort : (p.putHeld r).line.length ≤ 75 := (shows_flush h.shows h.held).short
  unfold Page.turn
  split_ifs with hescaped hblank hdropped heol
  · exact neat_put h.neat h.shows.short (token_hexToken c)
  · exact neat_putHeld h.neat h.shows.short h.held
  · exact h.neat
  · exact neat_newLine (neat_putHex h.neat h.shows.short) (short_putHex h.shows)
      (getLast?_putHex h)
  · refine neat_put (neat_putHeld h.neat h.shows.short h.held) hheldShort (Or.inl ⟨c, rfl, ?_⟩)
    have hencode : encodeChar r.fFlags c = false :=
      eq_false_of_ne_true fun hencode => hescaped (Or.inr hencode)
    exact isPlain_of_not_encodeChar hencode (eq_false_of_ne_true heol)

/-- What holds between two turns is kept by a turn. -/
theorem Running.turn (h : Running flags r p) :
    Running flags (r.addNext c rest) (p.turn r c rest) := by
  have hturn : TurnOf r p c rest (r.addNext c rest) := turnOf_addNext h.shows h.held
  have hflags := hturn.flags.trans h.fFlags
  refine ⟨hturn.shows, neat_turn h, hflags, ?_, ?_, ?_⟩
  · unfold HoldsBlank
    rw [hturn.buffer]
    unfold turnBuffer
    split_ifs with hescaped hblank hdropped
    · exact h.held
    · exact fun _ => hblank
    · exact h.held
    · exact fun hne => absurd rfl hne
  · rw [hturn.buffer]
    unfold turnBuffer
    split_ifs with hescaped hblank hdropped
    · exact h.binary
    · intro _
      apply eq_false_of_ne_true
      rw [← h.fFlags, ← encodeChar_blank hblank]
      exact fun hencode => hescaped (Or.inr hencode)
    · exact h.binary
    · exact fun hne => absurd rfl hne
  · rw [hturn.buffer]
    unfold turnBuffer Page.turn
    split_ifs with hescaped hblank hdropped heol
    · intro d hd hblank
      rw [getLast?_putHexToken p c d hd] at hblank
      cases hblank
    · rintro - - - rfl
      cases hblank
    · exact h.quiet
    · intro d hd
      cases hd
    · intro d hd hd'
      rw [getLast?_put _ (by simp)] at hd
      obtain rfl : c = d := by simpa using hd
      exact absurd hd' hblank

theorem Running.run (h : Running flags r p) (s : Bytes) :
    Running flags (r.addChars s) (p.run r s) := by
  induction s generalizing r p with
  | nil => exact h
  | cons c rest ih => exact ih h.turn

theorem mem_lines_put : [0x2E] ∈ (p.put w).lines ↔ [0x2E] ∈ p.lines := by
  unfold Page.put
  split_ifs
  · rw [List.mem_append, List.mem_singleton, or_iff_left]
    intro heq
    have hlast := congrArg List.getLast? heq
    rw [List.getLast?_append] at hlast
    simp at hlast
  · exact Iff.rfl

theorem mem_lines_putHeld : [0x2E] ∈ (p.putHeld r).lines ↔ [0x2E] ∈ p.lines := by
  unfold Page.putHeld
  split_ifs
  · exact Iff.rfl
  · exact mem_lines_put

theorem mem_lines_putHex : [0x2E] ∈ (p.putHex r).lines ↔ [0x2E] ∈ p.lines := by
  unfold Page.putHex
  split_ifs
  · exact Iff.rfl
  · exact mem_lines_put

theorem line_put_eq (h : (p.put w).line = [0x2E]) (hw : w ≠ []) :
    w = [0x2E] ∧ (75 < p.line.length + w.length ∨ p.line = []) := by
  unfold Page.put at h
  split_ifs at h with hlong
  · exact ⟨h, Or.inl hlong⟩
  · obtain ⟨hline, hput⟩ | ⟨-, hput⟩ := List.append_eq_singleton_iff.mp h
    · exact ⟨hput, Or.inr hline⟩
    · exact absurd hput hw

theorem line_putHexToken (p : Page) (c : UInt8) : (p.put (hexToken c)).line ≠ [0x2E] := by
  intro hline
  have hlength := congrArg List.length (line_put_eq hline (by simp [hexToken])).1
  simp [hexToken] at hlength

theorem line_putHex (h : (p.putHex r).line = [0x2E]) : p.line = [0x2E] ∧ r.fBuffer = 0 := by
  unfold Page.putHex at h
  split_ifs at h with hempty
  · exact ⟨h, hempty⟩
  · exact absurd h (line_putHexToken p r.fBuffer)

theorem length_putHeld (hempty : r.fBuffer ≠ 0) (h : 75 ≤ (p.putHeld r).line.length)
    (hshort : p.line.length ≤ 75) : p.line.length = 74 := by
  unfold Page.putHeld Page.put at h
  rw [if_neg hempty] at h
  split_ifs at h with hlong
  · simp at h
  · rw [List.length_append, List.length_singleton] at h
    rw [List.length_singleton] at hlong
    omega

theorem strands_of_line (h : Running flags r p) (hflag : hasFlag flags flagNoLonePeriod = true)
    (hplain : ¬ r.Escaped 0x2E rest) (hend : atLineEnd rest = true)
    (hline : ((p.putHeld r).put [0x2E]).line = [0x2E]) : r.Strands 0x2E rest := by
  have hnew := (line_put_eq hline (by simp)).2
  have hcolumn := h.shows.column
  by_cases hempty : r.fBuffer = 0
  · have hsame : p.putHeld r = p := if_pos hempty
    rw [hsame] at hnew
    refine absurd (Or.inl ⟨by rw [h.fFlags]; exact hflag, rfl, hend, ?_⟩) hplain
    rcases hnew with hlong | hnil
    · rw [List.length_singleton] at hlong
      exact Or.inr (by omega)
    · rw [hnil] at hcolumn
      exact Or.inl hcolumn
  · refine ⟨rfl, hend, ?_, hempty⟩
    rcases hnew with hlong | hnil
    · rw [List.length_singleton] at hlong
      rw [hcolumn]
      exact length_putHeld hempty (by omega) h.shows.short
    · have hlast := getLast?_put p (w := [r.fBuffer]) (by simp)
      rw [Page.putHeld, if_neg hempty] at hnil
      rw [hnil] at hlast
      cases hlast

theorem NoneAlone.turn (hnone : NoneAlone r p (c :: rest)) (h : Running flags r p)
    (hflag : hasFlag flags flagNoLonePeriod = true) (hstrands : ¬ r.Strands c rest) :
    NoneAlone (r.addNext c rest) (p.turn r c rest) rest := by
  have hturn : TurnOf r p c rest (r.addNext c rest) := turnOf_addNext h.shows h.held
  constructor
  · unfold Page.turn
    split_ifs with hescaped hblank hdropped heol
    · exact fun hmem => hnone.lines (mem_lines_put.mp hmem)
    · exact fun hmem => hnone.lines (mem_lines_putHeld.mp hmem)
    · exact hnone.lines
    · rw [Page.newLine, List.mem_append, List.mem_singleton, not_or]
      refine ⟨fun hmem => hnone.lines (mem_lines_putHex.mp hmem), fun hline => ?_⟩
      obtain ⟨halone, hempty⟩ := line_putHex hline.symm
      rcases hnone.line halone with hheld | hend
      · exact hheld hempty
      · exact absurd (heol.symm.trans hend) (by decide)
    · exact fun hmem => hnone.lines (mem_lines_putHeld.mp (mem_lines_put.mp hmem))
  · rw [hturn.buffer]
    unfold Page.turn turnBuffer
    split_ifs with hescaped hblank hdropped heol
    · exact fun hline => absurd hline (line_putHexToken p c)
    · rintro -
      refine Or.inl ?_
      rintro rfl
      cases hblank
    · intro hline
      refine (hnone.line hline).imp_right fun hend => ?_
      rw [hdropped.1] at hend
      cases hend
    · exact fun hline => by cases hline
    · intro hline
      obtain ⟨hc, -⟩ := line_put_eq hline (by simp)
      obtain rfl : c = 0x2E := by simpa using hc
      exact Or.inr (eq_false_of_ne_true fun hend =>
        hstrands (strands_of_line h hflag hescaped hend hline))

theorem NoneAlone.finish (hnone : NoneAlone r p []) :
    [0x2E] ∉ (p.putHex r).lines ++ [(p.putHex r).line] := by
  rw [List.mem_append, List.mem_singleton, not_or]
  refine ⟨fun hmem => hnone.lines (mem_lines_putHex.mp hmem), fun hline => ?_⟩
  obtain ⟨halone, hempty⟩ := line_putHex hline.symm
  rcases hnone.line halone with hheld | hend
  · exact hheld hempty
  · cases hend

theorem NoneAlone.run (hnone : NoneAlone r p rest) (h : Running flags r p)
    (hflag : hasFlag flags flagNoLonePeriod = true)
    (hstrands : ∀ front c back, rest = front ++ c :: back →
      ¬ (r.before front (c :: back)).Strands c back) :
    [0x2E] ∉ ((p.run r rest).putHex (r.addChars rest)).lines ++
      [((p.run r rest).putHex (r.addChars rest)).line] := by
  induction rest generalizing r p with
  | nil => exact hnone.finish
  | cons c rest ih =>
    refine ih (hnone.turn h hflag (hstrands [] c rest rfl)) h.turn ?_
    rintro front d back rfl
    exact hstrands (c :: front) d back rfl

theorem mem_lines_turn (h : [0x2E] ∈ p.lines) : [0x2E] ∈ (p.turn r c rest).lines := by
  unfold Page.turn
  split_ifs
  · exact mem_lines_put.mpr h
  · exact mem_lines_putHeld.mpr h
  · exact h
  · exact List.mem_append_left _ (mem_lines_putHex.mpr h)
  · exact mem_lines_put.mpr (mem_lines_putHeld.mpr h)

theorem mem_lines_run (h : [0x2E] ∈ p.lines) : [0x2E] ∈ (p.run r rest).lines := by
  induction rest generalizing r p with
  | nil => exact h
  | cons c rest ih => exact ih (mem_lines_turn h)

/-- A stranded period is alone on the line that is being written. -/
theorem line_of_strands (h : Running flags r p) (hstrands : r.Strands c rest) :
    (p.turn r c rest).line = [0x2E] ∧ (r.addNext c rest).fBuffer = 0 ∧
      (r.addNext c rest).fCr = false := by
  obtain ⟨rfl, hend, hcolumn, hheld⟩ := hstrands
  have hturn : TurnOf r p 0x2E rest (r.addNext 0x2E rest) := turnOf_addNext h.shows h.held
  have hplain : ¬ r.Escaped 0x2E rest := by
    rintro (⟨-, -, -, hzero | hlong⟩ | hencode)
    · omega
    · omega
    · rw [encodeChar, if_neg (by decide), if_neg (by decide), if_neg (by decide)] at hencode
      revert hencode
      decide
  have hblank : ¬ isBlank 0x2E = true := by decide
  have heol : ¬ isEol 0x2E = true := by decide
  refine ⟨?_, ?_, ?_⟩
  · have hput : (p.putHeld r).line.length = 75 := by
      rw [Page.putHeld, if_neg hheld, Page.put, if_neg, List.length_append, ← h.shows.column,
        hcolumn]
      · rfl
      · rw [← h.shows.column, hcolumn, List.length_singleton]
        decide
    rw [Page.turn, if_neg hplain, if_neg hblank, if_neg (fun hd => absurd hd.1 (by decide)),
      if_neg heol, Page.put, if_pos (by rw [hput]; decide)]
  · rw [hturn.buffer, turnBuffer, if_neg hplain, if_neg hblank,
      if_neg (fun hd => absurd hd.1 (by decide))]
  · rw [hturn.cr, if_neg (not_or.mpr ⟨hplain, hblank⟩)]
    rfl

theorem mem_of_line (h : Running flags r p) (hline : p.line = [0x2E]) (hempty : r.fBuffer = 0)
    (hcr : r.fCr = false) (hbinary : hasFlag flags flagBinary = false)
    (hend : atLineEnd rest = true) :
    [0x2E] ∈ ((p.run r rest).putHex (r.addChars rest)).lines ++
      [((p.run r rest).putHex (r.addChars rest)).line] := by
  have hsame : p.putHex r = p := if_pos hempty
  cases rest with
  | nil =>
    rw [List.mem_append, List.mem_singleton]
    refine Or.inr ?_
    show [0x2E] = (p.putHex r).line
    rw [hsame, hline]
  | cons c rest =>
    have heol : isEol c = true := hend
    have hblank : ¬ isBlank c = true := fun hblank => by
      rw [eol_of_blank hblank] at heol
      cases heol
    have hplain : ¬ r.Escaped c rest := by
      rintro (⟨-, rfl, -⟩ | hencode)
      · cases heol
      · rw [encodeChar_eol heol, h.fFlags, hbinary] at hencode
        cases hencode
    have hturn : [0x2E] ∈ (p.turn r c rest).lines := by
      rw [Page.turn, if_neg hplain, if_neg hblank, if_neg, if_pos heol, hsame, Page.newLine, hline]
      · simp
      · rw [hcr]
        exact fun hd => by cases hd.2
    exact List.mem_append_left _ (mem_lines_putHex.mpr (mem_lines_run (p := p.turn r c rest) hturn))

/-- A text that strands a period leaves it alone on its line. -/
theorem mem_of_strands (h : Running flags r p) (front : Bytes)
    (hstrands : (r.before front (c :: rest)).Strands c rest) :
    [0x2E] ∈ ((p.run r (front ++ c :: rest)).putHex (r.addChars (front ++ c :: rest))).lines ++
      [((p.run r (front ++ c :: rest)).putHex (r.addChars (front ++ c :: rest))).line] := by
  induction front generalizing r p with
  | nil =>
    obtain ⟨hline, hempty, hcr⟩ := line_of_strands h hstrands
    exact mem_of_line (p := p.turn r c rest) h.turn hline hempty hcr
      (h.binary hstrands.2.2.2) hstrands.2.1
  | cons d front ih => exact ih h.turn hstrands

theorem running_start (flags : BitVec 32) : Running flags (start flags) ⟨[], []⟩ := by
  refine ⟨⟨rfl, rfl, Nat.zero_le _⟩, ⟨fun l hl => (List.not_mem_nil hl).elim, Part.nil⟩, rfl, ?_,
    ?_, ?_⟩
  · exact fun hne => absurd rfl hne
  · exact fun hne => absurd rfl hne
  · exact fun c hc => by cases hc

end Run

/-- What `encode()` returns is the page after the whole text. -/
theorem encode_eq_bytes (flags : BitVec 32) {s : Bytes} (h0 : 0 ∉ s) :
    encode s flags = (((⟨[], []⟩ : Page).run (start flags) s).putHex
      ((start flags).addChars s)).bytes (lineBreak flags) := by
  have hrun := (running_start flags).run s
  have hresult := (shows_finish hrun.shows).result
  rw [(finish_members _).1, hrun.fFlags] at hresult
  rw [encode, cStr_of_noNul h0, ← hresult]
  rfl

theorem wellFormed_encode (flags : BitVec 32) {s : Bytes} (h0 : 0 ∉ s) :
    WellFormed flags (encode s flags) ↔ (hasFlag flags flagNoLonePeriod = true →
      ∀ l ∈ (((⟨[], []⟩ : Page).run (start flags) s).putHex ((start flags).addChars s)).lines ++
        [(((⟨[], []⟩ : Page).run (start flags) s).putHex ((start flags).addChars s)).line],
        l ≠ [0x2E]) := by
  have hrun := (running_start flags).run s
  rw [encode_eq_bytes flags h0]
  exact wellFormed_iff (neat_putHex hrun.neat hrun.shows.short) (short_putHex hrun.shows)
    (getLast?_putHex hrun)

/-- A quoted-printable text is well formed exactly when the periods may stand alone or no period
at the end of its line comes after a space or a tab held back in column 74. -/
theorem wellFormed_encode_iff (flags : BitVec 32) {s : Bytes} (h0 : 0 ∉ s) :
    WellFormed flags (encode s flags) ↔ (hasFlag flags flagNoLonePeriod = true →
      ∀ front c back, s = front ++ c :: back →
        ¬ ((start flags).before front (c :: back)).Strands c back) := by
  rw [wellFormed_encode flags h0]
  refine imp_congr_right fun hflag => ⟨?_, ?_⟩
  · rintro hlines front c back rfl hstrands
    exact hlines _ (mem_of_strands (running_start flags) front hstrands) rfl
  · rintro hstrands l hl rfl
    have hnone : NoneAlone (start flags) ⟨[], []⟩ s :=
      ⟨List.not_mem_nil, fun hline => absurd hline (by decide)⟩
    exact hnone.run (running_start flags) hflag hstrands hl

theorem wellFormed_encode_iff_period : (0 : UInt8) ∉ [0x61, 0x2E] ∧
    (WellFormed flagNoLonePeriod (encode [0x61, 0x2E] flagNoLonePeriod) ↔
      (hasFlag flagNoLonePeriod flagNoLonePeriod = true →
        ∀ front c back, [0x61, 0x2E] = front ++ c :: back →
          ¬ ((start flagNoLonePeriod).before front (c :: back)).Strands c back)) :=
  ⟨by decide, wellFormed_encode_iff flagNoLonePeriod (by decide)⟩

/-- A line of letters and the space that is held back after them. -/
theorem before_letters {r : Encoder} {n : ℕ} (hflags : r.fFlags = flagNoLonePeriod)
    (hempty : r.fBuffer = 0) (hline : r.fLine + n ≤ 75) (rest : Bytes) :
    (r.before (List.replicate n 0x61 ++ [0x20]) rest).fLine = r.fLine + n ∧
      (r.before (List.replicate n 0x61 ++ [0x20]) rest).fBuffer = 0x20 := by
  have hencode : encodeChar flagNoLonePeriod 0x20 = false ∧
      encodeChar flagNoLonePeriod 0x61 = false := by decide
  induction n generalizing r with
  | zero =>
    have hnext : r.addNext 0x20 rest = { r with fBuffer := 0x20 } := by
      rw [Encoder.addNext, if_neg (fun hlone => absurd hlone.2.1 (by decide)), Encoder.addChar,
        hflags, hencode.1]
      simp [Encoder.addData, hempty, hflags]
    rw [List.replicate_zero, List.nil_append, Encoder.before, List.nil_append, hnext]
    exact ⟨rfl, rfl⟩
  | succ n ih =>
    have hnext (back : Bytes) : r.addNext 0x61 back =
        { r with fCr := false, fResult := r.fResult ++ [0x61], fLine := r.fLine + 1 } := by
      rw [Encoder.addNext, if_neg (fun hlone => absurd hlone.2.1 (by decide)), Encoder.addChar,
        hflags, hencode.2]
      simp [Encoder.addData, Encoder.addByte, hempty, hflags, show ¬ 75 ≤ r.fLine by omega]
    rw [List.replicate_succ, List.cons_append, Encoder.before, hnext]
    have hrest := ih (r := { r with
      fCr := false, fResult := r.fResult ++ [0x61], fLine := r.fLine + 1 }) hflags hempty
      (by show r.fLine + 1 + n ≤ 75; omega)
    refine ⟨hrest.1.trans ?_, hrest.2⟩
    show r.fLine + 1 + n = r.fLine + (n + 1)
    omega

/-- Seventy four letters, a space and a period: the period is moved to a line of its own. -/
theorem encode_strands : (0 : UInt8) ∉ List.replicate 74 0x61 ++ [0x20, 0x2E] ∧
    ¬ WellFormed flagNoLonePeriod
      (encode (List.replicate 74 0x61 ++ [0x20, 0x2E]) flagNoLonePeriod) := by
  have h0 : (0 : UInt8) ∉ List.replicate 74 0x61 ++ [0x20, 0x2E] := by decide
  refine ⟨h0, fun h => ?_⟩
  rw [wellFormed_encode _ h0] at h
  obtain ⟨hline, hbuffer⟩ := before_letters (r := start flagNoLonePeriod) (n := 74) rfl rfl
    (by decide) [0x2E]
  have hcolumn : (start flagNoLonePeriod).fLine + 74 = 74 := Nat.zero_add 74
  rw [hcolumn] at hline
  have hheld : (0x20 : UInt8) ≠ 0 := by decide
  rw [← hbuffer] at hheld
  have hstrands : ((start flagNoLonePeriod).before (List.replicate 74 0x61 ++ [0x20])
      [0x2E]).Strands 0x2E [] := ⟨rfl, rfl, hline, hheld⟩
  have halone := mem_of_strands (running_start flagNoLonePeriod) _ hstrands
  rw [List.append_assoc] at halone
  exact h (by decide) _ halone rfl

end SnapCpp.QuotedPrintable
