import SnapCpp.ConfigFile
import SnapCpp.Trimming

/-!
What a configuration file says. A text is a list of lines, each blank, a comment, the header of
a section or the setting of a variable, and it gives values to names in order. The reader gives
the same values when each line is ended and can be told from the C string in its buffer, so that
a parameter has the last value that a file or a call gave to it.
-/
namespace SnapCpp.ConfigFile

open BufferConnection (Bytes)
open LineReader (newline cBytes)
open Trimming (rdropWhile_append_all rdropWhile_append_cons dropWhile_append_cons dropWhile_all)

def trim (l : Bytes) : Bytes := (l.dropWhile isspace).rdropWhile isspace

def withoutQuotes (v : Bytes) : Bytes :=
  if 2 ≤ v.length ∧ ∃ q ∈ [quote, doubleQuote], v.head? = some q ∧ v.getLast? = some q then
    v.tail.dropLast
  else v

inductive Line where
  | blank (pad : Bytes)
  | comment (pad : Bytes) (mark : UInt8) (text : Bytes)
  | header (pad inner tail : Bytes)
  | setting (left right : Bytes)

namespace Line

def bytes : Line → Bytes
  | blank pad => pad
  | comment pad mark text => pad ++ mark :: text
  | header pad inner tail => pad ++ openBracket :: (inner ++ closeBracket :: tail)
  | setting left right => left ++ equalSign :: right

def Proper : Line → Prop
  | blank pad => ∀ c ∈ pad, isspace c
  | comment pad mark _ => (∀ c ∈ pad, isspace c) ∧ mark ∈ [numberSign, semicolon]
  | header pad inner _ => (∀ c ∈ pad, isspace c) ∧ closeBracket ∉ inner
  | setting left _ => equalSign ∉ left ∧
      ∀ c ∈ (left.dropWhile isspace).head?, c ∉ [numberSign, semicolon, openBracket]

structure WellFormed (l : Line) : Prop where
  proper : l.Proper
  one : newline ∉ l.bytes
  short : l.bytes.length ≤ 1022

def Clean : Line → Prop
  | header _ inner _ => trim inner ≠ [] ∧ ∀ c ∈ trim inner, isspace c = false ∧ c ≠ colon
  | setting _ right => trim right ∉ [[quote], [doubleQuote]]
  | _ => True

def reading (s : Reading) : Line → Reading
  | header _ inner _ => { s with sectionName := trim inner ++ ascii "::" }
  | setting left right =>
      { s with fParameters :=
          s.fParameters.insert (s.sectionName ++ trim left) (withoutQuotes (trim right)) }
  | _ => s

end Line

def given : Bytes → List Line → List (Bytes × Bytes)
  | _, [] => []
  | _, .header _ inner _ :: rest => given (trim inner ++ ascii "::") rest
  | s, .setting left right :: rest => (s ++ trim left, withoutQuotes (trim right)) :: given s rest
  | s, .blank _ :: rest => given s rest
  | s, .comment .. :: rest => given s rest

def writeLines (ended : Bool) : List Line → Bytes
  | [] => []
  | [l] => if ended then l.bytes ++ [newline] else l.bytes
  | l :: next :: rest => l.bytes ++ newline :: writeLines ended (next :: rest)

structure ConfigText where
  lines : List Line
  ended : Bool
  wellFormed : ∀ l ∈ lines, l.WellFormed

def ConfigText.bytes (t : ConfigText) : Bytes := writeLines t.ended t.lines

structure ConfigText.Clean (t : ConfigText) : Prop where
  ended : t.bytes.getLast?.all isEndOfLine
  text : 0 ∉ t.bytes
  lines : ∀ l ∈ t.lines, l.Clean

section Trimming

variable {a t : Bytes} {c : UInt8}

theorem trim_append (ht : ∀ c ∈ t, isspace c) : trim (a ++ t) = trim a := by
  unfold trim
  rw [List.dropWhile_append]
  split_ifs with ha
  · rw [List.isEmpty_iff.mp ha, dropWhile_all ht]
  · exact rdropWhile_append_all ht

theorem isspace_of_isEndOfLine (h : isEndOfLine c) : isspace c := by
  simp only [isEndOfLine, Bool.or_eq_true, beq_iff_eq] at h
  rcases h with rfl | rfl <;> rfl

theorem trim_rdropWhile (a : Bytes) : trim (a.rdropWhile isEndOfLine) = trim a := by
  have ht : ∀ c ∈ a.rtakeWhile isEndOfLine, isspace c := fun c hc =>
    isspace_of_isEndOfLine (List.mem_rtakeWhile_imp hc)
  calc trim (a.rdropWhile isEndOfLine)
      = trim (a.rdropWhile isEndOfLine ++ a.rtakeWhile isEndOfLine) := (trim_append ht).symm
    _ = trim a := by rw [List.rdropWhile_append_rtakeWhile]

end Trimming

section Reading

variable {l : Line} {e : Bytes} {s : Reading}

theorem unquote_eq {v : Bytes} (h : v ∉ [[quote], [doubleQuote]]) :
    unquote v = withoutQuotes v := by
  have hiff : (v ≠ [] ∧ ((v.head? = some quote ∧ v.getLast? = some quote) ∨
      (v.head? = some doubleQuote ∧ v.getLast? = some doubleQuote))) ↔
      2 ≤ v.length ∧ ∃ q ∈ [quote, doubleQuote], v.head? = some q ∧ v.getLast? = some q := by
    match v with
    | [] => simp
    | [c] =>
      simp only [List.mem_cons, List.cons.injEq, and_true, List.not_mem_nil, or_false, not_or] at h
      simp [h.1, h.2]
    | c :: d :: rest => simp
  unfold unquote withoutQuotes
  simp only [hiff]

theorem readConfigLine_text (htext : 0 ∉ l.bytes ++ e) (he : ∀ c ∈ e, isEndOfLine c)
    (hend : (l.bytes ++ e).getLast?.any isEndOfLine) :
    readConfigLine (l.bytes ++ e) s =
      readText ((l.bytes.rdropWhile isEndOfLine).dropWhile isspace) s := by
  have hc : cBytes (l.bytes ++ e) = l.bytes ++ e := by
    refine List.takeWhile_eq_self_iff.mpr (fun c hc => ?_)
    simpa using fun h : c = 0 => htext (h ▸ hc)
  unfold readConfigLine
  simp only [hc]
  rw [if_neg (not_not.mpr hend), rdropWhile_append_all he]

theorem readSection_eq {inner tail : Bytes} (hne : trim inner ≠ [])
    (hname : ∀ c ∈ trim inner, endsSection c = false) :
    readSection (inner ++ closeBracket :: tail) = some (trim inner) := by
  obtain ⟨space, hspace, hinner⟩ :
      ∃ space, (∀ c ∈ space, isspace c) ∧ inner.dropWhile isspace = trim inner ++ space :=
    ⟨(inner.dropWhile isspace).rtakeWhile isspace, fun c hc => List.mem_rtakeWhile_imp hc,
      (List.rdropWhile_append_rtakeWhile ..).symm⟩
  have hdrop : (inner ++ closeBracket :: tail).dropWhile isspace =
      trim inner ++ (space ++ closeBracket :: tail) := by
    rw [dropWhile_append_cons rfl, hinner, List.append_assoc]
  have hnext : ∀ c ∈ (space ++ closeBracket :: tail).head?, endsSection c := by
    intro c hc
    cases space with
    | nil =>
      obtain rfl : closeBracket = c := by simpa using hc
      rfl
    | cons d rest =>
      obtain rfl : d = c := by simpa using hc
      simp [endsSection, hspace d List.mem_cons_self]
  have hcut : ∀ x y : Bytes, (∀ c ∈ x, endsSection c = false) →
      (∀ c ∈ y.head?, endsSection c) →
      (x ++ y).takeWhile (fun c => !endsSection c) = x ∧
        (x ++ y).dropWhile (fun c => !endsSection c) = y := by
    intro x y hx hy
    have hx' : ∀ c ∈ x, !endsSection c := fun c hc => by simp [hx c hc]
    rw [List.takeWhile_append_of_pos hx', List.dropWhile_append_of_pos hx']
    cases y with
    | nil => simp
    | cons c rest => simp [hy c rfl]
  obtain ⟨htake, hrest⟩ := hcut _ _ hname hnext
  unfold readSection
  simp only [hdrop, htake, hrest]
  rw [dropWhile_append_cons rfl, dropWhile_all hspace]
  simp [hne]

theorem readVariable_eq {left : Bytes} (right : Bytes) (hleft : equalSign ∉ left) :
    readVariable (left ++ equalSign :: right) =
      some (left.rdropWhile isspace, unquote (trim right)) := by
  have hall : ∀ c ∈ left, decide (c ≠ equalSign) = true := by
    intro c hc
    exact decide_eq_true (fun h => hleft (h ▸ hc))
  unfold readVariable
  rw [List.dropWhile_append_of_pos hall, List.takeWhile_append_of_pos hall]
  simp [trim]

theorem readConfigLine_eq (hl : l.WellFormed) (hclean : l.Clean) (htext : 0 ∉ l.bytes ++ e)
    (he : ∀ c ∈ e, isEndOfLine c) (hend : (l.bytes ++ e).getLast?.any isEndOfLine) :
    readConfigLine (l.bytes ++ e) s = some (l.reading s) := by
  rw [readConfigLine_text htext he hend]
  have hproper := hl.proper
  cases l with
  | blank pad =>
    have hpad : ∀ c ∈ pad.rdropWhile isEndOfLine, isspace c := fun c hc =>
      hproper c ((List.rdropWhile_prefix ..).subset hc)
    simp only [Line.bytes]
    rw [dropWhile_all hpad]
    rfl
  | comment pad mark text =>
    obtain ⟨hpad, hmark⟩ := hproper
    simp only [List.mem_cons, List.not_mem_nil, or_false] at hmark
    have hspace : isspace mark = false ∧ isEndOfLine mark = false := by
      rcases hmark with rfl | rfl <;> exact ⟨rfl, rfl⟩
    simp only [Line.bytes]
    rw [rdropWhile_append_cons hspace.2, dropWhile_append_cons hspace.1, dropWhile_all hpad]
    exact if_pos hmark
  | header pad inner tail =>
    obtain ⟨hpad, hinner⟩ := hproper
    have hname : ∀ c ∈ trim inner, endsSection c = false := by
      intro c hc
      have hmem : c ∈ inner :=
        (List.dropWhile_suffix _).subset ((List.rdropWhile_prefix ..).subset hc)
      have hne : c ≠ closeBracket := fun h => hinner (h ▸ hmem)
      simp [endsSection, hclean.2 c hc, hne]
    simp only [Line.bytes]
    rw [rdropWhile_append_cons rfl, rdropWhile_append_cons rfl, dropWhile_append_cons rfl,
      dropWhile_all hpad]
    simp only [List.nil_append, readText]
    rw [if_neg (by decide), if_pos trivial, readSection_eq hclean.1 hname]
    rfl
  | setting left right =>
    obtain ⟨hleft, hmark⟩ := hproper
    have hname : equalSign ∉ left.dropWhile isspace := fun h =>
      hleft ((List.dropWhile_suffix _).subset h)
    have hread := readVariable_eq (right.rdropWhile isEndOfLine) hname
    rw [trim_rdropWhile, unquote_eq hclean] at hread
    simp only [Line.bytes]
    rw [rdropWhile_append_cons rfl, dropWhile_append_cons rfl]
    cases hcase : left.dropWhile isspace with
    | nil =>
      rw [hcase] at hread
      simp only [List.nil_append, readText] at hread ⊢
      rw [if_neg (by decide), if_neg (by decide), hread]
      simp [Line.reading, trim, hcase]
    | cons c rest =>
      rw [hcase] at hread hmark
      simp only [List.cons_append, readText] at hread ⊢
      have hne := hmark c rfl
      simp only [List.mem_cons, List.not_mem_nil, or_false, not_or] at hne
      rw [if_neg (by simp [hne]), if_neg hne.2.2, hread]
      simp [Line.reading, trim, hcase]

end Reading

section Lines

variable {ls : List Line} {ended : Bool} {s : Reading} {l : Line} {turns : ℕ}

theorem readLine_ended {n : ℕ} {l : Bytes} (rest : Bytes) (hl : newline ∉ l)
    (hn : l.length < n) : readLine n (l ++ newline :: rest) = (l ++ [newline], rest) := by
  induction l generalizing n with
  | nil =>
    obtain ⟨m, rfl⟩ := Nat.exists_eq_add_of_lt hn
    simp [readLine]
  | cons c l ih =>
    obtain ⟨m, rfl⟩ := Nat.exists_eq_add_of_lt (Nat.lt_of_le_of_lt (Nat.zero_le _) hn)
    rw [Nat.zero_add] at hn ⊢
    obtain ⟨hc, hl⟩ := not_or.mp (mt List.mem_cons.mpr hl)
    have hrest := ih hl (Nat.lt_of_succ_lt_succ hn)
    rw [List.cons_append, readLine, if_neg (Ne.symm hc), hrest]
    rfl

theorem readLine_last {n : ℕ} {l : Bytes} (hl : newline ∉ l) (hn : l.length ≤ n) :
    readLine n l = (l, []) := by
  induction l generalizing n with
  | nil => cases n <;> rfl
  | cons c l ih =>
    obtain ⟨m, rfl⟩ := Nat.exists_eq_add_of_lt (Nat.lt_of_lt_of_le (Nat.succ_pos _) hn)
    rw [Nat.zero_add] at hn ⊢
    obtain ⟨hc, hl⟩ := not_or.mp (mt List.mem_cons.mpr hl)
    have hrest := ih hl (Nat.le_of_succ_le_succ hn)
    rw [readLine, if_neg (Ne.symm hc), hrest]

theorem reading_of_bytes_nil (h : l.bytes = []) : l.reading s = s := by
  cases l with
  | blank pad => rfl
  | comment pad mark text => simp [Line.bytes] at h
  | header pad inner tail => simp [Line.bytes] at h
  | setting left right => simp [Line.bytes] at h

theorem readConfigLines_ended {rest : Bytes} (hl : l.WellFormed)
    (hclean : l.Clean) (htext : 0 ∉ l.bytes) :
    readConfigLines (turns + 1) (l.bytes ++ newline :: rest) s =
      readConfigLines turns rest (l.reading s) := by
  have hline : readConfigLine (l.bytes ++ [newline]) s = some (l.reading s) := by
    refine readConfigLine_eq hl hclean ?_ ?_ ?_
    · simp [htext, newline]
    · simp [isEndOfLine]
    · simp [isEndOfLine]
  rw [readConfigLines, readLine_ended rest hl.one (Nat.lt_succ_of_le hl.short)]
  simp [hline]

theorem readConfigLines_nil (turns : ℕ) : readConfigLines turns [] s = some s := by
  cases turns with
  | zero => rfl
  | succ turns => simp [readConfigLines, readLine]

theorem readConfigLines_last (hturns : l.bytes.length ≤ turns)
    (hl : l.WellFormed) (hclean : l.Clean) (htext : 0 ∉ l.bytes)
    (hend : l.bytes.getLast?.all isEndOfLine) :
    readConfigLines turns l.bytes s = some (l.reading s) := by
  by_cases hnil : l.bytes = []
  · rw [reading_of_bytes_nil hnil, hnil, readConfigLines_nil]
  · have hpos : 0 < turns := Nat.lt_of_lt_of_le (List.length_pos_iff.mpr hnil) hturns
    obtain ⟨turns, rfl⟩ := Nat.exists_eq_succ_of_ne_zero (Nat.ne_of_gt hpos)
    have hany : l.bytes.getLast?.any isEndOfLine := by
      rw [List.getLast?_eq_some_getLast hnil] at hend ⊢
      simpa using hend
    have hline : readConfigLine l.bytes s = some (l.reading s) := by
      have h := readConfigLine_eq (e := []) (s := s) hl hclean
        (by rwa [List.append_nil]) (by simp) (by rwa [List.append_nil])
      rwa [List.append_nil] at h
    have hshort : l.bytes.length ≤ 1023 := Nat.le_succ_of_le hl.short
    rw [Nat.succ_eq_add_one, readConfigLines, readLine_last hl.one hshort]
    simp [hnil, hline, readConfigLines_nil]

theorem readConfigLines_eq (hturns : (writeLines ended ls).length ≤ turns)
    (hl : ∀ l ∈ ls, l.WellFormed) (hclean : ∀ l ∈ ls, l.Clean)
    (htext : 0 ∉ writeLines ended ls) (hend : (writeLines ended ls).getLast?.all isEndOfLine) :
    readConfigLines turns (writeLines ended ls) s = some (ls.foldl Line.reading s) := by
  induction ls generalizing turns s with
  | nil => exact readConfigLines_nil turns
  | cons l rest ih =>
    obtain ⟨hfirst, hlrest⟩ := List.forall_mem_cons.mp hl
    obtain ⟨hcleanfirst, hcleanrest⟩ := List.forall_mem_cons.mp hclean
    cases rest with
    | nil =>
      simp only [writeLines] at hturns htext hend ⊢
      split_ifs at hturns htext hend ⊢ with hended
      · cases turns with
        | zero => simp at hturns
        | succ turns =>
          have htextl : 0 ∉ l.bytes := fun h => htext (List.mem_append_left _ h)
          rw [readConfigLines_ended hfirst hcleanfirst htextl, readConfigLines_nil]
          rfl
      · exact readConfigLines_last hturns hfirst hcleanfirst htext hend
    | cons next rest =>
      simp only [writeLines, List.length_append, List.length_cons] at hturns
      simp only [writeLines] at htext hend ⊢
      cases turns with
      | zero => simp at hturns
      | succ turns =>
        have htextl : 0 ∉ l.bytes := fun h => htext (List.mem_append_left _ h)
        have htextrest : 0 ∉ writeLines ended (next :: rest) := fun h =>
          htext (List.mem_append_right _ (List.mem_cons_of_mem _ h))
        have hendrest : (writeLines ended (next :: rest)).getLast?.all isEndOfLine := by
          cases hlast : (writeLines ended (next :: rest)).getLast? with
          | none => rfl
          | some c =>
            rw [List.getLast?_append, List.getLast?_cons, hlast] at hend
            exact hend
        rw [readConfigLines_ended hfirst hcleanfirst htextl,
          ih (by omega) hlrest hcleanrest htextrest hendrest]
        rfl

end Lines

section Values

/-- The parameters after values were given one after the other. -/
def giveAll (values : List (Bytes × Bytes)) (m : ParameterMap) : ParameterMap :=
  values.foldl (fun m e => m.insert e.1 e.2) m

def lastGiven (name : Bytes) (values : List (Bytes × Bytes)) : Option Bytes :=
  (values.reverse.find? (fun e => e.1 = name)).map Prod.snd

variable {name : Bytes} {values more : List (Bytes × Bytes)} {m : ParameterMap}

theorem giveAll_append : giveAll (values ++ more) m = giveAll more (giveAll values m) :=
  List.foldl_append ..

theorem find?_giveAll : (giveAll values m).find? name =
    (lastGiven name values).or (m.find? name) := by
  induction values using List.reverseRecOn with
  | nil => rfl
  | append_singleton front e ih =>
    rw [giveAll_append]
    unfold lastGiven at ih ⊢
    rw [List.reverse_concat, List.find?_cons]
    by_cases he : name = e.1
    · simp [giveAll, he]
    · have hne : decide (e.1 = name) = false := decide_eq_false (Ne.symm he)
      rw [hne, ← ih]
      simp [giveAll, he]

theorem foldl_reading (ls : List Line) (s : Reading) :
    (ls.foldl Line.reading s).fParameters =
      giveAll (given s.sectionName ls) s.fParameters := by
  induction ls generalizing s with
  | nil => rfl
  | cons l rest ih =>
    rw [List.foldl_cons, ih]
    cases l <;> rfl

end Values

section Calls

/-- A call on a configuration file. A file on the disk has contents of a type: bytes to the
code, a text to the one who wrote it. -/
inductive Call (T : Type) where
  | readConfigFile (disk : Bytes → Option T)
  | setParameter (name value : Bytes)
  | setParameters (params : ParameterMap)

def Call.written : Call ConfigText → Call Bytes
  | readConfigFile disk => readConfigFile fun filename => (disk filename).map ConfigText.bytes
  | setParameter name value => setParameter name value
  | setParameters params => setParameters params

namespace SnapConfigFile

variable (path : Bytes) (c : SnapConfigFile)

def call (c : SnapConfigFile) : Call Bytes → Option SnapConfigFile
  | .readConfigFile disk => c.readConfigFile path disk
  | .setParameter name value => some (c.setParameter name value)
  | .setParameters params => some (c.setParameters params)

def textsRead (disk : Bytes → Option ConfigText) : List ConfigText :=
  match disk (c.mainFile path) with
  | none => []
  | some t => t :: ((c.secondFile path).bind disk).toList

def givenBy : Call ConfigText → List (Bytes × Bytes)
  | .readConfigFile disk => (c.textsRead path disk).flatMap fun t => given [] t.lines
  | .setParameter name value => [(name, value)]
  | .setParameters params => params.entries

/-- What is read is clean, and `set_parameters()` changes no value that is there. -/
def Meets : Call ConfigText → Prop
  | .readConfigFile disk => ∀ t ∈ c.textsRead path disk, t.Clean
  | .setParameter .. => True
  | .setParameters params =>
      ∀ e ∈ params.entries, ∀ v, c.fParameters.find? e.1 = some v → v = e.2

def AllMeet : SnapConfigFile → List (Call ConfigText) → Prop
  | _, [] => True
  | c, op :: rest => c.Meets path op ∧ ∀ d, c.call path op.written = some d → AllMeet d rest

variable {path c} {m : ParameterMap}

theorem actualReadConfigFile_eq {disk : Bytes → Option ConfigText} {filename : Bytes}
    (h : ∀ t ∈ disk filename, t.Clean) :
    actualReadConfigFile (fun f => (disk f).map ConfigText.bytes) filename m =
      some ((disk filename).isSome,
        giveAll ((disk filename).toList.flatMap fun t => given [] t.lines) m) := by
  unfold actualReadConfigFile
  cases hfile : disk filename with
  | none =>
    simp only [hfile]
    rfl
  | some t =>
    have hclean := h t hfile
    have hread : readConfigLines t.bytes.length t.bytes ⟨[], m⟩ =
        some (t.lines.foldl Line.reading ⟨[], m⟩) :=
      readConfigLines_eq (Nat.le_refl _) t.wellFormed hclean.lines hclean.text hclean.ended
    simp only [hfile, Option.map_some, hread, foldl_reading]
    simp

theorem readConfigFile_eq {disk : Bytes → Option ConfigText}
    (h : ∀ t ∈ c.textsRead path disk, t.Clean) :
    c.readConfigFile path (fun f => (disk f).map ConfigText.bytes) =
      some { c with
        fExists := (disk (c.mainFile path)).isSome
        fParameters := giveAll (c.givenBy path (.readConfigFile disk)) c.fParameters } := by
  have hmain : ∀ t ∈ disk (c.mainFile path), t.Clean := by
    intro t ht
    refine h t ?_
    simp only [textsRead, Option.mem_def.mp ht]
    exact List.mem_cons_self
  unfold readConfigFile
  rw [actualReadConfigFile_eq hmain, Option.bind_some]
  cases hfile : disk (c.mainFile path) with
  | none => simp [givenBy, textsRead, hfile, giveAll]
  | some t =>
    cases hsecond : c.secondFile path with
    | none => simp [givenBy, textsRead, hfile, hsecond]
    | some filename =>
      have hclean : ∀ t ∈ disk filename, t.Clean := by
        intro t' ht
        refine h t' ?_
        simp [textsRead, hfile, hsecond, Option.mem_def.mp ht]
      simp only [Option.isSome_some, actualReadConfigFile_eq hclean, Option.map_some]
      simp [givenBy, textsRead, hfile, hsecond, giveAll_append]

theorem insertEntry_eq {e : Bytes × Bytes}
    (h : ∀ v, m.find? e.1 = some v → v = e.2) : insertEntry m e = m.insert e.1 e.2 := by
  unfold insertEntry
  split_ifs with hhas
  · obtain ⟨v, hv⟩ := Option.ne_none_iff_exists'.mp hhas
    refine OrderedMap.ext_find? _ _ (fun k => ?_)
    rw [OrderedMap.find?_insert]
    split_ifs with hk
    · rw [hk, hv, h v hv]
    · rfl
  · rfl

theorem foldl_insertEntry {entries : List (Bytes × Bytes)} (hnodup : (entries.map Prod.fst).Nodup)
    (h : ∀ e ∈ entries, ∀ v, m.find? e.1 = some v → v = e.2) :
    entries.foldl insertEntry m = giveAll entries m := by
  induction entries generalizing m with
  | nil => rfl
  | cons e rest ih =>
    obtain ⟨hfirst, hrest⟩ := List.forall_mem_cons.mp h
    obtain ⟨hnotMem, hnodup⟩ := List.nodup_cons.mp hnodup
    rw [List.foldl_cons, insertEntry_eq hfirst]
    refine ih hnodup (fun e' he' v hv => hrest e' he' v ?_)
    have hne : e'.1 ≠ e.1 := fun heq => hnotMem (heq ▸ List.mem_map_of_mem he')
    rwa [OrderedMap.find?_insert, if_neg hne] at hv

/-- A call that meets the condition gives its values, and the file keeps its names. -/
theorem call_eq {op : Call ConfigText} (h : c.Meets path op) :
    ∃ d, c.call path op.written = some d ∧
      d.fConfigurationFilename = c.fConfigurationFilename ∧
      d.fOverrideFilename = c.fOverrideFilename ∧
      d.fParameters = giveAll (c.givenBy path op) c.fParameters := by
  cases op with
  | readConfigFile disk => exact ⟨_, readConfigFile_eq h, rfl, rfl, rfl⟩
  | setParameter name value => exact ⟨_, rfl, rfl, rfl, rfl⟩
  | setParameters params =>
    exact ⟨_, rfl, rfl, rfl, foldl_insertEntry params.keys_nodup h⟩

theorem givenBy_congr {d : SnapConfigFile}
    (hmain : d.fConfigurationFilename = c.fConfigurationFilename)
    (hover : d.fOverrideFilename = c.fOverrideFilename) : d.givenBy path = c.givenBy path := by
  funext op
  cases op <;> simp [givenBy, textsRead, mainFile, secondFile, hmain, hover]

theorem calls_eq {ops : List (Call ConfigText)} (h : AllMeet path c ops) :
    ∃ d, (ops.map Call.written).foldlM (call path) c = some d ∧
      d.fParameters = giveAll (ops.flatMap (c.givenBy path)) c.fParameters := by
  induction ops generalizing c with
  | nil => exact ⟨c, rfl, rfl⟩
  | cons op rest ih =>
    obtain ⟨d, hcall, hmain, hover, hparameters⟩ := call_eq h.1
    obtain ⟨final, hrun, hfinal⟩ := ih (h.2 d hcall)
    refine ⟨final, ?_, ?_⟩
    · rw [List.map_cons, List.foldlM_cons, hcall]
      exact hrun
    · rw [hfinal, hparameters, givenBy_congr hmain hover, List.flatMap_cons, giveAll_append]

def KeepsLast (path configurationFilename overrideFilename : Bytes)
    (ops : List (Call ConfigText)) : Prop :=
  ∃ c, (ops.map Call.written).foldlM (call path)
      (create configurationFilename overrideFilename) = some c ∧
    ∀ name, c.getParameter name =
      (lastGiven name (ops.flatMap
        ((create configurationFilename overrideFilename).givenBy path))).getD []

/-- The runs whose calls meet the condition keep the last value of each parameter. -/
theorem keepsLast_of_allMeet (path configurationFilename overrideFilename : Bytes)
    (ops : List (Call ConfigText))
    (h : AllMeet path (create configurationFilename overrideFilename) ops) :
    KeepsLast path configurationFilename overrideFilename ops := by
  obtain ⟨c, hrun, hparameters⟩ := calls_eq h
  refine ⟨c, hrun, fun name => ?_⟩
  rw [getParameter, hparameters, find?_giveAll, create, OrderedMap.find?_empty, Option.or_none]

theorem setting_wellFormed {value : Bytes} (hone : newline ∉ ascii "a=" ++ value)
    (hshort : (ascii "a=" ++ value).length ≤ 1022) :
    (Line.setting (ascii "a") value).WellFormed := by
  have hfirst : ((ascii "a").dropWhile isspace).head? = some 97 := by decide
  refine ⟨⟨by decide, ?_⟩, hone, hshort⟩
  intro c hc
  obtain rfl : 97 = c := by simpa [hfirst] using hc
  decide

def sectionText (value : Bytes) (ended : Bool) (hone : newline ∉ ascii "a=" ++ value)
    (hshort : (ascii "a=" ++ value).length ≤ 1022) : ConfigText where
  lines := [.header [] (ascii "s") [], .setting (ascii "a") value]
  ended := ended
  wellFormed := by
    have hheader : (Line.header [] (ascii "s") []).WellFormed :=
      ⟨⟨by simp, by decide⟩, by decide, by decide⟩
    simpa using ⟨hheader, setting_wellFormed hone hshort⟩

def mixedCalls : List (Call ConfigText) :=
  [.setParameters ⟨[(ascii "s::a", ascii "1")], by simp⟩, .setParameter (ascii "b") (ascii "2"),
    .readConfigFile fun _ => some (sectionText (ascii " 'x y' ") true (by decide) (by decide))]

theorem keepsLast_mixed : KeepsLast [] (ascii "a.conf") [] mixedCalls := by
  apply keepsLast_of_allMeet
  refine ⟨fun e _ v hv => by simp [create] at hv, ?_⟩
  intro c hc
  cases hc
  refine ⟨trivial, ?_⟩
  intro c hc
  cases hc
  refine ⟨?_, fun _ _ => trivial⟩
  intro t ht
  obtain rfl := List.mem_singleton.mp ht
  refine ⟨by decide, by decide, ?_⟩
  intro l hl
  simp only [sectionText, List.mem_cons, List.not_mem_nil, or_false] at hl
  rcases hl with rfl | rfl
  · have htrim : trim (ascii "s") = [115] := by decide
    refine ⟨by decide, fun c hc => ?_⟩
    rw [htrim, List.mem_singleton] at hc
    rw [hc]
    decide
  · intro hquote
    have hlength : (trim (ascii " 'x y' ")).length = 5 := by decide
    rcases List.mem_pair.mp hquote with h | h <;> simp [h] at hlength

/-- `set_parameters()` leaves the value that is there, a last line without its end ends the
process, and a quote alone is taken away. -/
theorem last_given_lost :
    ¬ KeepsLast [] (ascii "a.conf") [] [.setParameter (ascii "a") (ascii "1"),
        .setParameters ⟨[(ascii "a", ascii "2")], by simp⟩] ∧
      ¬ KeepsLast [] (ascii "a.conf") [] [.readConfigFile fun _ =>
        some (sectionText (ascii "b") false (by decide) (by decide))] ∧
      ¬ KeepsLast [] (ascii "a.conf") [] [.readConfigFile fun _ =>
        some (sectionText (ascii "'") true (by decide) (by decide))] := by
  refine ⟨?_, ?_, ?_⟩
  · rintro ⟨c, hrun, hlast⟩
    cases hrun
    exact absurd (hlast (ascii "a")) (by decide)
  · rintro ⟨c, hrun, hlast⟩
    cases hrun
  · rintro ⟨c, hrun, hlast⟩
    cases hrun
    exact absurd (hlast (ascii "s::a")) (by decide)

end SnapConfigFile

end Calls

end SnapCpp.ConfigFile
