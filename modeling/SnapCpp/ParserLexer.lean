import SnapCpp.ParserGrammar
import SnapCpp.QNumber

/-!
The lexer of the parser. `next_token()` starts again behind white space and comments, and reads
one token: an operator, a string, a number, a name or a character. The position is the characters
that it has not passed yet. A read at the end of the input is recorded; what is read there is the
null character that terminates every text.
-/
namespace SnapCpp.ParserLexer

open SnapCpp.Parser (Token)

def unit (c : Char) : UInt16 := c.toNat.toUInt16

def newline : UInt16 := 10
def carriageReturn : UInt16 := 13
def quote : UInt16 := 34
def star : UInt16 := 42
def slash : UInt16 := 47
def backslash : UInt16 := 92

def isLineEnd (c : UInt16) : Bool := c == newline || c == carriageReturn

def isHexDigit (c : UInt16) : Bool :=
  QString.isDigit c || (65 ≤ c && c ≤ 70) || (97 ≤ c && c ≤ 102)

/-- The functions of Qt and of C. `isxdigit()` is only defined for the values of a byte. -/
structure Platform where
  isxdigit : UInt16 → Bool
  isxdigit_byte : ∀ c : UInt16, c.toNat < 256 → isxdigit c = isHexDigit c
  fromUcs4 : UInt32 → QString
  toDoubleOk : QString → Bool

def isOctalDigit (c : UInt16) : Bool := 48 ≤ c && c ≤ 55

def isNameStart (c : UInt16) : Bool := (97 ≤ c && c ≤ 122) || (65 ≤ c && c ≤ 90) || c == 95

def isNameCharacter (c : UInt16) : Bool := isNameStart c || QString.isDigit c

/-- The lambda `xdigit`. -/
def xdigit (c : UInt16) : ℤ :=
  if QString.isDigit c then c.toNat - 48
  else if 97 ≤ c && c ≤ 102 then c.toNat - 87
  else if 65 ≤ c && c ≤ 70 then c.toNat - 55
  else -1

def afterComment : QString → Option QString
  | [] => none
  | [_] => none
  | c :: d :: rest => if c = star ∧ d = slash then some rest else afterComment (d :: rest)

/-- What is deleted from the input before `goto restart`: what is left behind it, and the lines
that are counted. -/
def skip : QString → Option (QString × ℕ)
  | [] => none
  | c :: rest =>
      if c = newline then some (rest, 1)
      else if c = carriageReturn then
        some (if rest.head? = some newline then rest.tail else rest, 1)
      else if c = unit ' ' ∨ c = unit '\t' then some (rest, 0)
      else if c = slash ∧ rest.head? = some slash then
        match rest.tail.dropWhile (fun d => !isLineEnd d) with
        | [] => none
        | d :: more => some (d :: more, 0)
      else if c = slash ∧ rest.head? = some star then
        (afterComment rest.tail).map fun more => (more, 0)
      else none

theorem length_afterComment {s rest : QString} (h : afterComment s = some rest) :
    rest.length < s.length := by
  induction s using afterComment.induct with
  | case1 => cases h
  | case2 => cases h
  | case3 c d more hend =>
    rw [afterComment, if_pos hend] at h
    cases h
    simp only [List.length_cons]
    omega
  | case4 c d more hend ih =>
    rw [afterComment, if_neg hend] at h
    exact (ih h).trans (Nat.lt_succ_self _)

theorem length_skip {s rest : QString} {n : ℕ} (h : skip s = some (rest, n)) :
    rest.length < s.length := by
  cases s with
  | nil => cases h
  | cons c more =>
    have htail : more.tail.length ≤ more.length := by simp
    rw [skip] at h
    split_ifs at h with hnewline hreturn hpair hblank hline hcomment
    · cases h
      exact Nat.lt_succ_self _
    · cases h
      exact Nat.lt_succ_of_le htail
    · cases h
      exact Nat.lt_succ_self _
    · cases h
      exact Nat.lt_succ_self _
    · split at h
      · cases h
      · rename_i d left hdrop
        cases h
        rw [← hdrop]
        exact Nat.lt_succ_of_le ((List.dropWhile_sublist _).length_le.trans htail)
    · obtain ⟨left, hafter, hsome⟩ := Option.map_eq_some_iff.mp h
      cases hsome
      exact Nat.lt_succ_of_lt ((length_afterComment hafter).trans_le htail)

section Strings

variable (p : Platform)

/-- The digits of `\u` and `\U`, at most so many: their value, what is left, and whether the
position behind the input was read. -/
def unicodeDigits : ℕ → ℤ → QString → ℤ × QString × Bool
  | 0, v, rest => (v, rest, false)
  | _ + 1, v, [] => (v, [], true)
  | n + 1, v, c :: rest =>
      if p.isxdigit c then unicodeDigits n (v * 16 + xdigit c) rest else (v, c :: rest, false)

def moreDigits (test : UInt16 → Bool) (value : ℤ → UInt16 → ℤ) : ℕ → ℤ → QString → ℤ × QString
  | 0, v, rest => (v, rest)
  | _ + 1, v, [] => (v, [])
  | n + 1, v, c :: rest =>
      if test c then moreDigits test value n (value v c) rest else (v, c :: rest)

def controls : List (UInt16 × UInt16) :=
  [(unit 'a', 7), (unit 'b', 8), (unit 'f', 12), (unit 'n', 10), (unit 'r', 13), (unit 't', 9),
    (unit 'v', 11)]

/-- What the switch on the character after a backslash appends, what is left, and whether the
position behind the input was read. -/
def escape (c : UInt16) (rest : QString) : QString × QString × Bool :=
  match controls.lookup c with
  | some control => ([control], rest, false)
  | none =>
      if isOctalDigit c then
        let (v, left) := moreDigits isOctalDigit (fun v d => v * 8 + d.toNat - 48) 2
          (c.toNat - 48) rest
        ([UInt16.ofInt v], left, false)
      else if c = unit 'x' ∨ c = unit 'X' then
        match rest with
        | [] => ([], [], false)
        | d :: more =>
            if p.isxdigit d then
              let (v, left) :=
                moreDigits p.isxdigit (fun v d => v * 16 + xdigit d) 1 (xdigit d) more
              ([UInt16.ofInt v], left, false)
            else ([], d :: more, false)
      else if c = unit 'u' then
        let (v, left, outside) := unicodeDigits p 4 0 rest
        ([UInt16.ofInt v], left, outside)
      else if c = unit 'U' then
        let (v, left, outside) := unicodeDigits p 8 0 rest
        (p.fromUcs4 (UInt32.ofInt v), left, outside)
      else ([c], rest, false)

/-- All are digits that `isxdigit()` accepts. -/
def Digits (ds : QString) : Prop := ∀ d ∈ ds, p.isxdigit d = true

theorem moreDigits_spec {test : UInt16 → Bool} (value : ℤ → UInt16 → ℤ)
    (htest : ∀ d, test d = true → p.isxdigit d = true) (n : ℕ) (v : ℤ) (rest : QString) :
    ∃ ds, rest = ds ++ (moreDigits test value n v rest).2 ∧ Digits p ds := by
  induction n, v, rest using moreDigits.induct test value with
  | case1 v rest => exact ⟨[], rfl, List.forall_mem_nil _⟩
  | case2 n v => exact ⟨[], rfl, List.forall_mem_nil _⟩
  | case3 n v c rest hc ih =>
    obtain ⟨ds, hrest, hds⟩ := ih
    refine ⟨c :: ds, ?_, List.forall_mem_cons.mpr ⟨htest c hc, hds⟩⟩
    rw [moreDigits, if_pos hc, List.cons_append, ← hrest]
  | case4 n v c rest hc =>
    refine ⟨[], ?_, List.forall_mem_nil _⟩
    rw [moreDigits, if_neg hc, List.nil_append]

theorem unicodeDigits_spec (n : ℕ) (v : ℤ) (rest : QString) :
    ∃ ds, rest = ds ++ (unicodeDigits p n v rest).2.1 ∧ Digits p ds ∧
      ((unicodeDigits p n v rest).2.2 = true →
        (unicodeDigits p n v rest).2.1 = [] ∧ ds.length < n) := by
  induction n, v, rest using unicodeDigits.induct p with
  | case1 v rest => exact ⟨[], rfl, List.forall_mem_nil _, fun h => absurd h Bool.false_ne_true⟩
  | case2 n v => exact ⟨[], rfl, List.forall_mem_nil _, fun _ => ⟨rfl, Nat.succ_pos n⟩⟩
  | case3 n v c rest hc ih =>
    obtain ⟨ds, hrest, hds, houtside⟩ := ih
    rw [unicodeDigits, if_pos hc]
    refine ⟨c :: ds, ?_, List.forall_mem_cons.mpr ⟨hc, hds⟩, fun h => ?_⟩
    · rw [List.cons_append, ← hrest]
    · exact ⟨(houtside h).1, Nat.succ_lt_succ (houtside h).2⟩
  | case4 n v c rest hc =>
    rw [unicodeDigits, if_neg hc]
    exact ⟨[], rfl, List.forall_mem_nil _, fun h => absurd h Bool.false_ne_true⟩

theorem isxdigit_of_octal {d : UInt16} (h : isOctalDigit d = true) : p.isxdigit d = true := by
  simp only [isOctalDigit, Bool.and_eq_true, decide_eq_true_eq, UInt16.le_iff_toNat_le] at h
  have hlow : (48 : UInt16).toNat = 48 := rfl
  have hhigh : (55 : UInt16).toNat = 55 := rfl
  rw [hlow, hhigh] at h
  rw [p.isxdigit_byte d (by omega), isHexDigit, QString.isDigit]
  simp only [Bool.or_eq_true, Bool.and_eq_true, decide_eq_true_eq, UInt16.le_iff_toNat_le]
  have hnine : (57 : UInt16).toNat = 57 := rfl
  rw [hlow, hnine]
  omega

/-- What an escape does with what follows its character: it passes some digits, and reads the
position behind the input when these are the rest of it and `\u` or `\U` takes more of them. -/
structure Escapes (p : Platform) (c : UInt16) (rest ds : QString) (e : QString × QString × Bool) :
    Prop where
  passed : rest = ds ++ e.2.1
  digits : Digits p ds
  outside : e.2.2 = true →
    e.2.1 = [] ∧ (c = unit 'u' ∧ ds.length < 4 ∨ c = unit 'U' ∧ ds.length < 8)

theorem escapes_none (c : UInt16) (rest str : QString) : Escapes p c rest [] (str, rest, false) :=
  ⟨rfl, List.forall_mem_nil _, fun h => absurd h Bool.false_ne_true⟩

theorem escape_spec (c : UInt16) (rest : QString) :
    ∃ ds, Escapes p c rest ds (escape p c rest) := by
  unfold escape
  cases controls.lookup c with
  | some control => exact ⟨[], escapes_none p c rest _⟩
  | none =>
    dsimp only
    by_cases hoctal : isOctalDigit c = true
    · obtain ⟨ds, hrest, hds⟩ := moreDigits_spec p (fun v d => v * 8 + d.toNat - 48)
        (fun d => isxdigit_of_octal p) 2 (c.toNat - 48) rest
      rw [if_pos hoctal]
      exact ⟨ds, hrest, hds, fun h => absurd h Bool.false_ne_true⟩
    rw [if_neg hoctal]
    by_cases hx : c = unit 'x' ∨ c = unit 'X'
    · rw [if_pos hx]
      cases rest with
      | nil => exact ⟨[], escapes_none p c [] _⟩
      | cons d more =>
        dsimp only
        by_cases hd : p.isxdigit d = true
        · obtain ⟨ds, hrest, hds⟩ := moreDigits_spec p (fun v d => v * 16 + xdigit d)
            (fun d hd => hd) 1 (xdigit d) more
          rw [if_pos hd]
          exact ⟨d :: ds, congrArg (List.cons d) hrest, List.forall_mem_cons.mpr ⟨hd, hds⟩,
            fun h => absurd h Bool.false_ne_true⟩
        · rw [if_neg hd]
          exact ⟨[], escapes_none p c (d :: more) _⟩
    rw [if_neg hx]
    by_cases hu : c = unit 'u'
    · obtain ⟨ds, hrest, hds, houtside⟩ := unicodeDigits_spec p 4 0 rest
      rw [if_pos hu]
      exact ⟨ds, hrest, hds, fun h => ⟨(houtside h).1, Or.inl ⟨hu, (houtside h).2⟩⟩⟩
    rw [if_neg hu]
    by_cases hU : c = unit 'U'
    · obtain ⟨ds, hrest, hds, houtside⟩ := unicodeDigits_spec p 8 0 rest
      rw [if_pos hU]
      exact ⟨ds, hrest, hds, fun h => ⟨(houtside h).1, Or.inr ⟨hU, (houtside h).2⟩⟩⟩
    · rw [if_neg hU]
      exact ⟨[], escapes_none p c rest _⟩

theorem length_escape (c : UInt16) (rest : QString) :
    (escape p c rest).2.1.length ≤ rest.length := by
  obtain ⟨ds, he⟩ := escape_spec p c rest
  have hlength := congrArg List.length he.passed
  rw [List.length_append] at hlength
  omega

def readString (rest : QString) (str : QString) (outside : Bool) : QString × QString × Bool :=
  match rest with
  | [] => (str, [], outside)
  | c :: more =>
      if c = quote then (str, c :: more, outside)
      -- strings cannot continue after the end of a line
      else if isLineEnd c then (str, c :: more, outside)
      else if c = backslash then
        match more with
        | [] => (str, [], outside)
        | d :: left =>
            readString (escape p d left).2.1 (str ++ (escape p d left).1)
              (outside || (escape p d left).2.2)
      else readString more (str ++ [c]) outside
termination_by rest.length
decreasing_by
  · have := length_escape p d left
    simp only [List.length_cons]
    omega
  · exact Nat.lt_succ_self _

@[simp] theorem readString_nil (str : QString) (outside : Bool) :
    readString p [] str outside = (str, [], outside) := by
  rw [readString]

theorem readString_stop {c : UInt16} (rest str : QString) (outside : Bool)
    (h : c = quote ∨ isLineEnd c = true) :
    readString p (c :: rest) str outside = (str, c :: rest, outside) := by
  rw [readString.eq_def]
  dsimp only
  by_cases hquote : c = quote
  · rw [if_pos hquote]
  · rw [if_neg hquote, if_pos (h.resolve_left hquote)]

theorem readString_backslash (str : QString) (outside : Bool) :
    readString p [backslash] str outside = (str, [], outside) := by
  rw [readString.eq_def]
  rfl

theorem readString_escaped (d : UInt16) (rest str : QString) (outside : Bool) :
    readString p (backslash :: d :: rest) str outside =
      readString p (escape p d rest).2.1 (str ++ (escape p d rest).1)
        (outside || (escape p d rest).2.2) := by
  rw [readString.eq_def]
  rfl

theorem readString_plain {c : UInt16} (rest str : QString) (outside : Bool) (hquote : c ≠ quote)
    (hline : isLineEnd c = false) (hbackslash : c ≠ backslash) :
    readString p (c :: rest) str outside = readString p rest (str ++ [c]) outside := by
  rw [readString.eq_def]
  dsimp only
  rw [if_neg hquote, if_neg (by rw [hline]; exact Bool.false_ne_true), if_neg hbackslash]

end Strings

section Tokens

inductive ErrorCode where
  | none
  | invalidString
  | invalidCComment
  | invalidNumber
deriving DecidableEq

/-- The identifier and the value of the token that `next_token()` returns. -/
inductive Outcome where
  | none
  | error
  | token (t : Token)
deriving DecidableEq

/-- A token that was read: what is left of the input behind it, the error that it sets, and
whether the position behind the input was read. -/
structure Scanned where
  outcome : Outcome
  rest : QString
  error : Option (ErrorCode × QString) := .none
  outside : Bool := false

def operators : List QString :=
  ["++", "+=", "--", "-=", "**", "**=", "*=", "/=", "%=", "~=", "&&", "&&=", "&=", "||", "||=",
    "|=", "^^", "^^=", "^=", "!=", "!==", "!<", "!>", "?=", "==", "===", "<=", "<<", "<<=", "<?",
    "<?=", ">=", ">>", ">>=", ">>>", ">>>=", ">?", ">?=", ":=", "::"].map QString.ascii

def extend : QString → QString → QString × QString
  | text, [] => (text, [])
  | text, c :: rest =>
      if text ++ [c] ∈ operators then extend (text ++ [c]) rest else (text, c :: rest)

def literal (c : UInt16) (rest : QString) : Scanned :=
  { outcome := .token (.literal (extend [c] rest).1), rest := (extend [c] rest).2 }

/-- `toULongLong()` of digits. -/
def integer (value : ℕ) (rest : QString) (outside : Bool) : Scanned :=
  if value < 2 ^ 64 then
    { outcome := .token (.integer (UInt64.ofNat value)), rest := rest, outside := outside }
  else
    { outcome := .error, rest := rest, outside := outside,
      error := some (.invalidNumber, QString.ascii "number too large") }

def hexadecimal (rest : QString) : Scanned :=
  integer ((rest.takeWhile isHexDigit).foldl (fun n d => n * 16 + (xdigit d).toNat) 0)
    (rest.dropWhile isHexDigit) false

variable (p : Platform)

def decimal (input : QString) : Scanned :=
  let digits := input.takeWhile QString.isDigit
  match input.dropWhile QString.isDigit with
  | [] => integer (QNumber.readDigits digits) [] true
  | c :: rest =>
      if c = unit '.' then
        let text := digits ++ c :: rest.takeWhile QString.isDigit
        if p.toDoubleOk text then
          { outcome := .token (.floatingPoint text), rest := rest.dropWhile QString.isDigit }
        else
          { outcome := .error, rest := rest.dropWhile QString.isDigit,
            error := some (.invalidNumber, QString.ascii "number too large") }
      else integer (QNumber.readDigits digits) (c :: rest) false

def string (input : QString) : Scanned :=
  match readString p input [] false with
  | (_, [], outside) =>
      { outcome := .error, rest := [], outside := outside,
        error := some (.invalidString, QString.ascii "invalid string") }
  | (str, _ :: rest, outside) =>
      { outcome := .token (.string str), rest := rest, outside := outside }

/-- `f_keywords`. -/
abbrev Keywords := List (QString × ℕ)

def name (keywords : Keywords) (input : QString) : Scanned :=
  let identifier := input.takeWhile isNameCharacter
  { outcome :=
      match keywords.lookup identifier with
      | some number => .token (.keyword number)
      | none => .token (.identifier identifier),
    rest := input.dropWhile isNameCharacter }

/-- Whether `0x` and a hexadecimal digit come next. -/
def isHexadecimal (c : UInt16) (rest : QString) : Bool :=
  c == unit '0' && (rest.head? == some (unit 'x') || rest.head? == some (unit 'X')) &&
    rest.tail.head?.any isHexDigit

def readToken (keywords : Keywords) : QString → Scanned
  | [] => { outcome := .none, rest := [] }
  | c :: rest =>
      if c = quote then string p rest
      else if isHexadecimal c rest then hexadecimal rest.tail
      else if QString.isDigit c then decimal p (c :: rest)
      else if isNameStart c then name keywords (c :: rest)
      -- a C++ comment up to the end of the input
      else if c = slash ∧ rest.head? = some slash then { outcome := .none, rest := [] }
      else if c = slash ∧ rest.head? = some star then
        { outcome := .error, rest := [],
          error := some (.invalidCComment, QString.ascii "comment not terminated") }
      else if c = star ∧ rest.head? = some slash then
        { outcome := .error, rest := rest,
          error := some (.invalidCComment,
            QString.ascii "comment terminator without introducer") }
      else literal c rest

def scan (keywords : Keywords) (input : QString) : Scanned × ℕ :=
  match _h : skip input with
  | some (rest, lines) =>
      ((scan keywords rest).1, lines + (scan keywords rest).2)
  | none => (readToken p keywords input, 0)
termination_by input.length
decreasing_by all_goals exact length_skip _h

theorem scan_of_skip {keywords : Keywords} {input rest : QString} {lines : ℕ}
    (h : skip input = some (rest, lines)) :
    scan p keywords input = ((scan p keywords rest).1, lines + (scan p keywords rest).2) := by
  rw [scan]
  split
  · rename_i rest' lines' hskip
    cases h.symm.trans hskip
    rfl
  · rename_i hskip
    cases h.symm.trans hskip

theorem scan_of_token {keywords : Keywords} {input : QString} (h : skip input = none) :
    scan p keywords input = (readToken p keywords input, 0) := by
  rw [scan]
  split
  · rename_i rest' lines' hskip
    cases h.symm.trans hskip
  · rfl

end Tokens

section Lexers

/-- `lexer`. The characters of a text can be counted by an `int`, so `f_line` does not
overflow. -/
structure Lexer where
  fInput : QString := []
  fPos : ℕ := 0
  fLine : ℕ := 0
  fKeywords : Keywords := []
  fErrorCode : ErrorCode := .none
  fErrorMessage : QString := []
  fErrorLine : ℕ := 0
  /-- Whether a position behind the input was read since the input was set. -/
  outside : Bool := false

namespace Lexer

def consumed (l : Lexer) : QString := l.fInput.take l.fPos

def rest (l : Lexer) : QString := l.fInput.drop l.fPos

def setInput (l : Lexer) (input : QString) : Lexer :=
  { l with fInput := input, fPos := 0, fLine := 1, outside := false }

def setError (l : Lexer) : Option (ErrorCode × QString) → Lexer
  | none => l
  | some (code, message) =>
      { l with fErrorCode := code, fErrorMessage := message, fErrorLine := l.fLine }

variable (p : Platform)

def nextToken (l : Lexer) : Outcome × Lexer :=
  let (scanned, lines) := scan p l.fKeywords l.rest
  (scanned.outcome,
    { l with
      fPos := l.fInput.length - scanned.rest.length
      fLine := l.fLine + lines
      outside := l.outside || scanned.outside }.setError scanned.error)

/-- The lexer after so many calls of `next_token()`. -/
def after (l : Lexer) : ℕ → Lexer
  | 0 => l
  | n + 1 => ((l.after n).nextToken p).2

end Lexer

end Lexers

end SnapCpp.ParserLexer
