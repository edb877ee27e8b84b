import SnapCpp.CssLexer

/-!
The texts of the tokens, as languages over the characters of a style sheet. They say nothing about
how the lexer reads a token or what it looks at after one.
-/
namespace SnapCpp.Css

open Computability

def oneOf (p : ℤ → Bool) : Language ℤ := {w | ∃ c, p c = true ∧ w = [c]}

def literal (s : List Char) : Language ℤ := {s.map fun c => (c : ℤ)}

def many (l : Language ℤ) : Language ℤ := l * l∗

def maybe (l : Language ℤ) : Language ℤ := 1 + l

theorem mem_oneOf {p : ℤ → Bool} {c : ℤ} (h : p c = true) : [c] ∈ oneOf p :=
  ⟨c, h, rfl⟩

theorem mem_literal (c : Char) : [(c : ℤ)] ∈ literal [c] := rfl

variable {l : Language ℤ} {w : List ℤ}

theorem mem_maybe (h : w ∈ l) : w ∈ maybe l := Or.inr h

theorem nil_mem_maybe (l : Language ℤ) : [] ∈ maybe l := Or.inl rfl

theorem cons_mem_kstar {v : List ℤ} (hv : v ∈ l) (hw : w ∈ l∗) :
    v ++ w ∈ l∗ := by
  have h := Or.inr (Language.append_mem_mul hv hw) (a := v ++ w ∈ (1 : Language ℤ))
  rwa [← Language.mem_add, Language.one_add_self_mul_kstar_eq_kstar] at h

theorem mem_many {v : List ℤ} (hv : v ∈ l) (hw : w ∈ l∗) :
    v ++ w ∈ many l := Language.append_mem_mul hv hw

def hexValue (digits : List ℤ) : ℤ :=
  digits.foldl (fun n c => n * 16 + if isDigit c then c - '0' else (toLower c - 'a' + 10)) 0

def escapeText (c : ℤ) : Language ℤ :=
  {w | (w = [('\\' : ℤ), c] ∧ isHex c = false ∧ c ≠ '\n') ∨
    ∃ digits spaces : List ℤ, w = ('\\' : ℤ) :: digits ++ spaces ∧
      hexValue digits = c ∧ (∀ d ∈ digits, isHex d = true) ∧ digits ≠ [] ∧ digits.length ≤ 6 ∧
      (spaces = [] ∨ digits.length < 6 ∧ ∃ x, isSpace x = true ∧ spaces = [x])}

def anyEscape : Language ℤ := {w | ∃ c, w ∈ escapeText c}

def namePiece : Language ℤ := oneOf isIdentifier + anyEscape

def nameText : Language ℤ :=
  maybe (literal ['-']) * (oneOf isStartIdentifier + anyEscape) * namePiece∗

def unitText : Language ℤ := many namePiece

def digits : Language ℤ := many (oneOf isDigit)

def exponentText : Language ℤ :=
  (literal ['e'] + literal ['E']) * maybe (literal ['-'] + literal ['+']) * digits

def numeral : Language ℤ :=
  maybe (literal ['-'] + literal ['+']) * (digits + maybe digits * (literal ['.'] * digits)) *
    maybe exponentText

def stringPiece (quote : ℤ) : Language ℤ :=
  oneOf (fun c => c ≠ quote ∧ c ≠ '\n' ∧ c ≠ '\\') + literal ['\\', '\n'] + anyEscape

def stringEnd (quote : ℤ) : Language ℤ := (stringPiece quote)∗ * {[quote]}

def stringText (quote : ℤ) : Language ℤ := {[quote]} * stringEnd quote

def urlChar (c : ℤ) : Bool :=
  !isSpace c && c ≠ ')' && c ≠ '"' && c ≠ '\'' && c ≠ '(' && !isNonPrintable c

/-- A URL without quotes; its first character may be a parenthesis. -/
def bareUrl : Language ℤ :=
  oneOf (fun c => !isSpace c && c ≠ '"' && c ≠ '\'') * (oneOf urlChar)∗

def functionText : Language ℤ := maybe (literal ['%']) * nameText * literal ['(']

def urlRest : Language ℤ :=
  (oneOf isSpace)∗ * (stringText '"' + stringText '\'' + bareUrl) *
    ((oneOf isSpace)∗ * literal [')'])

def urlText : Language ℤ := functionText * urlRest

def hashPiece : Language ℤ := oneOf isHashCharacter + anyEscape

def hashText : Language ℤ := literal ['#'] * many hashPiece

def variableText : Language ℤ := literal ['$'] * many (oneOf isVariable)

def ClosesFirst : List ℤ → Prop
  | [] => False
  | c :: rest =>
      if c = '*' ∧ rest.head? = some ('/' : ℤ) then rest = [('/' : ℤ)]
      else ClosesFirst rest

def closing : Language ℤ := {w | ClosesFirst w}

def cCommentText : Language ℤ := literal ['/', '*'] * closing

def cppCommentText : Language ℤ :=
  literal ['/', '/'] * (oneOf (· ≠ '\n'))∗ *
    (literal ['\n', '/', '/'] * (oneOf (· ≠ '\n'))∗)∗

def commentText : Language ℤ := cCommentText + cppCommentText

def spaceText : Language ℤ := many (oneOf fun c => isSpace c || c = 12)

def maskText : Language ℤ :=
  {w | ∃ digits mask : List ℤ, w = digits ++ mask ∧ (∀ d ∈ digits, isHex d = true) ∧
    (∀ d ∈ mask, d = '?') ∧ w ≠ [] ∧ w.length ≤ 6}

def limitText : Language ℤ :=
  {w | (∀ d ∈ w, isHex d = true) ∧ w ≠ [] ∧ w.length ≤ 6}

def rangePrefix : Language ℤ := (literal ['u'] + literal ['U']) * literal ['+']

def rangeText : Language ℤ :=
  rangePrefix * (maskText + limitText * literal ['-'] * limitText)

def lexeme : NodeType → Language ℤ
  | .add => literal ['+']
  | .and => literal ['&', '&']
  | .assignment => literal [':', '=']
  | .atKeyword => literal ['@'] * nameText
  | .cdc => literal ['-', '-', '>']
  | .cdo => literal ['<', '!', '-', '-']
  | .closeCurlybracket => literal ['\x7d']
  | .closeParenthesis => literal [')']
  | .closeSquarebracket => literal [']']
  | .colon => literal [':']
  | .column => literal ['|', '|']
  | .comma => literal [',']
  | .comment => commentText
  | .conditional => literal ['?']
  | .dashMatch => literal ['|', '=']
  | .decimalNumber => numeral * maybe unitText
  | .divide => literal ['/']
  | .dollar => literal ['$']
  | .eofToken => 1
  | .equal => literal ['='] + literal ['=', '=']
  | .exclamation => literal ['!']
  | .function => functionText
  | .greaterEqual => literal ['>', '=']
  | .greaterThan => literal ['>']
  | .hash => hashText
  | .identifier => nameText
  | .includeMatch => literal ['~', '=']
  | .integer => numeral * maybe unitText
  | .lessEqual => literal ['<', '=']
  | .lessThan => literal ['<']
  | .modulo => literal ['%']
  | .multiply => literal ['*']
  | .notEqual => literal ['!', '=']
  | .openCurlybracket => literal ['\x7b']
  | .openParenthesis => literal ['(']
  | .openSquarebracket => literal ['[']
  | .percent => numeral * literal ['%']
  | .period => literal ['.']
  | .placeholder => literal ['%'] * nameText
  | .power => literal ['*', '*']
  | .preceded => literal ['~']
  | .prefixMatch => literal ['^', '=']
  | .reference => literal ['&']
  | .scope => literal ['|']
  | .semicolon => literal [';']
  | .string => stringText '"' + stringText '\''
  | .substringMatch => literal ['*', '=']
  | .subtract => literal ['-']
  | .suffixMatch => literal ['$', '=']
  | .unicodeRange => rangeText
  | .url => urlText
  | .variable => variableText
  | .variableFunction => variableText * literal ['(']
  | .whitespace => spaceText

def turnText : Option Token → Language ℤ
  | some t => lexeme t.fType
  | none => commentText

end SnapCpp.Css
