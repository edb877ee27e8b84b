import SnapCpp.CssCharacter

/-!
The lexer of style sheets. A token takes the characters it needs, and a look-ahead that is not part
of it is put back. The loops are given a number of turns, one for each character that may be left
and some more. The value of a decimal number is kept as the digits it is computed from, and the
positions of the tokens are left out.
-/
namespace SnapCpp.Css

/-- The types of nodes that the lexer makes. -/
inductive NodeType where
  | add
  | and
  | assignment
  | atKeyword
  | cdc
  | cdo
  | closeCurlybracket
  | closeParenthesis
  | closeSquarebracket
  | colon
  | column
  | comma
  | comment
  | conditional
  | dashMatch
  | decimalNumber
  | divide
  | dollar
  | eofToken
  | equal
  | exclamation
  | function
  | greaterEqual
  | greaterThan
  | hash
  | identifier
  | includeMatch
  | integer
  | lessEqual
  | lessThan
  | modulo
  | multiply
  | notEqual
  | openCurlybracket
  | openParenthesis
  | openSquarebracket
  | percent
  | period
  | placeholder
  | power
  | preceded
  | prefixMatch
  | reference
  | scope
  | semicolon
  | string
  | substringMatch
  | subtract
  | suffixMatch
  | unicodeRange
  | url
  | variable
  | variableFunction
  | whitespace
deriving DecidableEq, Repr

structure Decimal where
  sign : ℤ
  integer : ℤ
  fraction : List ℤ
  exponent : ℤ
deriving DecidableEq, Repr

structure Token where
  fType : NodeType
  fString : Bytes := []
  fLowercaseString : Bytes := []
  fInteger : ℤ := 0
  fBoolean : Bool := false
  fDecimalNumber : Option Decimal := none
deriving DecidableEq, Repr

/-- The end of `escape()` for a number. -/
def escapeEnd (wc : ℤ) : Lex ℤ :=
  if wc = 0 then do
    report .escapeZero
    pure replacement
  else pure wc

/-- The loop of `escape()` with the number of digits that may follow. -/
def escapeDigits : ℕ → ℤ → Lex ℤ
  | 0, wc => escapeEnd wc
  | count + 1, wc => do
      let c ← getc
      if isHex c then do
        let d ← hexToDec c
        if 0x110000 ≤ wc * 16 + d then do
          report .escapeTooLarge
          pure replacement
        else escapeDigits count (wc * 16 + d)
      else if isSpace c then escapeEnd wc
      else do
        ungetc c
        escapeEnd wc

def escape : Lex ℤ := do
  let c ← getc
  if c = '\n' then do
    report .escapedNewline
    pure replacement
  else if c = replacement then do
    report .escapedReplacement
    pure replacement
  else if c = eof then do
    report .escapedEof
    pure replacement
  else if isHex c then do
    let d ← hexToDec c
    escapeDigits 5 d
  else pure c

structure Name where
  id : Bytes
  lowercaseId : Bytes
deriving DecidableEq

def Name.add (name : Name) (c : ℤ) : Lex Name := do
  let id ← wctomb c
  let lowercaseId ← wctomb (toLower c)
  pure ⟨name.id ++ id, name.lowercaseId ++ lowercaseId⟩

/-- The loop of `identifier()`, with the character that ends it. -/
def identifierLoop : ℕ → Name → Lex (ℤ × Name)
  | 0, _ => throw .outOfFuel
  | fuel + 1, name => do
      let c ← getc
      if c = '\\' then do
        let c ← escape
        if c = replacement then pure (c, name)
        else do
          let name ← name.add c
          identifierLoop fuel name
      else if isIdentifier c then do
        let name ← name.add c
        identifierLoop fuel name
      else pure (c, name)

/-- The loop of `string()`. -/
def stringLoop (quote : ℤ) : ℕ → Bytes → Lex Bytes
  | 0, _ => throw .outOfFuel
  | fuel + 1, str => do
      let c ← getc
      if c = eof then do
        report .unterminatedString
        pure str
      else if c = '\n' then do
        ungetc c
        report .stringNewline
        pure str
      else if c = quote then pure str
      else if c = '\\' then do
        let n ← getc
        if n = '\n' then do
          let mb ← wctomb n
          stringLoop quote fuel (str ++ mb)
        else if n = eof then stringLoop quote fuel str
        else if n = replacement then do
          report .escapedReplacement
          stringLoop quote fuel str
        else do
          ungetc n
          let c ← escape
          if c = replacement then stringLoop quote fuel str
          else do
            let mb ← wctomb c
            stringLoop quote fuel (str ++ mb)
      else if c = replacement then stringLoop quote fuel str
      else do
        let mb ← wctomb c
        stringLoop quote fuel (str ++ mb)

def string (fuel : ℕ) (quote : ℤ) : Lex Bytes := stringLoop quote fuel []

def skipSpaces : ℕ → Lex ℤ
  | 0 => throw .outOfFuel
  | fuel + 1 => do
      let c ← getc
      if isSpace c then skipSpaces fuel else pure c

/-- The rest of a URL without quotes, with the character that ends it. -/
def urlLoop : ℕ → Bytes → Lex (ℤ × Bytes)
  | 0, _ => throw .outOfFuel
  | fuel + 1, url => do
      let c ← getc
      if c = ')' ∨ isSpace c then pure (c, url)
      else if c = eof ∨ c = '"' ∨ c = '\'' ∨ c = '(' ∨ isNonPrintable c then do
        report .invalidUrl
        pure (')', url)
      else do
        let mb ← wctomb c
        urlLoop fuel (url ++ mb)

def closeUrl : ℕ → Lex Unit
  | 0 => throw .outOfFuel
  | fuel + 1 => do
      let c ← getc
      if c = ')' then pure ()
      else if isSpace c then closeUrl fuel
      else report .unclosedUrl

def urlToken (url : Bytes) : Token := { fType := .url, fString := url }

/-- The special case of `url(...)`, the opening parenthesis read. -/
def urlArgument (fuel : ℕ) : Lex Token := do
  let c ← skipSpaces fuel
  if c = '"' ∨ c = '\'' then do
    let url ← string fuel c
    closeUrl fuel
    pure (urlToken url)
  else do
    let mb ← wctomb c
    let (c, url) ← urlLoop fuel mb
    if c = ')' then pure (urlToken url)
    else do
      closeUrl fuel
      pure (urlToken url)

def eofNode : Token := { fType := .eofToken }

/-- `"url"`. -/
def urlName : Bytes := [117, 114, 108]

def identifierRest (fuel : ℕ) (type : NodeType) (name : Name) : Lex Token := do
  let (c, name) ← identifierLoop fuel name
  if name.id = [] then do
    ungetc c
    report .emptyIdentifier
    pure eofNode
  else if c = '(' ∧ type ≠ .atKeyword then
    if name.lowercaseId = urlName then urlArgument fuel
    else pure { fType := .function, fString := name.lowercaseId }
  else do
    ungetc c
    pure { fType := type, fString := name.id, fLowercaseString := name.lowercaseId }

def identifierStart (fuel : ℕ) (type : NodeType) (name : Name) (c : ℤ) : Lex Token :=
  if c = '\\' then do
    let c ← escape
    if c = replacement then identifierRest fuel type name
    else do
      let name ← name.add c
      identifierRest fuel type name
  else if isStartIdentifier c then do
    let name ← name.add c
    identifierRest fuel type name
  else if type = .atKeyword then do
    ungetc c
    report .emptyIdentifier
    pure eofNode
  else throw .identifierStart

def identifierDash (fuel : ℕ) (type : NodeType) (c : ℤ) : Lex Token :=
  if c = '-' then do
    let c ← getc
    identifierStart fuel type ⟨[45], [45]⟩ c
  else identifierStart fuel type ⟨[], []⟩ c

def identifier (fuel : ℕ) (c : ℤ) : Lex Token :=
  if c = '%' then do
    let c ← getc
    identifierDash fuel .placeholder c
  else if c = '@' then do
    let c ← getc
    identifierDash fuel .atKeyword c
  else identifierDash fuel .identifier c

/-- The digits after the first one of the integral part, which is kept in 64 bits. -/
def integerDigits : ℕ → ℕ → Lex (ℤ × ℕ)
  | 0, _ => throw .outOfFuel
  | fuel + 1, integer => do
      let c ← getc
      if isDigit c then
        let ni := (integer * 10 + (c - '0').toNat) % 2 ^ 64
        if 2 ^ 63 ≤ ni then do
          report .integerTooLarge
          integerDigits fuel ni
        else integerDigits fuel ni
      else pure (c, integer)

def fractionDigits : ℕ → List ℤ → Lex (ℤ × List ℤ)
  | 0, _ => throw .outOfFuel
  | fuel + 1, fraction => do
      let c ← getc
      if isDigit c then
        if fraction.length + 1 = 21 then do
          report .fractionTooLarge
          fractionDigits fuel (fraction ++ [c])
        else fractionDigits fuel (fraction ++ [c])
      else pure (c, fraction)

def fractionPart (fuel : ℕ) (c : ℤ) : Lex (ℤ × Option (List ℤ)) :=
  if c = '.' then do
    let (c, fraction) ← fractionDigits fuel []
    if fraction = [] then do
      report .noDecimalDigit
      pure (c, some fraction)
    else pure (c, some fraction)
  else pure (c, none)

/-- Whether what follows an `e` makes it an exponent; nothing of it is taken. -/
def isExponent : Lex Bool := do
  let s ← getc
  if s = '-' ∨ s = '+' then do
    let d ← getc
    ungetc d
    ungetc s
    pure (isDigit d)
  else do
    ungetc s
    pure (isDigit s)

def exponentDigits : ℕ → ℤ → ℤ → Lex (ℤ × ℤ)
  | 0, _, _ => throw .outOfFuel
  | fuel + 1, c, exponent =>
      if isDigit c then
        let exponent := exponent * 10 + (c - '0')
        if 1024 ≤ exponent then do
          report .exponentTooLarge
          let c ← getc
          exponentDigits fuel c exponent
        else do
          let c ← getc
          exponentDigits fuel c exponent
      else pure (c, exponent)

def exponentNumber (fuel : ℕ) (sign : ℤ) (c : ℤ) : Lex (ℤ × ℤ) :=
  if isDigit c then do
    let (c, exponent) ← exponentDigits fuel c 0
    pure (c, sign * exponent)
  else throw .exponentDigit

def exponentPart (fuel : ℕ) (c : ℤ) : Lex (ℤ × ℤ) :=
  if c = 'e' ∨ c = 'E' then do
    let found ← isExponent
    if found then do
      let s ← getc
      if s = '-' then do
        let c ← getc
        exponentNumber fuel (-1) c
      else if s = '+' then do
        let c ← getc
        exponentNumber fuel 1 c
      else exponentNumber fuel 1 s
    else pure (c, 0)
  else pure (c, 0)

/-- The loop that reads a dimension, from the character `c` on. -/
def dimensionLoop : ℕ → ℤ → Bytes → Lex Bytes
  | 0, _, _ => throw .outOfFuel
  | fuel + 1, c, dimension =>
      if c = '\\' then do
        let c ← escape
        if c = replacement then pure dimension
        else do
          let mb ← wctomb (toLower c)
          let c ← getc
          dimensionLoop fuel c (dimension ++ mb)
      else if isIdentifier c then do
        let mb ← wctomb (toLower c)
        let c ← getc
        dimensionLoop fuel c (dimension ++ mb)
      else do
        ungetc c
        pure dimension

def dimensionPart (fuel : ℕ) (c : ℤ) : Lex (Bytes × Bool) :=
  if isIdentifier c ∨ c = '\\' then do
    let dimension ← dimensionLoop fuel c []
    if dimension = [45] then do
      ungetc '-'
      pure ([], false)
    else pure (dimension, false)
  else if c = '%' then pure ([], true)
  else do
    ungetc c
    pure ([], false)

def toInt64 (n : ℕ) : ℤ := if n < 2 ^ 63 then n else (n : ℤ) - 2 ^ 64

def numberNode (hasSign : Bool) (sign : ℤ) (integer : ℕ) (fraction : Option (List ℤ))
    (exponent : ℤ) (dimension : Bytes) (percent : Bool) : Token :=
  if exponent ≠ 0 ∨ fraction.isSome ∨ percent then
    { fType := if percent then .percent else .decimalNumber
      fString := if percent then [] else dimension
      fBoolean := hasSign
      fDecimalNumber := some ⟨sign, toInt64 integer, fraction.getD [], exponent⟩ }
  else
    { fType := .integer
      fString := dimension
      fBoolean := hasSign
      fInteger := toInt64 integer * sign }

def numberRest (fuel : ℕ) (hasSign : Bool) (sign : ℤ) (integer : ℕ) (c : ℤ) : Lex Token := do
  let (c, fraction) ← fractionPart fuel c
  let (c, exponent) ← exponentPart fuel c
  let (dimension, percent) ← dimensionPart fuel c
  pure (numberNode hasSign sign integer fraction exponent dimension percent)

def numberStart (fuel : ℕ) (hasSign : Bool) (sign : ℤ) (c : ℤ) : Lex Token :=
  if isDigit c then do
    let (c, integer) ← integerDigits fuel (c - '0').toNat
    numberRest fuel hasSign sign integer c
  else numberRest fuel hasSign sign 0 c

def number (fuel : ℕ) (c : ℤ) : Lex Token :=
  if c = '-' ∨ c = '+' then do
    let sign := if c = '-' then -1 else 1
    let c ← getc
    numberStart fuel true sign c
  else numberStart fuel false 1 c

def hashLoop : ℕ → Bytes → Lex Bytes
  | 0, _ => throw .outOfFuel
  | fuel + 1, str => do
      let c ← getc
      if c = '\\' then do
        let c ← escape
        if c = replacement then pure str
        else do
          let mb ← wctomb c
          hashLoop fuel (str ++ mb)
      else if isHashCharacter c then do
        let mb ← wctomb c
        hashLoop fuel (str ++ mb)
      else do
        ungetc c
        pure str

def hash (fuel : ℕ) : Lex (Option Token) := do
  let str ← hashLoop fuel []
  if str = [] then do
    report .emptyHash
    pure none
  else pure (some { fType := .hash, fString := str })

def skipCommentSpaces (isBlank : ℤ → Bool) : ℕ → Lex Unit
  | 0 => throw .outOfFuel
  | fuel + 1 => do
      let c ← getc
      if isBlank c then skipCommentSpaces isBlank fuel else ungetc c

def isBlank (c : ℤ) : Bool := c = ' ' || c = '\t'

def cCommentLoop : ℕ → Bytes → Lex Bytes
  | 0, _ => throw .outOfFuel
  | fuel + 1, str => do
      let c ← getc
      if c = eof then do
        report .unclosedComment
        pure str
      else if c = '*' then do
        let d ← getc
        if d = '/' then pure str
        else do
          ungetc d
          let mb ← wctomb '*'
          cCommentLoop fuel (str ++ mb)
      else do
        let mb ← wctomb c
        cCommentLoop fuel (str ++ mb)

def cppCommentLoop : ℕ → Bytes → Lex Bytes
  | 0, _ => throw .outOfFuel
  | fuel + 1, str => do
      let c ← getc
      if c = eof then pure str
      else if c = '\n' then do
        let c ← getc
        if c = '/' then do
          let c ← getc
          if c = '/' then do
            let c ← getc
            if isBlank c then cppCommentLoop fuel (str ++ [10])
            else do
              ungetc c
              cppCommentLoop fuel (str ++ [10])
          else do
            ungetc c
            ungetc '/'
            ungetc '\n'
            pure str
        else do
          ungetc c
          ungetc '\n'
          pure str
      else do
        let mb ← wctomb c
        cppCommentLoop fuel (str ++ mb)

/-- `"@preserve"`. -/
def preserve : Bytes := [64, 112, 114, 101, 115, 101, 114, 118, 101]

def trimComment (str : Bytes) : Bytes :=
  (str.reverse.dropWhile fun b => isSpace b.toNat).reverse

def commentNode (str : Bytes) (cComment : Bool) : Option Token :=
  if preserve <:+: str then
    some { fType := .comment, fString := trimComment str, fInteger := if cComment then 1 else 0 }
  else none

def comment (fuel : ℕ) (cComment : Bool) : Lex (Option Token) :=
  if cComment then do
    skipCommentSpaces isSpace fuel
    let str ← cCommentLoop fuel []
    pure (commentNode str true)
  else do
    skipCommentSpaces isBlank fuel
    let str ← cppCommentLoop fuel []
    pure (commentNode str false)

structure RangeStart where
  start : ℤ := 0
  stop : ℤ := 0
  hasMask : Bool := false
deriving DecidableEq

def rangeDigits : ℕ → ℤ → RangeStart → Lex (ℤ × RangeStart)
  | 0, d, r => pure (d, r)
  | count + 1, d, r =>
      if d = '?' then do
        let stop := if r.hasMask then r.stop else r.start
        let d ← getc
        rangeDigits count d ⟨r.start * 16, stop * 16 + 15, true⟩
      else if isHex d ∧ !r.hasMask then do
        let n ← hexToDec d
        let d ← getc
        rangeDigits count d { r with start := r.start * 16 + n }
      else pure (d, r)

def rangeStop : ℕ → ℤ → ℤ → Lex (ℤ × ℤ)
  | 0, d, stop => pure (d, stop)
  | count + 1, d, stop =>
      if isHex d then do
        let n ← hexToDec d
        let d ← getc
        rangeStop count d (stop * 16 + n)
      else pure (d, stop)

def rangeNode (range : ℤ) : Token := { fType := .unicodeRange, fInteger := range }

/-- The end of `unicode_range()`. -/
def rangeEnd (d start stop : ℤ) : Lex Token :=
  if stop < start then do
    report .rangeOrder
    pure (rangeNode 0)
  else do
    ungetc d
    pure (rangeNode (stop * 2 ^ 32 + start))

def rangeCheck (d start stop : ℤ) : Lex Token :=
  if 0x110000 ≤ start ∨ 0x110000 ≤ stop then do
    report .rangeTooLarge
    pure (rangeNode 0)
  else rangeEnd d start stop

def unicodeRange (d : ℤ) : Lex Token := do
  let (d, r) ← rangeDigits 6 d {}
  if r.hasMask then
    let stop := if 0x1FFFFF < r.stop then 0x1FFFFF else r.stop
    if 0x110000 ≤ r.start then do
      report .rangeTooLarge
      rangeEnd d 0 stop
    else rangeEnd d r.start stop
  else if d = '-' then do
    let d ← getc
    let (d, stop) ← rangeStop 6 d 0
    rangeCheck d r.start stop
  else rangeCheck d r.start r.start

/-- The loop of `variable()`, with the character that ends it. -/
def variableLoop : ℕ → ℤ → Bytes → Lex (ℤ × Bytes)
  | 0, _, _ => throw .outOfFuel
  | fuel + 1, c, var => do
      let mb ← wctomb (toLower (if c = '-' then '_' else c))
      let c ← getc
      if isVariable c then variableLoop fuel c (var ++ mb) else pure (c, var ++ mb)

/-- `variable()`. -/
def variableToken (fuel : ℕ) (c : ℤ) : Lex Token := do
  let (c, var) ← variableLoop fuel c []
  if c = '(' then pure { fType := .variableFunction, fString := var }
  else do
    ungetc c
    pure { fType := .variable, fString := var }

def whitespaceLoop : ℕ → Lex Unit
  | 0 => throw .outOfFuel
  | fuel + 1 => do
      let n ← getc
      if isSpace n then whitespaceLoop fuel else ungetc n

def node (type : NodeType) : Lex (Option Token) := pure (some { fType := type })

def tokenOf (m : Lex Token) : Lex (Option Token) := do
  let t ← m
  pure (some t)

def pairToken (second : ℤ) (joined single : NodeType) : Lex (Option Token) := do
  let n ← getc
  if n = second then node joined
  else do
    ungetc n
    node single

def equalToken : Lex (Option Token) := do
  let n ← getc
  if n = '=' then do
    warn .doubleEqual
    node .equal
  else do
    ungetc n
    node .equal

def periodToken (fuel : ℕ) : Lex (Option Token) := do
  let n ← getc
  ungetc n
  if isDigit n then tokenOf (number fuel '.') else node .period

def lessToken : Lex (Option Token) := do
  let n ← getc
  if n = '!' then do
    let p ← getc
    if p = '-' then do
      let l ← getc
      if l = '-' then node .cdo
      else do
        ungetc l
        ungetc p
        ungetc n
        node .lessThan
    else do
      ungetc p
      ungetc n
      node .lessThan
  else if n = '=' then node .lessEqual
  else do
    ungetc n
    node .lessThan

/-- What follows a sign that is not followed by a digit or by a period and a digit. -/
def signRest (fuel : ℕ) (c n : ℤ) : Lex (Option Token) :=
  if c = '+' then do
    ungetc n
    node .add
  else if n = '-' then do
    let p ← getc
    if p = '>' then node .cdc
    else do
      ungetc p
      ungetc n
      node .subtract
  else do
    ungetc n
    if (isIdentifier n ∨ n = '\\') ∧ (n < '0' ∨ '9' < n) then tokenOf (identifier fuel c)
    else node .subtract

def signToken (fuel : ℕ) (c : ℤ) : Lex (Option Token) := do
  let n ← getc
  if isDigit n then do
    ungetc n
    tokenOf (number fuel c)
  else if n = '.' then do
    let p ← getc
    if isDigit p then do
      ungetc p
      ungetc n
      tokenOf (number fuel c)
    else do
      ungetc p
      signRest fuel c n
  else signRest fuel c n

def invalidCharacter (c : ℤ) : Lex (Option Token) := do
  report (.invalidCharacter c)
  pure none

def caretToken : Lex (Option Token) := do
  let n ← getc
  if n = '=' then node .prefixMatch
  else do
    ungetc n
    invalidCharacter '^'

def dollarToken (fuel : ℕ) : Lex (Option Token) := do
  let n ← getc
  if n = '=' then node .suffixMatch
  else if isVariable n then tokenOf (variableToken fuel n)
  else do
    ungetc n
    node .dollar

def starToken : Lex (Option Token) := do
  let n ← getc
  if n = '=' then node .substringMatch
  else if n = '*' then node .power
  else do
    ungetc n
    node .multiply

def pipeToken : Lex (Option Token) := do
  let n ← getc
  if n = '|' then node .column
  else if n = '=' then node .dashMatch
  else do
    ungetc n
    node .scope

def stringToken (fuel : ℕ) (quote : ℤ) : Lex (Option Token) := do
  let str ← string fuel quote
  pure (some { fType := .string, fString := str })

def slashToken (fuel : ℕ) : Lex (Option Token) := do
  let n ← getc
  if n = '*' then comment fuel true
  else if n = '/' then do
    let cn ← comment fuel false
    if cn = none then pure none
    else do
      warn .preservedComment
      pure cn
  else do
    ungetc n
    node .divide

def markedIdentifier (fuel : ℕ) (c : ℤ) : Lex (Option Token) := do
  let n ← identifier fuel c
  if n.fType = .eofToken then pure none else pure (some n)

def percentToken (fuel : ℕ) : Lex (Option Token) := do
  let n ← getc
  if isStartIdentifier n then do
    ungetc n
    markedIdentifier fuel '%'
  else node .modulo

def letterU (fuel : ℕ) (c : ℤ) : Lex (Option Token) := do
  let n ← getc
  if n = '+' then do
    let d ← getc
    if isHex d ∨ d = '?' then tokenOf (unicodeRange d)
    else do
      ungetc d
      ungetc n
      tokenOf (identifier fuel c)
  else do
    ungetc n
    tokenOf (identifier fuel c)

def singleToken (c : ℤ) : Option NodeType :=
  if c = ',' then some .comma
  else if c = ';' then some .semicolon
  else if c = '?' then some .conditional
  else if c = '(' then some .openParenthesis
  else if c = ')' then some .closeParenthesis
  else if c = '[' then some .openSquarebracket
  else if c = ']' then some .closeSquarebracket
  else if c = '\x7b' then some .openCurlybracket
  else if c = '\x7d' then some .closeCurlybracket
  else none

/-- The `switch` of `next_token()`. -/
def tokenAt (fuel : ℕ) (c : ℤ) : Lex (Option Token) :=
  if c = eof then node .eofToken
  else if c = '=' then equalToken
  else if c = ':' then pairToken '=' .assignment .colon
  else if c = '!' then pairToken '=' .notEqual .exclamation
  else if c = '>' then pairToken '=' .greaterEqual .greaterThan
  else if c = '.' then periodToken fuel
  else if c = '&' then pairToken '&' .and .reference
  else if c = '<' then lessToken
  else if c = '+' ∨ c = '-' then signToken fuel c
  else if c = '^' then caretToken
  else if c = '$' then dollarToken fuel
  else if c = '~' then pairToken '=' .includeMatch .preceded
  else if c = '*' then starToken
  else if c = '|' then pipeToken
  else if c = '"' ∨ c = '\'' then stringToken fuel c
  else if c = '/' then slashToken fuel
  else if isSpace c ∨ c = 12 then do
    whitespaceLoop fuel
    node .whitespace
  else if isDigit c then tokenOf (number fuel c)
  else if c = '#' then hash fuel
  else if c = '%' then percentToken fuel
  else if c = '\\' ∨ c = '@' then markedIdentifier fuel c
  else if c = 'u' ∨ c = 'U' then letterU fuel c
  else
    match singleToken c with
    | some type => node type
    | none => if isStartIdentifier c then tokenOf (identifier fuel c) else invalidCharacter c

def Lexer.turns (s : Lexer) : ℕ := s.fIn.length + s.fUngetc.length + 2

/-- A turn of the loop of `next_token()`, which may end without a token. -/
def turn : Lex (Option Token) := do
  let s ← get
  let c ← getc
  tokenAt s.turns c

def nextTokenLoop : ℕ → Lex Token
  | 0 => throw .outOfFuel
  | fuel + 1 => do
      let t ← turn
      match t with
      | some t => pure t
      | none => nextTokenLoop fuel

def nextToken : Lex Token := do
  let s ← get
  nextTokenLoop s.turns

end SnapCpp.Css
