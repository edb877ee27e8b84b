import SnapCpp.QNumber

/-!
The dependencies of plugins and scripts: a name with its namespace, versions with their operators
and browsers, read from a text and written back in a canonical form. A number of a version is an
`int` and wraps around; the text of a version is scanned as a C string, which ends at a null
character.
-/
namespace SnapCpp.SnapVersion

open QString QNumber

/-- `operator_t`. -/
inductive Operator where
  | unordered
  | equal
  | except
  | earlier
  | later
  | earlierOrEqual
  | laterOrEqual
deriving DecidableEq, Repr

/-- A name of a plugin, a script or a browser; the namespace may be empty. -/
structure Name where
  nameSpace : QString
  name : QString
deriving DecidableEq, Repr

structure Version where
  numbers : List UInt32
  operator : Operator
deriving DecidableEq, Repr

structure Dependency where
  name : Name
  versions : List Version
  browsers : List Name
deriving DecidableEq, Repr

inductive Error where
  | nameTooShort
  | nameStart
  | nameDashes
  | nameCharacter
  | nameEnd
  | versionRequired
  | versionEnd
  | versionNumber
  | versionCharacter
  | operator
  | twoOperators
  | rangeOperator
  | rangeEnd
  | rangeOrder
  | browsersFirst
  | parenthesis
  | bracket
  | leftOver
deriving DecidableEq, Repr

def space : UInt16 := 32

def openParen : UInt16 := 40

def closeParen : UInt16 := 41

def dash : UInt16 := 45

def period : UInt16 := 46

def colon : UInt16 := 58

def openBracket : UInt16 := 91

def closeBracket : UInt16 := 93

/-- `isspace()` in the C locale. -/
def isCSpace (c : UInt16) : Bool := c == space || (9 ≤ c && c ≤ 13)

def isLetter (c : UInt16) : Bool := 97 ≤ c && c ≤ 122

/-- The loop of `validate_basic_name()` with the character before the current one. -/
def validateCharacters (p : UInt16) : QString → Except Error Unit
  | [] => .ok ()
  | c :: rest =>
      if c = dash then if p = dash then .error .nameDashes else validateCharacters c rest
      else if isDigit c || isLetter c then validateCharacters c rest
      else .error .nameCharacter

def validateBasicName (name : QString) : Except Error Unit :=
  match name with
  | [] => .error .nameTooShort
  | [_] => .error .nameTooShort
  | c :: d :: rest =>
      if isLetter c = false then .error .nameStart
      else
        match validateCharacters c (c :: d :: rest) with
        | .error e => .error e
        | .ok _ => if (d :: rest).getLast? = some dash then .error .nameEnd else .ok ()

/-- What is before and after the first `::`. -/
def splitScope : QString → Option (QString × QString)
  | [] => none
  | c :: rest =>
      if c = colon ∧ rest.head? = some colon then some ([], rest.tail)
      else (splitScope rest).map (fun p => (c :: p.1, p.2))

def validateName (name : QString) : Except Error Name :=
  match splitScope name with
  | some (nameSpace, name) =>
      match validateBasicName nameSpace with
      | .error e => .error e
      | .ok _ =>
          match validateBasicName name with
          | .error e => .error e
          | .ok _ => .ok ⟨nameSpace, name⟩
  | none =>
      match validateBasicName name with
      | .error e => .error e
      | .ok _ => .ok ⟨[], name⟩

/-- The loop of `validate_version()` with the number being read, if any. -/
def readNumbers : Option UInt32 → QString → Except Error (List UInt32)
  | none, [] => .ok []
  | some value, [] => .ok [value]
  | none, c :: rest =>
      if isDigit c then readNumbers (some (c.toUInt32 - 48)) rest else .error .versionNumber
  | some value, c :: rest =>
      if isDigit c then readNumbers (some (value * 10 + c.toUInt32 - 48)) rest
      else if c = period then
        match readNumbers none rest with
        | .error e => .error e
        | .ok numbers => .ok (value :: numbers)
      else .error .versionCharacter

def canonicalize : List UInt32 → List UInt32
  | [] => []
  | n :: rest => n :: rest.rdropWhile (· == 0)

def validateVersion (versionString : QString) : Except Error (List UInt32) :=
  if versionString = [] then .error .versionRequired
  else if versionString.getLast? = some period then .error .versionEnd
  else (readNumbers none versionString).map canonicalize

/-- `static_cast<int>()` of a number. -/
def toInt (n : UInt32) : ℤ := if n < 0x80000000 then n.toNat else n.toNat - 2 ^ 32

/-- `version::compare()`, where the shorter version goes on with zeroes. -/
def compare : List UInt32 → List UInt32 → Ordering
  | [], [] => .eq
  | l :: ls, [] => if toInt l < 0 then .lt else if 0 < toInt l then .gt else compare ls []
  | [], r :: rs => if 0 < toInt r then .lt else if toInt r < 0 then .gt else compare [] rs
  | l :: ls, r :: rs =>
      if toInt l < toInt r then .lt else if toInt r < toInt l then .gt else compare ls rs

def validateOperator (s : QString) : Except Error Operator :=
  if s = ascii "=" ∨ s = ascii "==" then .ok .equal
  else if s = ascii "!=" ∨ s = ascii "<>" then .ok .except
  else if s = ascii "<" then .ok .earlier
  else if s = ascii ">" then .ok .later
  else if s = ascii "<=" then .ok .earlierOrEqual
  else if s = ascii ">=" then .ok .laterOrEqual
  else .error .operator

/-- `version_operator::get_operator_string()`. -/
def operatorString : Operator → QString
  | .unordered => []
  | .equal => ascii "="
  | .except => ascii "!="
  | .earlier => ascii "<"
  | .later => ascii ">"
  | .earlierOrEqual => ascii "<="
  | .laterOrEqual => ascii ">="

/-- `version::get_version_string()`. -/
def versionString (v : Version) : QString :=
  [period].intercalate (v.numbers.map fun n => number (toInt n))

/-- `version::get_opversion_string()`. -/
def opversionString (v : Version) : QString :=
  if v.operator = .unordered then versionString v
  else operatorString v.operator ++ space :: versionString v

def isVersionChar (c : UInt16) : Bool := isDigit c || c == period

/-- The characters of `toUtf8().data()` up to the null that ends them. -/
def cString (s : QString) : QString := s.takeWhile (· ≠ 0)

/-- `QString::fromUtf8()` drops a byte order mark. -/
def fromUtf8 (s : QString) : QString := if s.head? = some 0xFEFF then s.tail else s

def readOperator (s : QString) : Except Error Operator :=
  validateOperator (trimmed (fromUtf8 (s.takeWhile fun c => !isDigit c)))

def afterOperator (s : QString) : QString :=
  (s.dropWhile fun c => !isDigit c).dropWhile isCSpace

def rangeVersions (op : Operator) (v rhs : List UInt32) : Except Error (List Version) :=
  match op with
  | .earlier =>
      if compare v rhs = .lt then .ok [⟨v, .later⟩, ⟨rhs, .earlier⟩] else .error .rangeOrder
  | .earlierOrEqual =>
      if compare v rhs = .lt then .ok [⟨v, .laterOrEqual⟩, ⟨rhs, .earlierOrEqual⟩]
      else .error .rangeOrder
  | .later =>
      if compare v rhs = .gt then .ok [⟨rhs, .later⟩, ⟨v, .earlier⟩] else .error .rangeOrder
  | .laterOrEqual =>
      if compare v rhs = .gt then .ok [⟨rhs, .laterOrEqual⟩, ⟨v, .earlierOrEqual⟩]
      else .error .rangeOrder
  | _ => .error .rangeOperator

def readVersion (op : Operator) (s : QString) : Except Error (List Version) :=
  match validateVersion (s.takeWhile isVersionChar) with
  | .error e => .error e
  | .ok v =>
      let s := (s.dropWhile isVersionChar).dropWhile isCSpace
      if s = [] then .ok [⟨v, if op = .unordered then .laterOrEqual else op⟩]
      else if op ≠ .unordered then .error .twoOperators
      else
        match readOperator s with
        | .error e => .error e
        | .ok rangeOp =>
            if rangeOp = .equal ∨ rangeOp = .except then .error .rangeOperator
            else
              let s := afterOperator s
              if s.dropWhile isVersionChar ≠ [] then .error .rangeEnd
              else
                match validateVersion (s.takeWhile isVersionChar) with
                | .error e => .error e
                | .ok rhs => rangeVersions rangeOp v rhs

def readVersionRange (vonly : QString) : Except Error (List Version) :=
  let s := cString vonly
  if s.takeWhile isVersionChar = [] then
    match readOperator s with
    | .error e => .error e
    | .ok op => readVersion op (afterOperator s)
  else readVersion .unordered s

def simplified (s : QString) : QString :=
  [space].intercalate ((s.splitOnP isSpace).filter (· ≠ []))

/-- `QString::indexOf(c)`, or the length where `c` is not found. -/
def indexOf (d : QString) (c : UInt16) : ℕ := d.findIdx (· == c)

def skipSpaces (d : QString) (pos : ℕ) : ℕ := pos + ((d.drop pos).takeWhile isCSpace).length

def namePos (d : QString) : ℕ :=
  min (indexOf d space) (min (indexOf d openParen) (indexOf d openBracket))

def versionsPos (d : QString) : ℕ := skipSpaces d (namePos d)

def hasVersions (d : QString) : Bool := d[versionsPos d]? = some openParen

def versionList (d : QString) : QString :=
  if hasVersions d then (d.drop (versionsPos d + 1)).takeWhile (· ≠ closeParen) else []

def browsersPos (d : QString) : ℕ :=
  if hasVersions d then skipSpaces d (versionsPos d + 1 + (versionList d).length + 1)
  else versionsPos d

def hasBrowsers (d : QString) : Bool := d[browsersPos d]? = some openBracket

/-- `QString::mid(pos, n)` for a length of `end - pos`, which is that of the rest where it is
negative. -/
def mid (d : QString) (pos stop : ℕ) : QString :=
  if pos ≤ stop then (d.drop pos).take (stop - pos) else d.drop pos

/-- The text up to the first closing bracket of the whole text. -/
def browserList (d : QString) : QString :=
  if hasBrowsers d then mid d (browsersPos d + 1) (indexOf d closeBracket) else []

/-- `split(',', QString::SkipEmptyParts)`, each part trimmed and skipped where nothing is left. -/
def parts (s : QString) : List QString := ((splitComma s).map trimmed).filter (· ≠ [])

def endPos (d : QString) : ℕ :=
  if hasBrowsers d then skipSpaces d (indexOf d closeBracket + 1) else browsersPos d

/-- `dependency::set_dependency()` on a fresh object. -/
def setDependency (dependencyString : QString) : Except Error Dependency := do
  let d := simplified dependencyString
  if indexOf d openParen ≠ d.length ∧ indexOf d openBracket < indexOf d openParen then
    throw .browsersFirst
  let name ← validateName (d.take (namePos d))
  if hasVersions d ∧ closeParen ∉ d.drop (versionsPos d + 1) then throw .parenthesis
  let versions ← (parts (versionList d)).mapM readVersionRange
  if hasBrowsers d ∧ closeBracket ∉ d then throw .bracket
  let browsers ← (parts (browserList d)).mapM validateName
  if endPos d ≠ d.length then throw .leftOver
  return ⟨name, versions.flatten, browsers⟩

def fullName (n : Name) : QString :=
  if n.nameSpace = [] then n.name else n.nameSpace ++ colon :: colon :: n.name

def joinComma (texts : List QString) : QString := [comma, space].intercalate texts

def getDependencyString (o : Dependency) : QString :=
  fullName o.name ++
    (if o.versions = [] then []
      else space :: openParen :: joinComma (o.versions.map opversionString) ++ [closeParen]) ++
    (if o.browsers = [] then []
      else space :: openBracket :: joinComma (o.browsers.map Name.name) ++ [closeBracket])

end SnapCpp.SnapVersion
