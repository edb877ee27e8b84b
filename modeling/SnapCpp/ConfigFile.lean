import SnapCpp.OrderedMap
import SnapCpp.LineReader

/-!
The configuration files of the daemons. A file is read line by line in a buffer of 1024 bytes,
in which pointers cut out the name of a section, or the name and the value of a variable; a
line that cannot be read ends the process. The parameters of a file are then changed by
`set_parameter()` and `set_parameters()`.
-/
namespace SnapCpp.ConfigFile

open BufferConnection (Bytes)
open LineReader (newline cBytes)

instance linearOrderUInt8 : LinearOrder UInt8 where
  le_refl := UInt8.le_refl
  le_trans := fun _ _ _ => UInt8.le_trans
  le_antisymm := fun _ _ => UInt8.le_antisymm
  le_total := UInt8.le_total
  lt_iff_le_not_ge := fun a b => by
    rw [UInt8.lt_iff_toNat_lt, UInt8.le_iff_toNat_le, UInt8.le_iff_toNat_le]
    omega
  toDecidableLE := inferInstance

def ascii (s : String) : Bytes := s.toList.map Char.toUInt8

def carriageReturn : UInt8 := 13
def doubleQuote : UInt8 := 34
def numberSign : UInt8 := 35
def quote : UInt8 := 39
def period : UInt8 := 46
def slash : UInt8 := 47
def colon : UInt8 := 58
def semicolon : UInt8 := 59
def equalSign : UInt8 := 61
def openBracket : UInt8 := 91
def closeBracket : UInt8 := 93

/-- `isspace()` of the C locale. -/
def isspace (c : UInt8) : Bool := c == 32 || (9 ≤ c && c ≤ carriageReturn)

def isEndOfLine (c : UInt8) : Bool := c == newline || c == carriageReturn

def endsSection (c : UInt8) : Bool := c == closeBracket || isspace c || c == colon

abbrev ParameterMap := OrderedMap Bytes Bytes

/-- `QIODevice::readLine()`: at most so many bytes, through the first newline, and what is left
to read. -/
def readLine : ℕ → Bytes → Bytes × Bytes
  | 0, rest => ([], rest)
  | _ + 1, [] => ([], [])
  | n + 1, c :: rest =>
      if c = newline then ([c], rest)
      else (c :: (readLine n rest).1, (readLine n rest).2)

/-- The name between brackets, from what follows the first one; `none` where it is not a name. -/
def readSection (rest : Bytes) : Option Bytes :=
  let n := rest.dropWhile isspace
  let name := n.takeWhile (fun c => !endsSection c)
  let v := (n.dropWhile (fun c => !endsSection c)).dropWhile isspace
  if v.head? ≠ some closeBracket ∨ name = [] then none
  else some name

/-- The value without its quotes: `v` is moved and a null byte is put on the last character. -/
def unquote (v : Bytes) : Bytes :=
  if v ≠ [] ∧ ((v.head? = some quote ∧ v.getLast? = some quote) ∨
      (v.head? = some doubleQuote ∧ v.getLast? = some doubleQuote)) then
    v.tail.dropLast
  else v

/-- The name and the value around the first equal sign; `none` where there is none. -/
def readVariable (n : Bytes) : Option (Bytes × Bytes) :=
  match n.dropWhile (· ≠ equalSign) with
  | [] => none
  | _ :: rest =>
      some ((n.takeWhile (· ≠ equalSign)).rdropWhile isspace,
        unquote ((rest.dropWhile isspace).rdropWhile isspace))

/-- `prefix` and `f_parameters`. -/
structure Reading where
  sectionName : Bytes
  fParameters : ParameterMap
deriving DecidableEq

/-- What a line says, from its first character that is not white space; `none` stands for
`exit(1)`. -/
def readText : Bytes → Reading → Option Reading
  | [], s => some s
  | c :: rest, s =>
      if c = numberSign ∨ c = semicolon then some s
      else if c = openBracket then
        (readSection rest).map fun name => { s with sectionName := name ++ ascii "::" }
      else
        (readVariable (c :: rest)).map fun (n, v) =>
          { s with fParameters := s.fParameters.insert (s.sectionName ++ n) v }

/-- A turn of the loop over the lines with what `readLine()` returned, which is too long where
the buffer does not end with the end of a line. -/
def readConfigLine (line : Bytes) (s : Reading) : Option Reading :=
  let buf := cBytes line
  if ¬ buf.getLast?.any isEndOfLine then none
  else readText ((buf.rdropWhile isEndOfLine).dropWhile isspace) s

def readConfigLines : ℕ → Bytes → Reading → Option Reading
  | 0, _, s => some s
  | turns + 1, contents, s =>
      let (line, rest) := readLine 1023 contents
      if line = [] then some s
      else (readConfigLine line s).bind fun s => readConfigLines turns rest s

/-- `actual_read_config_file()`: whether the file was read, and the parameters. The disk has
nothing under the name of a file that is missing or that cannot be opened; which one it is and
`quiet` only decide what is logged. -/
def actualReadConfigFile (disk : Bytes → Option Bytes) (filename : Bytes)
    (parameters : ParameterMap) : Option (Bool × ParameterMap) :=
  match disk filename with
  | none => some (false, parameters)
  | some contents =>
      (readConfigLines contents.length contents ⟨[], parameters⟩).map fun s =>
        (true, s.fParameters)

/-- `snap_config_file`. -/
structure SnapConfigFile where
  fConfigurationFilename : Bytes
  fOverrideFilename : Bytes
  fParameters : ParameterMap
  fExists : Bool
deriving DecidableEq

namespace SnapConfigFile

/-- `snap_config_file::snap_config_file()`. -/
def create (configurationFilename overrideFilename : Bytes) : SnapConfigFile :=
  ⟨configurationFilename, overrideFilename, OrderedMap.empty, false⟩

def mainFile (path : Bytes) (c : SnapConfigFile) : Bytes :=
  if c.fConfigurationFilename.any (fun b => b == period || b == slash) then
    c.fConfigurationFilename
  else path ++ [slash] ++ c.fConfigurationFilename ++ ascii ".conf"

def secondFile (path : Bytes) (c : SnapConfigFile) : Option Bytes :=
  if c.fConfigurationFilename.any (fun b => b == period || b == slash) then
    if c.fOverrideFilename = [] then none else some c.fOverrideFilename
  else some (path ++ ascii "/snapwebsites.d/" ++ c.fConfigurationFilename ++ ascii ".conf")

/-- `read_config_file()`, where `path` is `g_configurations_path`. -/
def readConfigFile (path : Bytes) (disk : Bytes → Option Bytes) (c : SnapConfigFile) :
    Option SnapConfigFile :=
  (actualReadConfigFile disk (c.mainFile path) c.fParameters).bind
    fun (found, parameters) =>
      match found, c.secondFile path with
      | true, some filename =>
          (actualReadConfigFile disk filename parameters).map fun (_, parameters) =>
            { c with fExists := true, fParameters := parameters }
      | _, _ => some { c with fExists := found, fParameters := parameters }

def getParameter (c : SnapConfigFile) (name : Bytes) : Bytes := (c.fParameters.find? name).getD []

def setParameter (c : SnapConfigFile) (name value : Bytes) : SnapConfigFile :=
  { c with fParameters := c.fParameters.insert name value }

/-- `std::map::insert()` of an entry, which keeps the value that is there. -/
def insertEntry (m : ParameterMap) (e : Bytes × Bytes) : ParameterMap :=
  if m.Has e.1 then m else m.insert e.1 e.2

/-- `set_parameters()`: the range is inserted. -/
def setParameters (c : SnapConfigFile) (params : ParameterMap) : SnapConfigFile :=
  { c with fParameters := params.entries.foldl insertEntry c.fParameters }

end SnapConfigFile

end SnapCpp.ConfigFile
