import SnapCpp.OrderedMap
import SnapCpp.StringReplace

/-!
The messages that services send each other: `snap_communicator_message`, the
checks of its setters, and its conversion into a line of text and back. The
conversion keeps its result until the message changes.
-/
namespace SnapCpp.CommunicatorMessage

open QString Utf StringReplace

def space : UInt16 := 32

def quote : UInt16 := 34

def colon : UInt16 := 58

def semicolon : UInt16 := 59

def less : UInt16 := 60

def equal : UInt16 := 61

def backslash : UInt16 := 92

/-- The data members of `snap_communicator_message`. -/
structure Message where
  fSentFromServer : QString := []
  fSentFromService : QString := []
  fServer : QString := []
  fService : QString := []
  fCommand : QString := []
  fParameters : OrderedMap QString QString := OrderedMap.empty
  fCachedMessage : QString := []

def isNameUnit (canBeLowercase : Bool) (c : UInt16) : Bool :=
  (97 ≤ c && c ≤ 122 && canBeLowercase) || (65 ≤ c && c ≤ 90) || isDigit c || c == 95

/-- The exception of `verify_name()`, if any. -/
def verifyName (name : QString) (canBeEmpty canBeLowercase : Bool) : Except QString Unit :=
  if !canBeEmpty && name.isEmpty then
    .error (ascii "snap_communicator: a message name cannot be empty.")
  else if name.any (fun c => !isNameUnit canBeLowercase c) then
    .error (ascii ("snap_communicator: a message name must be composed of ASCII 'a'..'z', " ++
      "'A'..'Z', '0'..'9', or '_' only (also a command must be uppercase only,) \"") ++
      name ++ ascii "\" is not valid.")
  else if name.head?.any isDigit then
    .error (ascii "snap_communicator: parameter name cannot start with a digit, \"" ++ name ++
      ascii "\" is not valid.")
  else .ok ()

namespace Message

def setSentFromServer (sentFromServer : QString) (m : Message) : Except QString Message :=
  if m.fSentFromServer ≠ sentFromServer then do
    verifyName sentFromServer true true
    return { m with fSentFromServer := sentFromServer, fCachedMessage := [] }
  else return m

def setSentFromService (sentFromService : QString) (m : Message) : Except QString Message :=
  if m.fSentFromService ≠ sentFromService then do
    verifyName sentFromService true true
    return { m with fSentFromService := sentFromService, fCachedMessage := [] }
  else return m

def setServer (server : QString) (m : Message) : Except QString Message :=
  if m.fServer ≠ server then do
    if server ≠ ascii "." ∧ server ≠ ascii "*" then verifyName server true true
    return { m with fServer := server, fCachedMessage := [] }
  else return m

def setService (service : QString) (m : Message) : Except QString Message :=
  if m.fService ≠ service then do
    if service ≠ ascii "*" ∧ service ≠ ascii "?" ∧ service ≠ ascii "." then
      verifyName service true true
    return { m with fService := service, fCachedMessage := [] }
  else return m

def setCommand (command : QString) (m : Message) : Except QString Message := do
  verifyName command false false
  if m.fCommand ≠ command then
    return { m with fCommand := command, fCachedMessage := [] }
  else return m

def addParameter (name value : QString) (m : Message) : Except QString Message := do
  verifyName name false true
  return { m with fParameters := m.fParameters.insert name value, fCachedMessage := [] }

end Message

/-- What the constructor of a string reads of a zero terminated array. -/
def cString (b : List UInt8) : List UInt8 := b.takeWhile (· ≠ 0)

def escapes : List (List Char × List Char) :=
  [(['\\'], ['\\', '\\']), (['\n'], ['\\', 'n']), (['\r'], ['\\', 'r'])]

def unescapes : List (List Char × List Char) :=
  [(['\\', '\\'], ['\\']), (['\\', 'n'], ['\n']), (['\\', 'r'], ['\r'])]

def safeValue (value : QString) : QString :=
  fromUtf8 (cString (stringReplaceMany (cString (toUtf8 value)) (encodeTable unit8 escapes)))

def unsafeValue (value : QString) : QString :=
  fromUtf8 (cString (stringReplaceMany (cString (toUtf8 value)) (encodeTable unit8 unescapes)))

def escapeQuotes (s : QString) : QString :=
  s.flatMap (fun c => if c = quote then [backslash, quote] else [c])

def NeedsQuotes (s : QString) : Prop := semicolon ∈ s ∨ s.head? = some quote

instance (s : QString) : Decidable (NeedsQuotes s) := by
  unfold NeedsQuotes
  infer_instance

def quotedValue (s : QString) : QString :=
  if NeedsQuotes s then quote :: escapeQuotes s ++ [quote] else s

/-- The parameters of a message; `first` says that none is written yet. -/
def writeParameters : Bool → List (QString × QString) → QString
  | _, [] => []
  | first, (name, value) :: rest =>
      (if first then space else semicolon) :: name ++ equal :: quotedValue (safeValue value) ++
        writeParameters false rest

namespace Message

def writeSentFrom (m : Message) : QString :=
  if m.fSentFromServer ≠ [] ∨ m.fSentFromService ≠ [] then
    less :: m.fSentFromServer ++ colon :: m.fSentFromService ++ [space]
  else []

def writeHeader (m : Message) : QString :=
  (if m.fService ≠ [] then
    (if m.fServer ≠ [] then m.fServer ++ [colon] else []) ++ m.fService ++ [slash]
  else []) ++ m.fCommand

def write (m : Message) : QString :=
  m.writeSentFrom ++ m.writeHeader ++ writeParameters true m.fParameters.entries

def toMessage (m : Message) : Except QString (QString × Message) :=
  if m.fCachedMessage.isEmpty then
    if m.fCommand.isEmpty then
      .error (ascii ("snap_communicator_message::to_message(): cannot build a valid message " ++
        "without at least a command."))
    else .ok (m.write, { m with fCachedMessage := m.write })
  else .ok (m.fCachedMessage, m)

end Message

/-- Appending an `ushort` to a string keeps its low byte. -/
def lowByte (c : UInt16) : UInt16 := c % 256

def scanServer : QString → Option (QString × QString)
  | [] => none
  | c :: rest =>
      if c = colon then some ([], rest)
      else if c = space then none
      else (scanServer rest).map (fun r => (lowByte c :: r.1, r.2))

def scanService : QString → Option (QString × QString)
  | [] => none
  | c :: rest =>
      if c = space then some ([], rest)
      else (scanService rest).map (fun r => (lowByte c :: r.1, r.2))

def scanSentFrom (text : QString) : Option (QString × QString × QString) :=
  if text.head? = some less then do
    let server ← scanServer text.tail
    let service ← scanService server.2
    return (server.1, service.1, service.2)
  else some ([], [], text)

structure Header where
  server : QString := []
  service : QString := []
  command : QString := []
  hasServer : Bool := false
  hasService : Bool := false

def scanHeader : QString → Header → Option (Header × QString)
  | [], h => some (h, [])
  | c :: rest, h =>
      if c = space then some (h, c :: rest)
      else if c = colon then
        if h.hasServer || h.hasService || h.command.isEmpty then none
        else scanHeader rest { h with hasServer := true, server := h.command, command := [] }
      else if c = slash then
        if h.hasService || h.command.isEmpty then none
        else scanHeader rest { h with hasService := true, service := h.command, command := [] }
      else scanHeader rest { h with command := h.command ++ [c] }

def scanQuoted : QString → Option (QString × QString)
  | [] => none
  | [c] => if c = quote then some ([], []) else none
  | c :: c' :: rest =>
      if c = quote then some ([], c' :: rest)
      else if c = backslash ∧ c' = quote then
        (scanQuoted rest).map (fun r => (quote :: r.1, r.2))
      else (scanQuoted (c' :: rest)).map (fun r => (c :: r.1, r.2))

def scanValue (text : QString) : Option (QString × QString) :=
  if text.head? = some quote then scanQuoted text.tail
  else some (text.takeWhile (· ≠ semicolon), text.dropWhile (· ≠ semicolon))

def scanParameter (text : QString) : Option ((QString × QString) × QString) :=
  let name := text.takeWhile (· ≠ equal)
  if name.isEmpty then none
  else if (verifyName name false true).isOk then
    match text.dropWhile (· ≠ equal) with
    | [] => none
    | _ :: after =>
        match scanValue after with
        | none => none
        | some (value, []) => some ((name, unsafeValue value), [])
        | some (value, c :: rest) =>
            if c = semicolon then some ((name, unsafeValue value), rest) else none
  else none

def scanParameters : ℕ → QString → OrderedMap QString QString →
    Option (OrderedMap QString QString)
  | _, [], parameters => some parameters
  | 0, _ :: _, _ => none
  | fuel + 1, text, parameters =>
      match scanParameter text with
      | none => none
      | some (p, rest) => scanParameters fuel rest (parameters.insert p.1 p.2)

namespace Message

def fromMessage (message : QString) (_m : Message) : Option Message := do
  let text := message.takeWhile (· ≠ 0)
  let sentFrom ← scanSentFrom text
  let header ← scanHeader sentFrom.2.2 {}
  if header.1.command.isEmpty then none
  else
    let parameters ← scanParameters header.2.tail.length header.2.tail OrderedMap.empty
    return {
      fSentFromServer := sentFrom.1
      fSentFromService := sentFrom.2.1
      fServer := header.1.server
      fService := header.1.service
      fCommand := header.1.command
      fParameters := parameters }

end Message

end SnapCpp.CommunicatorMessage
