import SnapCpp.CommunicatorMessage
import SnapCpp.SnapAddr

/-!
The part of `snap_communicator_server` that passes messages on: to the services
that are connected to it and to other snapcommunicators. A message that leaves a
server carries its own identifier, a time at which it is dropped, the number of
servers it came through and the addresses that were sent it. The commands for the
snapcommunicator itself are left out: they do not pass on the message.
-/
namespace SnapCpp.CommunicatorServer

open QString QNumber CommunicatorMessage SnapAddr

inductive ConnectionType
  | typeDown
  | typeLocal
  | typeRemote
  deriving DecidableEq

structure Connection (ι : Type) where
  pointer : ℕ
  isService : Bool
  name : QString
  serverName : QString
  connectionType : ConnectionType
  address : Address
  understoodCommands : List QString
  peer : Option ι

/-- What does not change in a server while messages go through it. -/
structure Server (ι : Type) where
  fServerName : QString
  fMyAddress : Address
  isDebug : Bool
  fLocalServicesList : List QString
  connections : List (Connection ι)

/-- What does: the messages it had, the sequence number of its own messages, and
those it keeps for a service that is not there yet. -/
structure Memory where
  fReceivedBroadcastMessages : OrderedMap QString ℤ := OrderedMap.empty
  gBroadcastSequence : ℕ := 0
  fLocalMessageCache : List (ℤ × Message) := []

def broadcastMsgid : QString := ascii "broadcast_msgid"

def broadcastTimeout : QString := ascii "broadcast_timeout"

def broadcastInformedNeighbors : QString := ascii "broadcast_informed_neighbors"

def broadcastHops : QString := ascii "broadcast_hops"

def broadcastOriginator : QString := ascii "broadcast_originator"

def getParameter (m : Message) (name : QString) : Except QString QString :=
  match m.fParameters.find? name with
  | some value => .ok value
  | none => .error (ascii ("snap_communicator_message::get_parameter(): parameter not defined, " ++
      "try has_parameter() before calling a get_parameter() function."))

def getIntegerParameter (m : Message) (name : QString) : Except QString ℤ :=
  match m.fParameters.find? name with
  | some value =>
      match toLongLong value with
      | some n => .ok n
      | none => .error (ascii ("snap_communicator_message::get_integer_parameter(): message " ++
          "expected integer could not be converted."))
  | none => .error (ascii ("snap_communicator_message::get_integer_parameter(): parameter not " ++
      "defined, try has_parameter() before calling a get_integer_parameter() function."))

/-- `add_parameter()` with a name that `verify_name()` accepts. -/
def putParameter (name value : QString) (m : Message) : Message :=
  { m with fParameters := m.fParameters.insert name value, fCachedMessage := [] }

/-- The conversion of a 64 bit integer to an `int`. -/
def toInt32 (n : ℤ) : ℤ := n.bmod (2 ^ 32)

/-- What the parameters of a broadcast message say. -/
structure Incoming where
  msgid : QString := []
  informedNeighbors : QString := []
  hops : ℤ := 0
  timeout : ℤ := 0

/-- The outcome of the checks of `broadcast_message()`. -/
inductive Admission
  | ignored
  | failed (memory : Memory) (error : QString)
  | accepted (memory : Memory) (incoming : Incoming)

/-- The received messages once `msgid` joined them; those that timed out are gone. -/
def remember (memory : Memory) (msgid : QString) (timeout now : ℤ) : Memory :=
  { memory with
    fReceivedBroadcastMessages :=
      (memory.fReceivedBroadcastMessages.retain (fun t => ¬ t < now)).insert msgid timeout }

def accept (memory : Memory) (message : Message) (now : ℤ) : Admission :=
  match message.fParameters.find? broadcastMsgid with
  | none => .accepted memory {}
  | some msgid =>
      match getIntegerParameter message broadcastTimeout with
      | .error e => .failed memory e
      | .ok timeout =>
          if timeout < now then .ignored
          else if memory.fReceivedBroadcastMessages.Has msgid then .ignored
          else
            match getParameter message broadcastInformedNeighbors with
            | .error e => .failed (remember memory msgid timeout now) e
            | .ok informedNeighbors =>
                match getIntegerParameter message broadcastHops with
                | .error e => .failed (remember memory msgid timeout now) e
                | .ok hops =>
                    .accepted (remember memory msgid timeout now)
                      ⟨msgid, informedNeighbors, toInt32 hops, timeout⟩

def star : QString := ascii "*"

def anyone : QString := ascii "?"

def here : QString := ascii "."

def destination (message : Message) : QString :=
  if message.fService ≠ here ∧ message.fService ≠ anyone ∧ message.fService ≠ star then
    if message.fServer = [] then anyone else message.fServer
  else message.fService

variable {ι : Type}

def lets (all remote : Bool) (c : Connection ι) : Bool :=
  match c.address.networkType with
  | .typePrivate => remote
  | .typeUnknown => all
  | _ => false

def isLocal (c : Connection ι) (command : QString) : Bool :=
  c.isService && c.address.networkType = .typeLoopback && c.understoodCommands.contains command

def addressText (c : Connection ι) : QString := c.address.getIpv4or6String false

def inform : List (Connection ι) → List QString → List QString × List (Connection ι)
  | [], informed => (informed, [])
  | c :: rest, informed =>
      if addressText c ∈ informed then inform rest informed
      else
        let r := inform rest (informed ++ [addressText c])
        (r.1, c :: r.2)

def candidates (server : Server ι) (message : Message) (accepting : List (Connection ι))
    (hops : ℤ) : List (Connection ι) :=
  if accepting.isEmpty then
    let all := decide (hops < 5) && destination message == star
    let remote := decide (hops < 5) && (all || destination message == anyone)
    server.connections.filter (lets all remote)
  else accepting

def locals (server : Server ι) (message : Message) (accepting : List (Connection ι)) :
    List (Connection ι) :=
  if accepting.isEmpty then server.connections.filter (fun c => isLocal c message.fCommand)
  else []

def originator (server : Server ι) : QString := server.fMyAddress.getIpv4or6String true

def broadcastCopy (server : Server ι) (message : Message) (incoming : Incoming) (sequence : ℕ)
    (informed : List QString) (now : ℤ) : Message :=
  let msgid := if incoming.msgid = [] then
    server.fServerName ++ ascii "-" ++ decimal sequence else incoming.msgid
  let timeout := if incoming.timeout = 0 then now + 10 else incoming.timeout
  let list := if originator server ∈ informed then informed else informed ++ [originator server]
  putParameter broadcastInformedNeighbors (joinComma list)
    (putParameter broadcastTimeout (number timeout)
      (putParameter broadcastOriginator (originator server)
        (putParameter broadcastHops (number (toInt32 (incoming.hops + 1)))
          (putParameter broadcastMsgid msgid message))))

structure Outcome (ι : Type) where
  sends : List (Connection ι × Message) := []
  broadcast : Option ℤ := none
  report : Bool := false

/-- The second half of `broadcast_message()`. -/
def relay (server : Server ι) (memory : Memory) (message : Message)
    (accepting : List (Connection ι)) (incoming : Incoming) (now : ℤ) :
    Memory × Outcome ι :=
  let r := inform (candidates server message accepting incoming.hops)
    (splitComma incoming.informedNeighbors)
  let kept := (locals server message accepting).map (fun c => (c, message))
  if r.2.isEmpty then (memory, { sends := kept, broadcast := some incoming.hops })
  else
    let sequence := memory.gBroadcastSequence + 1
    let copy := broadcastCopy server message incoming sequence r.1 now
    ({ memory with gBroadcastSequence := sequence },
      { sends := kept ++ r.2.map (fun c => (c, copy)), broadcast := some incoming.hops })

/-- `broadcast_message()`. What was remembered stays so if an exception is thrown. -/
def broadcastMessage (server : Server ι) (memory : Memory) (message : Message)
    (accepting : List (Connection ι)) (now : ℤ) : Memory × Except QString (Outcome ι) :=
  match accept memory message now with
  | .ignored => (memory, .ok {})
  | .failed memory' e => (memory', .error e)
  | .accepted memory' incoming =>
      let r := relay server memory' message accepting incoming now
      (r.1, .ok r.2)

inductive Route (ι : Type)
  | service (c : Connection ι)
  | remote (accepting : List (Connection ι))

def serverNameMissing : QString := ascii "server name missing in connection"

def route (isDebug : Bool) (serverName service : QString) (allServers : Bool) :
    List (Connection ι) → List (Connection ι) → Except QString (Route ι)
  | [], accepting => .ok (.remote accepting)
  | c :: rest, accepting =>
      if c.serverName = [] then
        if isDebug ∧ (c.isService ∨ c.connectionType ≠ .typeDown) then .error serverNameMissing
        else route isDebug serverName service allServers rest accepting
      else if allServers ∨ serverName = c.serverName then
        if c.isService then
          if c.name = service then .ok (.service c)
          else if c.connectionType = .typeRemote then
            route isDebug serverName service allServers rest (accepting ++ [c])
          else route isDebug serverName service allServers rest accepting
        else route isDebug serverName service allServers rest (accepting ++ [c])
      else route isDebug serverName service allServers rest accepting

/-- `verify_command()` does not throw. -/
def verified (isDebug : Bool) (c : Connection ι) (command : QString) : Bool :=
  !isDebug || c.understoodCommands.isEmpty || c.understoodCommands.contains command

def cacheOption (cache name : QString) : Option QString :=
  (cache.splitOn 59).foldl (fun found p =>
    match p.splitOn 61 with
    | [key, value] => if key = name then some value else found
    | _ => found) none

def timeToLive (cache : QString) : ℤ :=
  match cacheOption cache (ascii "ttl") with
  | none => 60
  | some text =>
      match toLongLong text with
      | some ttl => if 10 ≤ ttl ∧ ttl ≤ 86400 then ttl else 60
      | none => 60

def keep (memory : Memory) (message : Message) (now : ℤ) : Memory :=
  let cache := (message.fParameters.find? (ascii "cache")).getD []
  if cache ≠ ascii "no" then
    { memory with
      fLocalMessageCache := memory.fLocalMessageCache ++ [(now + timeToLive cache, message)] }
  else memory

def wantsReport (message : Message) : Bool :=
  message.fParameters.find? (ascii "transmission_report") == some (ascii "failure")

/-- Whether the checks at the top of `process_message()` drop a message. -/
def dropped (memory : Memory) (message : Message) (now : ℤ) : Except QString Bool :=
  match message.fParameters.find? broadcastMsgid with
  | none => .ok false
  | some msgid => do
      let timeout ← getIntegerParameter message broadcastTimeout
      return decide (timeout < now) || decide (memory.fReceivedBroadcastMessages.Has msgid)

def serverName (server : Server ι) (message : Message) : QString :=
  if message.fServer = here then server.fServerName else message.fServer

def processDirected (server : Server ι) (memory : Memory) (message : Message) (now : ℤ) :
    Memory × Except QString (Outcome ι) :=
  let name := serverName server message
  let allServers := name.isEmpty || name == star
  match route server.isDebug name message.fService allServers server.connections [] with
  | .error e => (memory, .error e)
  | .ok (.service c) =>
      if verified server.isDebug c message.fCommand then (memory, .ok { sends := [(c, message)] })
      else (memory, .ok {})
  | .ok (.remote accepting) =>
      if (allServers || name == server.fServerName) &&
          server.fLocalServicesList.contains message.fService then
        (keep memory message now, .ok { report := wantsReport message })
      else if name = server.fServerName then (memory, .ok { report := wantsReport message })
      else if accepting.isEmpty then (memory, .ok {})
      else broadcastMessage server memory message accepting now

/-- `process_message()`, for a message that is not a command of the server itself. -/
def processMessage (server : Server ι) (memory : Memory) (message : Message) (now : ℤ) :
    Memory × Except QString (Outcome ι) :=
  match dropped memory message now with
  | .error e => (memory, .error e)
  | .ok true => (memory, .ok {})
  | .ok false =>
      let name := serverName server message
      let service := message.fService
      if (name = [] ∨ name = server.fServerName ∨ name = star) ∧
          (service = [] ∨ service = ascii "snapcommunicator") then (memory, .ok {})
      else if service = star ∨ service = anyone ∨ service = here then
        if name ≠ [] ∧ name ≠ star ∧ (service = star ∨ service = anyone) then (memory, .ok {})
        else broadcastMessage server memory message [] now
      else processDirected server memory message now

end SnapCpp.CommunicatorServer
