import SnapCpp.LockTicket

/-!
The snaplock daemon: its computers, its two maps of tickets and the handler
of each message. Ticket objects are shared between the maps, so they live in
a heap and the maps hold addresses. A handler that throws ends the process
(`main()` only logs the exception), hence the `Except`.
-/
namespace SnapCpp.LockDaemon

open QString LockTicket

structure Sent where
  ticket : Option Ptr
  message : Message
  deriving DecidableEq

/-- The data members of `snaplock` the handlers use, the heap of ticket
objects, the system clock and the messages sent so far. -/
structure Daemon where
  fServerName : QString
  debugBuild : Bool := false
  fComputers : OrderedMap QString Bool := OrderedMap.empty
  fEnteringTickets : GroupedMap QString QString Ptr := GroupedMap.empty
  fTickets : GroupedMap QString QString Ptr := GroupedMap.empty
  heap : Ptr → Ticket := fun _ => default
  next : Ptr := 0
  clock : Clock
  outbox : List Sent := []

def snapLockMinimumTimeout : ℤ := 3

def defaultTimeout : ℤ := 5

/-- Narrowing of a 64 bit parameter to `int32_t` or `pid_t`. -/
def int32 (n : ℤ) : ℤ := Int.bmod n (2 ^ 32)

def replyTo (m : Message) (c : Command) : Message :=
  { server := m.sentFromServer, service := m.sentFromService, command := c }

/-- The checks of `snaplock::get_parameters()` on the requested parameters. -/
def getParameters (objectName : QString) (pid : Option ℤ) (key source : Option QString) :
    Except Failure Unit :=
  if objectName.isEmpty then .error (.invalidMessage
    "snaplock::get_parameters(): Invalid object name. We cannot lock the empty string.")
  else if pid.any (fun n => int32 n < 1) then .error (.invalidMessage
    ("snaplock::get_parameters(): Invalid pid specified for a lock. " ++
      "It must be a positive decimal number."))
  else if key.any List.isEmpty then .error (.invalidMessage
    "snaplock::get_parameters(): A key cannot be an empty string.")
  else if source.any List.isEmpty then .error (.invalidMessage
    "snaplock::get_parameters(): A source cannot be an empty string.")
  else .ok ()

namespace Daemon

def quorum (d : Daemon) : ℕ := d.fComputers.size / 2 + 1

def host (d : Daemon) : Host := ⟨d.fServerName, d.quorum⟩

def tick (d : Daemon) : Daemon := { d with clock := d.clock.next }

def post (d : Daemon) (ticket : Option Ptr) (ms : List Message) : Daemon :=
  { d with outbox := d.outbox ++ ms.map (fun m => ⟨ticket, m⟩) }

def setTicket (d : Daemon) (p : Ptr) (t : Ticket) : Daemon :=
  { d with heap := Function.update d.heap p t }

/-- Keep what a ticket method left behind and send its messages. -/
def store (d : Daemon) (p : Ptr) (r : Ticket × List Message) : Daemon :=
  (d.setTicket p r.1).post (some p) r.2

def allocate (d : Daemon) (t : Ticket) : Daemon :=
  { d with heap := Function.update d.heap d.next t, next := d.next + 1 }

def putEntering (d : Daemon) (objectName key : QString) (p : Ptr) : Daemon :=
  { d with fEnteringTickets := d.fEnteringTickets.assign objectName key p }

def eraseEntering (d : Daemon) (objectName key : QString) : Daemon :=
  { d with fEnteringTickets := d.fEnteringTickets.eraseKey objectName key }

def putTicket (d : Daemon) (objectName key : QString) (p : Ptr) : Daemon :=
  { d with fTickets := d.fTickets.assign objectName key p }

def eraseTicket (d : Daemon) (objectName key : QString) : Daemon :=
  { d with fTickets := d.fTickets.eraseKey objectName key }

def activateLock (d : Daemon) (p : Ptr) : Daemon :=
  let r := (d.heap p).activateLock d.host d.clock
  { d.store p (r.1, r.2.1) with clock := r.2.2 }

def lockFailed (d : Daemon) (p : Ptr) : Daemon :=
  d.store p ((d.heap p).lockFailed d.host)

def removeEntering (d : Daemon) (key : QString) (p : Ptr) : Daemon :=
  let r := (d.heap p).removeEntering d.heap key d.clock
  { d.setTicket p r.1 with clock := r.2 }

/-- The loop of `activate_first_lock()`: tickets that timed out leave the
map, the first other one is activated. -/
def activateFirst (objectName : QString) : List (QString × Ptr) → Daemon → Daemon
  | [], d => d
  | (key, p) :: rest, d =>
      if (d.heap p).timedOut d.clock.now then
        activateFirst objectName rest ((d.tick.lockFailed p).eraseTicket objectName key)
      else d.tick.activateLock p

def activateFirstLock (d : Daemon) (objectName : QString) : Daemon :=
  activateFirst objectName (d.fTickets.group objectName).entries d

/-- The inner loop of `cleanup()` over the tickets of an object. The flag
says whether something was erased. -/
def expireTickets (objectName : QString) : List (QString × Ptr) → Bool → Daemon → Bool × Daemon
  | [], tryActivate, d => (tryActivate, d)
  | (key, p) :: rest, tryActivate, d =>
      if (d.heap p).timedOut d.clock.now then
        expireTickets objectName rest true
          ((d.tick.lockFailed p).eraseTicket objectName key)
      else expireTickets objectName rest tryActivate d.tick

/-- The first loop of `cleanup()`, over the objects present at entry. When
`activate_first_lock()` erases the last ticket of the object the loop is at,
its iterator is advanced after the entry it points to is gone. -/
def cleanupTickets : List QString → Daemon → Except Failure Daemon
  | [], d => .ok d
  | objectName :: rest, d =>
      let r := expireTickets objectName (d.fTickets.group objectName).entries false d
      if (r.2.fTickets.group objectName).isEmpty then cleanupTickets rest r.2
      else if r.1 then
        let d₁ := r.2.activateFirstLock objectName
        if (d₁.fTickets.group objectName).isEmpty then .error .invalidIterator
        else cleanupTickets rest d₁
      else cleanupTickets rest r.2

def expireEntering (objectName : QString) : List (QString × Ptr) → Daemon → Daemon
  | [], d => d
  | (key, p) :: rest, d =>
      if (d.heap p).timedOut d.clock.now then
        expireEntering objectName rest (d.tick.eraseEntering objectName key)
      else expireEntering objectName rest d.tick

/-- The second loop of `cleanup()`. -/
def cleanupEntering : List QString → Daemon → Daemon
  | [], d => d
  | objectName :: rest, d =>
      cleanupEntering rest
        (expireEntering objectName (d.fEnteringTickets.group objectName).entries d)

def cleanup (d : Daemon) : Except Failure Daemon := do
  let d₁ ← cleanupTickets d.fTickets.names d
  return cleanupEntering d₁.fEnteringTickets.names d₁

def timeoutOf (d : Daemon) (timeout : Option ℤ) : ℤ × Daemon :=
  match timeout with
  | some t => (t, d)
  | none => (d.clock.now + defaultTimeout, d.tick)

def clientKey (d : Daemon) (pid : ℤ) : QString :=
  joinSlash d.fServerName (decimal (int32 pid).toNat)

def lock (m : Message) (objectName : QString) (pid : ℤ) (timeout : Option ℤ)
    (duration : ℤ) (d : Daemon) : Except Failure Daemon := do
  getParameters objectName (some pid) none none
  let r := d.timeoutOf timeout
  if r.1 ≤ r.2.clock.now then return r.2.tick
  else if int32 duration < snapLockMinimumTimeout then
    throw (.invalidMessage "snaplock::lock(): Invalid duration, the minimum accepted is 3.")
  else
    let ticket := Ticket.create objectName (d.clientKey pid) r.1 (int32 duration)
      m.sentFromServer m.sentFromService
    return ((r.2.tick.allocate ticket).putEntering objectName (d.clientKey pid) d.next).post
      (some d.next) ticket.entering

def unlock (objectName : QString) (pid : ℤ) (d : Daemon) : Except Failure Daemon := do
  getParameters objectName (some pid) none none
  match (d.fTickets.group objectName).entries.find?
      (fun e => (d.heap e.2).fEnteringKey = d.clientKey pid) with
  | some e => return d.post (some e.2) ((d.heap e.2).dropTicket d.host)
  | none => return d

def lockEntering (m : Message) (objectName key : QString) (timeout : Option ℤ)
    (duration : ℤ) (source : QString) (d : Daemon) : Except Failure Daemon := do
  getParameters objectName none (some key) (some source)
  let r := d.timeoutOf timeout
  let reply := replyTo m (.lockEntered objectName key)
  if r.2.clock.now < r.1 then
    if (r.2.fEnteringTickets.group objectName).Has key then
      cleanup (r.2.tick.post none [reply])
    else if int32 duration < snapLockMinimumTimeout then
      throw (.invalidMessage
        "snaplock::lockentering(): Invalid duration, the minimum accepted is 3.")
    else match splitSlash source with
      | [serverName, serviceName] =>
          let ticket := Ticket.create objectName key r.1 (int32 duration) serverName serviceName
          cleanup (((r.2.tick.allocate ticket).putEntering objectName key d.next).post
            none [reply])
      | _ => throw (.invalidMessage
          "snaplock::lockentering(): Invalid number of parameters in source.")
  else cleanup r.2.tick

def lockEntered (objectName key : QString) (d : Daemon) : Except Failure Daemon := do
  getParameters objectName none (some key) none
  match (d.fEnteringTickets.group objectName).find? key with
  | some p => return d.store p ((d.heap p).entered d.host)
  | none => return d

def lockExiting (objectName key : QString) (d : Daemon) : Except Failure Daemon := do
  getParameters objectName none (some key) none
  if (d.fEnteringTickets.group objectName).Has key then
    let d₁ := d.eraseEntering objectName key
    let tickets := (d₁.fTickets.group objectName).entries
    return (tickets.foldl (fun d' e => d'.removeEntering key e.2) d₁).activateFirstLock objectName
  else return d

def lastTicket (d : Daemon) (objectName : QString) : UInt32 :=
  (d.fTickets.group objectName).entries.foldl
    (fun last e => if last < (d.heap e.2).fOurTicket then (d.heap e.2).fOurTicket else last) 0

def getMaxTicket (m : Message) (objectName key : QString) (d : Daemon) :
    Except Failure Daemon := do
  getParameters objectName none (some key) none
  let d₁ ← cleanup d
  return d₁.post none [replyTo m (.maxTicket objectName key (d₁.lastTicket objectName).toNat)]

def maxTicket (objectName key : QString) (ticketId : ℤ) (d : Daemon) :
    Except Failure Daemon := do
  getParameters objectName none (some key) none
  match (d.fEnteringTickets.group objectName).find? key with
  | some p =>
      let r ← (d.heap p).maxTicket ticketId d.host
      return d.store p r
  | none => return d

def addTicket (m : Message) (objectName key : QString) (timeout : Option ℤ) (d : Daemon) :
    Except Failure Daemon := do
  getParameters objectName none (some key) none
  let d₁ := (d.timeoutOf timeout).2
  if d.debugBuild && (d₁.fTickets.group objectName).Has key then
    throw (.logicError "snaplock::add_ticket() ticket already exists")
  else match splitSlash key with
  | _ :: serverName :: pid :: _ =>
      match (d₁.fEnteringTickets.group objectName).find? (joinSlash serverName pid) with
      | some p =>
          let reply := replyTo m (.ticketAdded objectName key)
          return (d₁.putTicket objectName key p).post none [reply]
      | none => throw (.logicError
          "entering ticket for object_name.key not found in add_ticket()")
  | _ => throw (.logicError
      "snaplock::add_ticket() called with an invalid ticket key (not enough segments).")

def ticketAdded (objectName key : QString) (d : Daemon) : Except Failure Daemon := do
  getParameters objectName none (some key) none
  match (d.fTickets.group objectName).find? key with
  | some p =>
      let entering := d.fEnteringTickets.group objectName
      if entering.isEmpty then return d
      else return d.store p ((d.heap p).ticketAdded entering d.host)
  | none => return d

def dropTicket (objectName key : QString) (d : Daemon) : Except Failure Daemon := do
  getParameters objectName none (some key) none
  match splitSlash key with
  | [_, serverName, pid] =>
      let d₁ := (d.eraseTicket objectName key).activateFirstLock objectName
      return d₁.eraseEntering objectName (joinSlash serverName pid)
  | _ => return d.eraseEntering objectName key

def sendLockReady (d : Daemon) : Daemon :=
  d.post none [broadcast (.lockReady d.fServerName)]

def lockReady (serverName : QString) (d : Daemon) : Except Failure Daemon :=
  if serverName.isEmpty then
    .error (.invalidMessage "snaplock::lockready(): Invalid server name (empty).")
  else if d.fComputers.Has serverName then .ok d
  else
    let d₁ := { d with fComputers := d.fComputers.insert serverName true }
    .ok (if serverName ≠ d.fServerName then d₁.sendLockReady else d₁)

def interpretStatus (service : QString) (d : Daemon) : Daemon :=
  if service = ascii "remote connection" ∨ service = ascii "remote communicator connection" then
    d.sendLockReady
  else d

def lockGone (serverName : QString) (d : Daemon) : Daemon :=
  if serverName = d.fServerName then d
  else { d with fComputers := d.fComputers.erase serverName }

def processMessage (m : Message) (d : Daemon) : Except Failure Daemon :=
  match m.command with
  | .lock o pid timeout duration => d.lock m o pid timeout duration
  | .unlock o pid => d.unlock o pid
  | .lockEntering o key timeout duration source => d.lockEntering m o key timeout duration source
  | .lockEntered o key => d.lockEntered o key
  | .getMaxTicket o key => d.getMaxTicket m o key
  | .maxTicket o key ticketId => d.maxTicket o key ticketId
  | .addTicket o key timeout => d.addTicket m o key timeout
  | .ticketAdded o key => d.ticketAdded o key
  | .lockExiting o key => d.lockExiting o key
  | .dropTicket o key => d.dropTicket o key
  | .lockReady serverName => d.lockReady serverName
  | .lockGone serverName => .ok (d.lockGone serverName)
  | .status service => .ok (d.interpretStatus service)
  | .locked _ _ _ | .lockFailed _ _ | .unlocked _ _ => .ok d

end Daemon

end SnapCpp.LockDaemon
