import SnapCpp.CommunicatorServer
import SnapCpp.IndexLoop

/-!
The command `REGISTER` of a `snap_communicator_server`. A service that registers is
greeted, the others hear of its status, and the messages that were kept for it follow.
Those that timed out are removed first. The loop over the rest erases the messages it
forwards, by index and with a bound of its own.
-/
namespace SnapCpp.RegisterFlush

open QString QNumber CommunicatorMessage CommunicatorServer IndexLoop

variable {ι : Type}

def version : ℤ := 1

/-- Why a command ends early: an exception, or a read outside of the cache. -/
inductive Failure
  | thrown (what : QString)
  | outside

def plain (command : String) : Message := { fCommand := ascii command }

/-- The message of `send_status()`; the dates are in microseconds, -1 for none. -/
def statusMessage (c : Connection ι) (startedOn endedOn : ℤ) : Message :=
  let reply := putParameter (ascii "status")
    (if c.connectionType = .typeDown then ascii "down" else ascii "up")
    (putParameter (ascii "service") c.name
      (putParameter (ascii "cache") (ascii "no") (plain "STATUS")))
  let reply := if startedOn ≠ -1 then
    putParameter (ascii "up_since") (number (startedOn.tdiv 1000000)) reply else reply
  if endedOn ≠ -1 then
    putParameter (ascii "down_since") (number (endedOn.tdiv 1000000)) reply else reply

/-- `send_status()` without a connection to reply to. -/
def sendStatus (server : Server ι) (c : Connection ι) (startedOn endedOn : ℤ) :
    List (Connection ι × Message) :=
  (server.connections.filter fun sc =>
    sc.isService && sc.understoodCommands.contains (ascii "STATUS")).map
      fun sc => (sc, statusMessage c startedOn endedOn)

/-- The outcome of a `REGISTER`. -/
structure Registration (ι : Type) where
  server : Server ι
  memory : Memory
  connection : Connection ι
  sends : List (Connection ι × Message)

def registered (c : Connection ι) (serviceName : QString) : Connection ι :=
  { c with name := serviceName, connectionType := .typeLocal }

def withConnection (server : Server ι) (c : Connection ι) : Server ι :=
  { server with
    connections := server.connections.map fun d => if d.pointer = c.pointer then c else d }

/-- The messages that did not time out, `remove_if()` and `erase()`. -/
def unexpired (cache : List (ℤ × Message)) (now : ℤ) : List (ℤ × Message) :=
  cache.filter fun cached => ¬cached.1 < now

def isFor (serviceName : QString) (cached : ℤ × Message) : Bool := cached.2.fService = serviceName

/-- The command `REGISTER` on a TCP connection. `remoteCommunicator` says whether it
goes to another snapcommunicator, and `none` that the request is not accepted. -/
def processRegister (server : Server ι) (memory : Memory) (connection : Connection ι)
    (remoteCommunicator : Bool) (message : Message) (startedOn now : ℤ) :
    Except Failure (Option (Registration ι)) :=
  match message.fParameters.find? (ascii "service"),
    message.fParameters.find? (ascii "version") with
  | some serviceName, some _ =>
      match getIntegerParameter message (ascii "version") with
      | .error e => .error (.thrown e)
      | .ok v =>
          if v ≠ version then .ok none
          else
            let c := registered connection serviceName
            if !remoteCommunicator && !c.isService then
              .error (.thrown (ascii "REGISTER sent on a \"weird\" connection (1)."))
            else
              let server := withConnection server c
              let status := sendStatus server c startedOn (-1)
              let cache := unexpired memory.fLocalMessageCache now
              match takeOut (isFor serviceName) cache 0 cache.length [] with
              | none => .error .outside
              | some (forwarded, cache) => .ok (some {
                  server
                  memory := { memory with fLocalMessageCache := cache }
                  connection := c
                  sends := [(c, plain "READY"), (c, plain "HELP")] ++ status ++
                    forwarded.map fun cached => (c, cached.2) })
  | _, _ => .ok none

def due (memory : Memory) (serviceName : QString) (now : ℤ) : List (ℤ × Message) :=
  memory.fLocalMessageCache.filter fun cached => cached.2.fService = serviceName ∧ now ≤ cached.1

def others (memory : Memory) (serviceName : QString) (now : ℤ) : Memory :=
  { memory with
    fLocalMessageCache := memory.fLocalMessageCache.filter fun cached =>
      cached.2.fService ≠ serviceName ∧ now ≤ cached.1 }

section Flush

variable (memory : Memory) (serviceName : QString) (now : ℤ)

theorem filter_due : (unexpired memory.fLocalMessageCache now).filter (isFor serviceName) =
    due memory serviceName now := by
  rw [unexpired, List.filter_filter, due]
  refine List.filter_congr fun cached _ => ?_
  rw [Bool.eq_iff_iff]
  simp [isFor]

theorem filter_others : ((unexpired memory.fLocalMessageCache now).filter fun cached =>
    !isFor serviceName cached) = (others memory serviceName now).fLocalMessageCache := by
  rw [unexpired, List.filter_filter, others]
  refine List.filter_congr fun cached _ => ?_
  rw [Bool.eq_iff_iff]
  simp [isFor]

def flushed (server : Server ι) (connection : Connection ι) (startedOn : ℤ) : Registration ι :=
  let c := registered connection serviceName
  { server := withConnection server c
    memory := others memory serviceName now
    connection := c
    sends := [(c, plain "READY"), (c, plain "HELP")] ++
      sendStatus (withConnection server c) c startedOn (-1) ++
      (due memory serviceName now).map fun cached => (c, cached.2) }

theorem processRegister_eq (server : Server ι) (connection : Connection ι)
    (remoteCommunicator : Bool) (message : Message) (startedOn : ℤ)
    (hservice : message.fParameters.find? (ascii "service") = some serviceName)
    (hversion : getIntegerParameter message (ascii "version") = .ok version)
    (hconnection : remoteCommunicator = true ∨ connection.isService = true) :
    processRegister server memory connection remoteCommunicator message startedOn now =
      .ok (some (flushed memory serviceName now server connection startedOn)) := by
  have hthere : ∃ value, message.fParameters.find? (ascii "version") = some value := by
    rw [getIntegerParameter] at hversion
    cases hfind : message.fParameters.find? (ascii "version") with
    | none =>
      rw [hfind] at hversion
      cases hversion
    | some value => exact ⟨value, rfl⟩
  obtain ⟨value, hvalue⟩ := hthere
  have hpeer : (!remoteCommunicator && !(registered connection serviceName).isService) = false := by
    rcases hconnection with rfl | hservice
    · rfl
    · simp [registered, hservice]
  have hloop := takeOut_whole (isFor serviceName) (unexpired memory.fLocalMessageCache now)
  rw [filter_due, filter_others] at hloop
  rw [processRegister, hservice, hvalue]
  dsimp only
  rw [hversion]
  dsimp only
  rw [if_neg (not_not_intro rfl), if_neg (by rw [hpeer]; decide), hloop]
  rfl

/-- A service that registers is sent the messages kept for it, in the order in which they
arrived, and exactly those for the other services are still kept. -/
theorem register_flushes (server : Server ι) (connection : Connection ι)
    (remoteCommunicator : Bool) (message : Message) (startedOn : ℤ)
    (hservice : message.fParameters.find? (ascii "service") = some serviceName)
    (hversion : getIntegerParameter message (ascii "version") = .ok version)
    (hconnection : remoteCommunicator = true ∨ connection.isService = true) :
    ∃ r, processRegister server memory connection remoteCommunicator message startedOn now =
        .ok (some r) ∧
      r.connection = registered connection serviceName ∧
      r.server = withConnection server r.connection ∧
      r.sends = [(r.connection, plain "READY"), (r.connection, plain "HELP")] ++
        sendStatus r.server r.connection startedOn (-1) ++
        (due memory serviceName now).map (fun cached => (r.connection, cached.2)) ∧
      r.memory = others memory serviceName now :=
  ⟨flushed memory serviceName now server connection startedOn,
    processRegister_eq memory serviceName now server connection remoteCommunicator message startedOn
      hservice hversion hconnection, rfl, rfl, rfl, rfl⟩

def newcomer : Connection Unit where
  pointer := 1
  isService := true
  name := []
  serverName := ascii "here"
  connectionType := .typeDown
  address := ⟨Vector.replicate 8 0⟩
  understoodCommands := []
  peer := none

def request : Message :=
  putParameter (ascii "version") (ascii "1")
    (putParameter (ascii "service") (ascii "s") (plain "REGISTER"))

def waiting : Memory where
  fLocalMessageCache := [(9, { fService := ascii "s", fCommand := ascii "A" }),
    (10, { fService := ascii "s", fCommand := ascii "B" }),
    (11, { fService := ascii "s", fCommand := ascii "C" }),
    (12, { fService := ascii "t", fCommand := ascii "D" })]

theorem register_flushes_two : ∃ r, processRegister ⟨ascii "here", ⟨Vector.replicate 8 0⟩, false,
      [ascii "s"], [newcomer]⟩ waiting newcomer false request 5 10 = .ok (some r) ∧
    r.sends.map (fun m => m.2.fCommand) = [ascii "READY", ascii "HELP", ascii "B", ascii "C"] ∧
    r.memory.fLocalMessageCache.map (fun m => m.2.fCommand) = [ascii "D"] := by
  obtain ⟨r, hr, hconnection, hserver, hsends, hmemory⟩ := register_flushes waiting (ascii "s") 10
    ⟨ascii "here", ⟨Vector.replicate 8 0⟩, false, [ascii "s"], [newcomer]⟩ newcomer false request 5
    (by decide) (by decide) (.inr rfl)
  refine ⟨r, hr, ?_, ?_⟩
  · rw [hsends, hserver, hconnection]
    decide
  · rw [hmemory]
    decide

end Flush

end SnapCpp.RegisterFlush
