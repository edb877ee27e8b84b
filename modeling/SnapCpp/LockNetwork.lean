import SnapCpp.LockDaemon

/-!
Snaplock daemons that exchange messages. Each ordered pair of servers has a
channel; a broadcast puts one copy in the channel to every server, a reply
goes to the server it answers. One action lets one daemon process one message:
the LOCK or UNLOCK of a client, a notice of snapcommunicator or a message in
flight. The ledger is history no daemon keeps: it says which request a ticket
object belongs to, who processed what and whose replies were counted.
-/
namespace SnapCpp.LockNetwork

open QString LockTicket LockDaemon

structure TicketRef where
  server : QString
  ptr : Ptr
  deriving DecidableEq

/-- A message in flight, and the ticket object whose broadcast it is or answers. -/
structure Packet where
  message : Message
  origin : Option TicketRef
  deriving DecidableEq

/-- The three rounds in which a ticket counts replies. -/
inductive Stage
  | entering
  | max
  | adding
  deriving DecidableEq

inductive Client
  | idle
  | waiting
  | holding
  deriving DecidableEq

structure Ledger where
  requests : ℕ := 0
  owner : TicketRef → ℕ := fun _ => 0
  processed : List (Stage × TicketRef × QString) := []
  counted : List (Stage × TicketRef × QString) := []
  released : List TicketRef := []
  client : QString → QString → QString → Client := fun _ _ _ => .idle

structure World where
  daemon : QString → Daemon
  stopped : List QString := []
  channel : QString → QString → List Packet := fun _ _ => []
  ledger : Ledger := {}

/-- Who processes what next. -/
inductive Action
  | lock (server : QString) (clock : Clock) (sentFromServer sentFromService objectName : QString)
      (pid : ℤ) (timeout : Option ℤ) (duration : ℤ)
  | unlock (server : QString) (clock : Clock) (objectName : QString) (pid : ℤ)
  | gone (server : QString) (clock : Clock) (serverName : QString)
  | status (server : QString) (clock : Clock) (service : QString)
  | deliver (source target : QString) (index : ℕ) (clock : Clock)
  deriving DecidableEq

/-- The names of the servers that run snaplock, as `verify_server_name()` leaves them. -/
structure Cluster where
  servers : List QString
  nodup : servers.Nodup
  valid : ∀ s ∈ servers, s ≠ [] ∧ slash ∉ s

/-- The daemons a message is for; clients and snapcommunicator are none. -/
def addressees (c : Cluster) (m : Message) : List QString :=
  if m.service = ascii "*" then c.servers
  else if m.service = ascii "snaplock" then c.servers.filter (fun s => s = m.server)
  else []

/-- The sender snapcommunicator adds to a message it forwards. -/
def stamp (server : QString) (m : Message) : Message :=
  { m with sentFromServer := server, sentFromService := ascii "snaplock" }

def packetOf (server : QString) (origin : Option TicketRef) (x : Sent) : Packet where
  message := stamp server x.message
  origin := match x.ticket with
    | some p => some ⟨server, p⟩
    | none => origin

def outgoing (c : Cluster) (server : QString) (origin : Option TicketRef) (sent : List Sent)
    (target : QString) : List Packet :=
  (sent.filter (fun x => target ∈ addressees c x.message)).map (packetOf server origin)

def askStage : Command → Option Stage
  | .lockEntering .. => some .entering
  | .getMaxTicket .. => some .max
  | .addTicket .. => some .adding
  | _ => none

def countsFor (d : Daemon) : Command → Option (Stage × Ptr)
  | .lockEntered o key =>
      match (d.fEnteringTickets.group o).find? key with
      | some p => if (d.heap p).fGetMaxTicket then none else some (.entering, p)
      | none => none
  | .maxTicket o key _ =>
      match (d.fEnteringTickets.group o).find? key with
      | some p => if (d.heap p).fAddedTicket then none else some (.max, p)
      | none => none
  | .ticketAdded o key =>
      match (d.fTickets.group o).find? key with
      | some p =>
          if (d.fEnteringTickets.group o).isEmpty || (d.heap p).fAddedTicketQuorum then none
          else some (.adding, p)
      | none => none
  | _ => none

namespace Ledger

def newOwner (l : Ledger) (origin : Option TicketRef) : ℕ :=
  match origin with
  | some r => l.owner r
  | none => l.requests

def clientAfter (server : QString) (d : Daemon) (client : QString → QString → QString → Client) :
    List Sent → QString → QString → QString → Client
  | [] => client
  | x :: rest =>
      match x.ticket, x.message.command with
      | some p, .locked o _ _ => clientAfter server d
          (fun s key o' => if s = server ∧ key = (d.heap p).fEnteringKey ∧ o' = o then .holding
            else client s key o') rest
      | _, _ => clientAfter server d client rest

def clientBefore (server : QString) (d : Daemon)
    (client : QString → QString → QString → Client) :
    Command → QString → QString → QString → Client
  | .lock o pid _ _ => fun s key o' =>
      if s = server ∧ key = d.clientKey pid ∧ o' = o then .waiting else client s key o'
  | .unlock o pid => fun s key o' =>
      if s = server ∧ key = d.clientKey pid ∧ o' = o then .idle else client s key o'
  | _ => client

/-- What the processing of a packet that turned `d` into `d'` adds to the history. -/
def record (l : Ledger) (server : QString) (packet : Packet) (d d' : Daemon) : Ledger where
  requests := if d.next < d'.next ∧ packet.origin = none then l.requests + 1 else l.requests
  owner := if d.next < d'.next then
      Function.update l.owner ⟨server, d.next⟩ (l.newOwner packet.origin)
    else l.owner
  processed := match askStage packet.message.command, packet.origin with
    | some stage, some r => (stage, r, server) :: l.processed
    | _, _ => l.processed
  counted := match countsFor d packet.message.command, packet.origin with
    | some (stage, p), some r =>
        if r = ⟨server, p⟩ then (stage, r, packet.message.sentFromServer) :: l.counted
        else l.counted
    | _, _ => l.counted
  released := (d'.outbox.filterMap (fun x =>
      match x.ticket, x.message.command with
      | some p, .dropTicket _ _ => some ⟨server, p⟩
      | _, _ => none)) ++ l.released
  client := clientAfter server d'
    (clientBefore server d l.client packet.message.command) d'.outbox

end Ledger

namespace World

/-- The daemon about to process a message: clock set and nothing sent yet. -/
def awake (w : World) (server : QString) (clock : Clock) : Daemon :=
  { w.daemon server with clock := clock, outbox := [] }

def receive (c : Cluster) (w : World) (server : QString) (clock : Clock) (packet : Packet) :
    World :=
  match (w.awake server clock).processMessage packet.message with
  | .error _ => { w with stopped := server :: w.stopped }
  | .ok d =>
      { daemon := Function.update w.daemon server d
        stopped := w.stopped
        channel := fun a b =>
          if a = server then w.channel a b ++ outgoing c server packet.origin d.outbox b
          else w.channel a b
        ledger := w.ledger.record server packet (w.awake server clock) d }

def take (w : World) (source target : QString) (index : ℕ) : World :=
  { w with channel := fun a b =>
      if a = source ∧ b = target then (w.channel a b).eraseIdx index else w.channel a b }

def packetFor (w : World) : Action → Option (QString × Clock × Packet)
  | .lock server clock fromServer fromService o pid timeout duration =>
      some (server, clock, ⟨{ sentFromServer := fromServer, sentFromService := fromService,
                              command := .lock o pid timeout duration }, none⟩)
  | .unlock server clock o pid => some (server, clock, ⟨{ command := .unlock o pid }, none⟩)
  | .gone server clock name => some (server, clock, ⟨{ command := .lockGone name }, none⟩)
  | .status server clock service =>
      some (server, clock, ⟨{ command := .status service }, none⟩)
  | .deliver source target index clock =>
      ((w.channel source target)[index]?).map (fun packet => (target, clock, packet))

/-- The state an action starts from: a delivered packet has left its channel. -/
def before (w : World) : Action → World
  | .deliver source target index _ => w.take source target index
  | _ => w

def step (c : Cluster) (w : World) (a : Action) : World :=
  match w.packetFor a with
  | none => w
  | some (server, clock, packet) =>
      if server ∈ c.servers ∧ server ∉ w.stopped then
        (w.before a).receive c server clock packet
      else w

def run (c : Cluster) (w : World) (actions : List Action) : World := actions.foldl (step c) w

def initial (debugBuild : Bool) (computers : QString → OrderedMap QString Bool) : World where
  daemon := fun s =>
    { fServerName := s, debugBuild := debugBuild, fComputers := computers s, clock := ⟨0, []⟩ }

structure Receives (c : Cluster) (w : World) (a : Action) (server : QString) (clock : Clock)
    (packet : Packet) : Prop where
  packetFor : w.packetFor a = some (server, clock, packet)
  member : server ∈ c.servers
  running : server ∉ w.stopped

def OnReceive (c : Cluster) (w : World) (a : Action) (P : QString → Clock → Packet → Prop) :
    Prop :=
  match w.packetFor a with
  | none => True
  | some (server, clock, packet) => server ∈ c.servers → server ∉ w.stopped →
      P server clock packet

instance (c : Cluster) (w : World) (a : Action) (P : QString → Clock → Packet → Prop)
    [∀ s t p, Decidable (P s t p)] : Decidable (OnReceive c w a P) := by
  unfold OnReceive
  exact match w.packetFor a with
  | none => instDecidableTrue
  | some (server, clock, packet) =>
      inferInstanceAs (Decidable (server ∈ c.servers → server ∉ w.stopped →
        P server clock packet))

variable {a : Action} {packet : Packet} {w : World}

theorem OnReceive.of_receives {c : Cluster} {P : QString → Clock → Packet → Prop}
    (h : OnReceive c w a P) {server : QString}
    {clock : Clock} (hr : Receives c w a server clock packet) :
    P server clock packet := by
  unfold OnReceive at h
  rw [hr.packetFor] at h
  exact h hr.member hr.running

@[simp] theorem before_daemon (w : World) (a : Action) : (w.before a).daemon = w.daemon := by
  cases a <;> rfl

@[simp] theorem before_stopped (w : World) (a : Action) : (w.before a).stopped = w.stopped := by
  cases a <;> rfl

@[simp] theorem before_ledger (w : World) (a : Action) : (w.before a).ledger = w.ledger := by
  cases a <;> rfl

@[simp] theorem before_awake (w : World) (a : Action) (server : QString) (clock : Clock) :
    (w.before a).awake server clock = w.awake server clock := by
  simp [awake]

inductive FromOutside : Command → Prop
  | lock (o : QString) (pid : ℤ) (timeout : Option ℤ) (duration : ℤ) :
      FromOutside (.lock o pid timeout duration)
  | unlock (o : QString) (pid : ℤ) : FromOutside (.unlock o pid)
  | gone (name : QString) : FromOutside (.lockGone name)
  | status (service : QString) : FromOutside (.status service)

theorem Receives.source {c : Cluster} {server : QString} {clock : Clock}
    (h : Receives c w a server clock packet) :
    (∃ source index, a = .deliver source server index clock ∧
      (w.channel source server)[index]? = some packet) ∨
    packet.origin = none ∧ FromOutside packet.message.command ∧ w.before a = w := by
  have hp := h.packetFor
  cases a with
  | lock s t fromServer fromService o pid timeout duration =>
    cases hp
    exact Or.inr ⟨rfl, .lock .., rfl⟩
  | unlock s t o pid =>
    cases hp
    exact Or.inr ⟨rfl, .unlock .., rfl⟩
  | gone s t name =>
    cases hp
    exact Or.inr ⟨rfl, .gone .., rfl⟩
  | status s t service =>
    cases hp
    exact Or.inr ⟨rfl, .status .., rfl⟩
  | deliver source target index t =>
    simp only [World.packetFor, Option.map_eq_some_iff, Prod.mk.injEq] at hp
    obtain ⟨x, hx, rfl, rfl, rfl⟩ := hp
    exact Or.inl ⟨source, index, rfl, hx⟩

theorem mem_before_channel {x y : QString} (h : packet ∈ (w.before a).channel x y) :
    packet ∈ w.channel x y := by
  cases a with
  | deliver source target index t =>
    simp only [before, take] at h
    split_ifs at h
    · exact List.mem_of_mem_eraseIdx h
    · exact h
  | _ => exact h

def received (c : Cluster) (w : World) (a : Action) (server : QString) (clock : Clock)
    (packet : Packet) (d : Daemon) : World where
  daemon := Function.update w.daemon server d
  stopped := w.stopped
  channel := fun x y =>
    if x = server then (w.before a).channel x y ++ outgoing c server packet.origin d.outbox y
    else (w.before a).channel x y
  ledger := w.ledger.record server packet (w.awake server clock) d

theorem received_daemon (c : Cluster) (w : World) (a : Action) (server : QString) (clock : Clock)
    (packet : Packet) (d : Daemon) (s : QString) :
    (w.received c a server clock packet d).daemon s = if s = server then d else w.daemon s := by
  by_cases hs : s = server
  · simp [received, hs]
  · simp [received, hs]

/-- A daemon that processes a packet stops, or says what it did. -/
theorem Receives.step {c : Cluster} {w : World} {a : Action} {server : QString} {clock : Clock}
    {packet : Packet} (h : Receives c w a server clock packet) :
    (∃ e, (w.awake server clock).processMessage packet.message = .error e ∧
        w.step c a = { w.before a with stopped := server :: w.stopped }) ∨
      ∃ d, (w.awake server clock).processMessage packet.message = .ok d ∧
        w.step c a = w.received c a server clock packet d := by
  unfold World.step
  rw [h.packetFor]
  simp only [h.member, h.running, not_false_eq_true, and_self, if_true]
  unfold receive
  rw [before_awake]
  split
  · rename_i e he
    exact Or.inl ⟨e, he, by simp⟩
  · rename_i d hd
    exact Or.inr ⟨d, hd, by simp [received]⟩

/-- An action changes nothing, stops a daemon or lets it process a packet. -/
theorem step_cases (c : Cluster) (w : World) (a : Action) :
    w.step c a = w ∨ ∃ server clock packet, Receives c w a server clock packet ∧
      ((∃ e, (w.awake server clock).processMessage packet.message = .error e ∧
          w.step c a = { w.before a with stopped := server :: w.stopped }) ∨
        ∃ d, (w.awake server clock).processMessage packet.message = .ok d ∧
          w.step c a = w.received c a server clock packet d) := by
  cases hpacket : w.packetFor a with
  | none => exact Or.inl (by simp [World.step, hpacket])
  | some x =>
    obtain ⟨server, clock, packet⟩ := x
    by_cases hruns : server ∈ c.servers ∧ server ∉ w.stopped
    · have hr : Receives c w a server clock packet := ⟨hpacket, hruns.1, hruns.2⟩
      exact Or.inr ⟨server, clock, packet, hr, hr.step⟩
    · exact Or.inl (by simp [World.step, hpacket, hruns])

/-- A property of single daemons that processing a message keeps. -/
theorem daemon_invariant (inv : QString → Daemon → Prop) (c : Cluster) (w : World) (a : Action)
    (hw : ∀ s, inv s (w.daemon s))
    (hstep : ∀ server clock packet d, Receives c w a server clock packet →
      (w.awake server clock).processMessage packet.message = .ok d → inv server d) (s : QString) :
    inv s ((w.step c a).daemon s) := by
  obtain hsame | ⟨server, clock, packet, hreceives, ⟨e, -, hstop⟩ | ⟨d, hd, hrun⟩⟩ :=
    step_cases c w a
  · rw [hsame]
    exact hw s
  · rw [hstop]
    simpa using hw s
  · rw [hrun, received_daemon]
    split_ifs with hs
    · rw [hs]
      exact hstep server clock packet d hreceives hd
    · exact hw s

end World

theorem mem_outgoing {c : Cluster} {server target : QString} {origin : Option TicketRef}
    {sent : List Sent} {packet : Packet} (h : packet ∈ outgoing c server origin sent target) :
    ∃ x ∈ sent, target ∈ addressees c x.message ∧ packet = packetOf server origin x := by
  obtain ⟨x, hx, rfl⟩ := List.mem_map.mp h
  obtain ⟨hmem, htarget⟩ := List.mem_filter.mp hx
  exact ⟨x, hmem, by simpa using htarget, rfl⟩

/-- The oldest packet of a channel is processed at time zero. -/
def deliverFirst (source target : QString) : Action := .deliver source target 0 ⟨0, []⟩

/-- A broadcast reaches its own server and another one, and both answer. -/
def exchange (source target : QString) : List Action :=
  [deliverFirst source source, deliverFirst source target,
    deliverFirst source source, deliverFirst target source]

def askFor (server objectName : QString) (timeout duration : ℤ) : Action :=
  .lock server ⟨0, []⟩ server [99] objectName 1 (some timeout) duration

/-- One server and two servers, with the computers they know. -/
def single : Cluster := ⟨[[97]], by decide, by decide⟩

def pair : Cluster := ⟨[[97], [98]], by decide, by decide⟩

def knownTo (c : Cluster) : QString → OrderedMap QString Bool :=
  fun _ => c.servers.foldl (fun m s => m.insert s true) OrderedMap.empty

end SnapCpp.LockNetwork
