import SnapCpp.LockQuorum

/-!
What DROPTICKET takes away. The message names a ticket, but `drop_ticket()`
also erases the entering record of the ticket's server and pid, and another
request of the same client has the same entering key. So it depends on the
order in which a daemon processes the messages of the two requests. The history
keeps, for each daemon, whose LOCK or LOCKENTERING it processed last for a
client and whose ADDTICKET for a ticket key.
-/
namespace SnapCpp.LockDrop

open QString LockTicket LockDaemon LockNetwork LockNumber LockOrigin LockHeld

/-- The entering key that `drop_ticket()` erases. -/
def droppedKey (key : QString) : QString :=
  match splitSlash key with
  | [_, serverName, pid] => joinSlash serverName pid
  | _ => key

/-- The entering key whose record `add_ticket()` files as a ticket. -/
def addedKey (key : QString) : QString :=
  match splitSlash key with
  | _ :: serverName :: pid :: _ => joinSlash serverName pid
  | _ => key

/-- A world, and by server, object name and key the request whose message was
processed last there: LOCK or LOCKENTERING by entering key, ADDTICKET by ticket
key. -/
structure History where
  world : World
  entering : QString → QString → QString → ℕ := fun _ _ _ => 0
  ticket : QString → QString → QString → ℕ := fun _ _ _ => 0

def noted (f : QString → QString → QString → ℕ) (server o key : QString) (request : ℕ) :
    QString → QString → QString → ℕ :=
  fun s o' key' => if s = server ∧ o' = o ∧ key' = key then request else f s o' key'

namespace History

def initial (debugBuild : Bool) (computers : QString → OrderedMap QString Bool) : History where
  world := World.initial debugBuild computers

def request (h : History) (packet : Packet) : ℕ := h.world.ledger.newOwner packet.origin

def processed (h : History) (server : QString) (packet : Packet) (w' : World) : History :=
  match packet.message.command with
  | .lock o pid _ _ =>
      if w'.ledger.requests = h.world.ledger.requests then { h with world := w' }
      else { h with
        world := w'
        entering := noted h.entering server o ((h.world.daemon server).clientKey pid)
          (h.request packet) }
  | .lockEntering o key _ _ _ =>
      { h with world := w', entering := noted h.entering server o key (h.request packet) }
  | .addTicket o key _ =>
      { h with world := w', ticket := noted h.ticket server o key (h.request packet) }
  | _ => { h with world := w' }

def step (c : Cluster) (h : History) (a : Action) : History :=
  match h.world.packetFor a with
  | none => h
  | some (server, _, packet) =>
      if server ∈ c.servers ∧ server ∉ h.world.stopped then
        h.processed server packet (h.world.step c a)
      else h

/-- The order of the messages on a daemon. Where a LOCKENTERING, an ADDTICKET or
a DROPTICKET meets an entering record, the last LOCK or LOCKENTERING of that
client was one of the same request; where a DROPTICKET meets a ticket, so was the
last ADDTICKET. And the ticket that becomes the first one has not timed out. -/
def Orderly (h : History) (server : QString) (clock : Clock) (packet : Packet) : Prop :=
  let d := h.world.daemon server
  match packet.message.command with
  | .lockEntering o key _ _ _ =>
      (d.fEnteringTickets.group o).Has key → h.entering server o key = h.request packet
  | .addTicket o key _ => (d.fEnteringTickets.group o).Has (addedKey key) →
      h.entering server o (addedKey key) = h.request packet
  | .dropTicket o key =>
      ((d.fEnteringTickets.group o).Has (droppedKey key) →
        h.entering server o (droppedKey key) = h.request packet) ∧
      ((d.fTickets.group o).Has key → h.ticket server o key = h.request packet) ∧
      ∀ e ∈ ((d.fTickets.group o).erase key).entries.head?,
        (d.heap e.2).timedOut clock.now = false
  | _ => True

instance (h : History) (server : QString) (clock : Clock) (packet : Packet) :
    Decidable (h.Orderly server clock packet) := by
  unfold Orderly
  split <;> infer_instance

def OrderlyStep (c : Cluster) (h : History) (a : Action) (h' : History) : Prop :=
  h.world.OnReceive c a h.Orderly ∧ h' = h.step c a

theorem step_receives {c : Cluster} {h : History} {a : Action} {server : QString} {clock : Clock}
    {packet : Packet} (hr : h.world.Receives c a server clock packet) :
    h.step c a = h.processed server packet (h.world.step c a) := by
  rw [step, hr.packetFor]
  exact if_pos ⟨hr.member, hr.running⟩

theorem processed_world (h : History) (server : QString) (packet : Packet) (w' : World) :
    (h.processed server packet w').world = w' := by
  unfold processed
  split
  · split_ifs <;> rfl
  all_goals rfl

/-- An action changes nothing or lets a daemon process a packet. -/
theorem step_cases (c : Cluster) (h : History) (a : Action) :
    h.step c a = h ∧ h.world.step c a = h.world ∨
      ∃ server clock packet, h.world.Receives c a server clock packet := by
  cases hp : h.world.packetFor a with
  | none => exact Or.inl ⟨by simp [step, hp], by simp [World.step, hp]⟩
  | some x =>
    obtain ⟨server, clock, packet⟩ := x
    by_cases hruns : server ∈ c.servers ∧ server ∉ h.world.stopped
    · exact Or.inr ⟨server, clock, packet, hp, hruns.1, hruns.2⟩
    · exact Or.inl ⟨by simp [step, hp, hruns], by simp [World.step, hp, hruns]⟩

theorem step_world (c : Cluster) (h : History) (a : Action) :
    (h.step c a).world = h.world.step c a := by
  rcases step_cases c h a with ⟨hsame, hworld⟩ | ⟨server, clock, packet, hr⟩
  · rw [hsame, hworld]
  · rw [step_receives hr, processed_world]

end History

structure OwnedBy (own : Ptr → ℕ) (entering ticket : QString → QString → ℕ) (d : Daemon) :
    Prop where
  entering : ∀ o k p, (d.fEnteringTickets.group o).find? k = some p → own p = entering o k
  ticket : ∀ o key p, (d.fTickets.group o).find? key = some p → own p = ticket o key

section Local

variable {own : Ptr → ℕ} {entering ticket entering' ticket' : QString → QString → ℕ}
  {server : QString}
  {d d' : Daemon} {m : Message} {readings : List ℤ} {o key source : QString} {pid duration : ℤ}
  {timeout : Option ℤ}

theorem OwnedBy.shrink (h : OwnedBy own entering ticket d) (hmaps : Shrunk d d') :
    OwnedBy own entering ticket d' where
  entering := fun o k p hp => h.entering o k p (hmaps.entering o k p hp)
  ticket := fun o key p hp => h.ticket o key p (hmaps.tickets o key p hp)

def Files : Command → Prop
  | .lock .. | .lockEntering .. | .addTicket .. => True
  | _ => False

/-- No other message makes a new entry. -/
theorem processMessage_shrunk (h : d.processMessage m = .ok d') (hm : ¬ Files m.command) :
    Shrunk d d' := by
  refine (processMessage_effects h).invariant (Shrunk d) (.refl d) ?_
  intro a b ha hab
  refine ha.trans ?_
  cases hab with
  | sweep _ hsweep => exact hsweep.shrunk
  | eraseTicket o key hcommand => exact eraseTicket_shrunk a o key
  | eraseEntering o key => exact eraseEntering_shrunk a o key
  | request o pid timeout duration deadline t hcommand ht =>
    rw [hcommand] at hm
    exact absurd trivial hm
  | copy o key timeout duration source deadline srv service hcommand hnew hdeadline =>
    rw [hcommand] at hm
    exact absurd trivial hm
  | putTicket o key number serverName pidText rest p timeout hcommand hsplit hfind =>
    rw [hcommand] at hm
    exact absurd trivial hm
  | _ => exact ⟨fun _ _ _ h => h, fun _ _ _ h => h⟩

/-- A new entering record belongs to the request it is made for. -/
theorem OwnedBy.create (h : OwnedBy own entering ticket d) (t : Ticket)
    (hsame : ∀ o' k, ¬ (o' = o ∧ k = key) → entering' o' k = entering o' k)
    (hnew : own d.next = entering' o key) :
    OwnedBy own entering' ticket ((d.allocate t).putEntering o key d.next) where
  entering := by
    intro o' k p hp
    rw [Daemon.putEntering, GroupedMap.group_assign] at hp
    by_cases hk : o' = o ∧ k = key
    · obtain ⟨rfl, rfl⟩ := hk
      rw [if_pos rfl, OrderedMap.find?_insert, if_pos rfl] at hp
      cases hp
      exact hnew
    · rw [hsame o' k hk]
      refine h.entering o' k p ?_
      split_ifs at hp with ho
      · rwa [OrderedMap.find?_insert, if_neg (fun hkey => hk ⟨ho, hkey⟩), ← ho] at hp
      · exact hp
  ticket := h.ticket

theorem lock_ownedBy (h : d.lock m o pid timeout duration = .ok d')
    (hold : OwnedBy own entering ticket d) (hnone : d'.next = d.next → entering' = entering)
    (hsame : ∀ o' k, ¬ (o' = o ∧ k = d.clientKey pid) → entering' o' k = entering o' k)
    (hnew : d.next < d'.next → own d.next = entering' o (d.clientKey pid)) :
    OwnedBy own entering' ticket d' := by
  obtain ⟨-, c, -, rfl | ⟨deadline, t, -, -, rfl⟩⟩ := lock_cases h
  · rw [hnone rfl]
    exact hold.shrink ⟨fun _ _ _ h => h, fun _ _ _ h => h⟩
  · have hclock : OwnedBy own entering ticket (d.withClock c) :=
      hold.shrink ⟨fun _ _ _ h => h, fun _ _ _ h => h⟩
    exact (hclock.create t hsame (hnew (Nat.lt_succ_self d.next))).shrink
      ⟨fun _ _ _ h => h, fun _ _ _ h => h⟩

theorem sweeps_next_le (h : Sweeps readings d d') : d.next ≤ d'.next :=
  h.invariant (fun x => d.next ≤ x.next) le_rfl (fun _ _ ha hab => ha.trans hab.stable.next_le)

theorem lockEntering_ownedBy (h : d.lockEntering m o key timeout duration source = .ok d')
    (hold : OwnedBy own entering ticket d)
    (hsame : ∀ o' k p, (d.fEnteringTickets.group o').find? k = some p →
      entering' o' k = entering o' k)
    (hnew : d.next < d'.next → own d.next = entering' o key) :
    OwnedBy own entering' ticket d' := by
  obtain ⟨-, c, d₁, -, hclean, hcases⟩ := lockEntering_cases h
  have hsweeps := cleanup_sweeps hclean (within_self d₁)
  have hclock : OwnedBy own entering' ticket (d.withClock c) :=
    ⟨fun o' k p hp => (hold.entering o' k p hp).trans (hsame o' k p hp).symm, hold.ticket⟩
  refine OwnedBy.shrink ?_ hsweeps.shrunk
  rcases hcases with ⟨-, rfl⟩ | ⟨-, rfl⟩ | ⟨-, deadline, serverName, serviceName, -, -, rfl⟩
  · exact hclock
  · exact hclock.shrink ⟨fun _ _ _ h => h, fun _ _ _ h => h⟩
  · have hnext : d.next < d'.next := Nat.lt_of_succ_le (sweeps_next_le hsweeps)
    exact (hclock.create _ (fun _ _ _ => rfl) (hnew hnext)).shrink
      ⟨fun _ _ _ h => h, fun _ _ _ h => h⟩

theorem addTicket_ownedBy (h : d.addTicket m o key timeout = .ok d')
    (hold : OwnedBy own entering ticket d)
    (hsame : ∀ o' k, ¬ (o' = o ∧ k = key) → ticket' o' k = ticket o' k)
    (hnew : ∀ p, (d.fEnteringTickets.group o).find? (addedKey key) = some p →
      own p = ticket' o key) : OwnedBy own entering ticket' d' := by
  obtain ⟨c, number, serverName, pidText, rest, p, -, hsplit, hfind, rfl⟩ := addTicket_cases h
  have hadded : addedKey key = joinSlash serverName pidText := by
    rw [addedKey, hsplit]
  have hput : OwnedBy own entering ticket' ((d.withClock c).putTicket o key p) := by
    refine ⟨hold.entering, fun o' k q hq => ?_⟩
    by_cases hk : o' = o ∧ k = key
    · obtain ⟨rfl, rfl⟩ := hk
      rw [Daemon.putTicket, GroupedMap.group_assign, if_pos rfl, OrderedMap.find?_insert,
        if_pos rfl] at hq
      cases hq
      exact hnew p (hadded ▸ hfind)
    · rw [hsame o' k hk]
      rcases putTicket_find hq with ⟨rfl, rfl, -⟩ | hq
      · exact absurd ⟨rfl, rfl⟩ hk
      · exact hold.ticket o' k q hq
  exact hput.shrink ⟨fun _ _ _ h => h, fun _ _ _ h => h⟩

end Local

structure Owned (h : History) : Prop where
  sound : Sound h.world
  records : ∀ s, s ∉ h.world.stopped → OwnedBy (fun p => h.world.ledger.owner ⟨s, p⟩)
    (h.entering s) (h.ticket s) (h.world.daemon s)

section World

variable {c : Cluster} {h h' : History} {a : Action} {server : QString} {clock : Clock}
  {packet : Packet} {d : Daemon} {o key : QString}

/-- A new ticket object changes the owner of no other one. -/
theorem owner_record (l : Ledger) (packet : Packet) (d d' : Daemon) (r : TicketRef)
    (hr : r.server = server → r.ptr < d.next) :
    (l.record server packet d d').owner r = l.owner r := by
  simp only [Ledger.record]
  split_ifs
  · refine Function.update_of_ne ?_ _ _
    rintro rfl
    exact lt_irrefl _ (hr rfl)
  · rfl

theorem owner_record_new (l : Ledger) (packet : Packet) {d d' : Daemon}
    (h : d.next < d'.next) :
    (l.record server packet d d').owner ⟨server, d.next⟩ = l.newOwner packet.origin := by
  simp [Ledger.record, h]

theorem noted_self (f : QString → QString → QString → ℕ) (request : ℕ) :
    noted f server o key request server o key = request := if_pos ⟨rfl, rfl, rfl⟩

theorem noted_of_ne (f : QString → QString → QString → ℕ) (request : ℕ) {o' key' : QString}
    (hne : ¬ (o' = o ∧ key' = key)) :
    noted f server o key request server o' key' = f server o' key' :=
  if_neg (fun hsame => hne hsame.2)

/-- A message leaves the notes about other daemons alone. -/
theorem processed_other {s : QString} (h : History) (packet : Packet) (w' : World)
    (hs : s ≠ server) :
    (h.processed server packet w').entering s = h.entering s ∧
      (h.processed server packet w').ticket s = h.ticket s := by
  have hnoted : ∀ f o key request, noted f server o key request s = f s := fun f o key request =>
    funext fun _ => funext fun _ => if_neg (fun hsame => hs hsame.1)
  unfold History.processed
  split
  · split_ifs
    · exact ⟨rfl, rfl⟩
    · exact ⟨hnoted .., rfl⟩
  · exact ⟨hnoted .., rfl⟩
  · exact ⟨rfl, hnoted ..⟩
  · exact ⟨rfl, rfl⟩

/-- DROPTICKET is what a ticket says. -/
theorem origin_dropTicket (hw : Sound h.world) (hr : h.world.Receives c a server clock packet)
    (hcommand : packet.message.command = .dropTicket o key) : ∃ r, packet.origin = some r := by
  rcases hr.source with ⟨source, index, -, hpacket⟩ | ⟨-, houtside, -⟩
  · have hcontent := (hw.packets source server packet (List.mem_of_getElem? hpacket)).content
    rw [hcommand] at hcontent
    generalize packet.origin = origin at hcontent ⊢
    cases hcontent with
    | said p _ hp hown hc => exact ⟨_, rfl⟩
    | heard p _ hp hown hc => cases hc
    | notice _ _ hc => cases hc
  · rw [hcommand] at houtside
    cases houtside

/-- LOCK comes from a client alone. -/
theorem origin_lock (hw : Sound h.world) (hr : h.world.Receives c a server clock packet)
    {pid duration : ℤ} {timeout : Option ℤ}
    (hcommand : packet.message.command = .lock o pid timeout duration) : packet.origin = none := by
  rcases hr.source with ⟨source, index, -, hpacket⟩ | ⟨horigin, -, -⟩
  · have hcontent := (hw.packets source server packet (List.mem_of_getElem? hpacket)).content
    rw [hcommand] at hcontent
    generalize packet.origin = origin at hcontent
    cases hcontent with
    | said p _ hp hown hc => cases hc
    | heard p _ hp hown hc => cases hc
    | notice _ _ hc => cases hc
  · exact horigin

/-- The daemon that processes a message in order keeps its records to the
requests of the history. -/
theorem processed_ownedBy (hw : Owned h) (hr : h.world.Receives c a server clock packet)
    (hd : (h.world.awake server clock).processMessage packet.message = .ok d)
    (horderly : h.Orderly server clock packet) {w' : World}
    (hw' : w' = h.world.received c a server clock packet d) :
    OwnedBy (fun p => w'.ledger.owner ⟨server, p⟩)
      ((h.processed server packet w').entering server)
      ((h.processed server packet w').ticket server) d := by
  have hf := (hw.sound.filed server).awake clock
  have hrecords := hw.records server hr.running
  have hledger : w'.ledger =
      h.world.ledger.record server packet (h.world.awake server clock) d := by
    rw [hw']
    rfl
  have hold : OwnedBy (fun p => w'.ledger.owner ⟨server, p⟩) (h.entering server) (h.ticket server)
      (h.world.awake server clock) := by
    rw [hledger]
    refine ⟨fun o k p hp => ?_, fun o key p hp => ?_⟩
    · exact (owner_record _ _ _ _ _ (fun _ => hf.entering_lt o k p hp)).trans
        (hrecords.entering o k p hp)
    · exact (owner_record _ _ _ _ _ (fun _ => hf.ticket_lt o key p hp)).trans
        (hrecords.ticket o key p hp)
  have hnew : (h.world.awake server clock).next < d.next →
      w'.ledger.owner ⟨server, (h.world.awake server clock).next⟩ = h.request packet := by
    intro hnext
    rw [hledger]
    exact owner_record_new _ _ hnext
  have hhas : ∀ {o k : QString} {p : Ptr},
      ((h.world.awake server clock).fEnteringTickets.group o).find? k = some p →
        ((h.world.daemon server).fEnteringTickets.group o).Has k := by
    intro o k p hp
    replace hp : ((h.world.daemon server).fEnteringTickets.group o).find? k = some p := hp
    simp [OrderedMap.Has, hp]
  cases hcommand : packet.message.command with
  | lock o pid timeout duration =>
    simp only [Daemon.processMessage, hcommand] at hd
    simp only [History.processed, hcommand]
    split_ifs with hrequests
    · refine lock_ownedBy hd hold (fun _ => rfl) (fun _ _ _ => rfl) (fun hnext => ?_)
      rw [hledger] at hrequests
      simp [Ledger.record, hnext, origin_lock hw.sound hr hcommand] at hrequests
    · refine lock_ownedBy hd hold (fun hnext => absurd ?_ hrequests)
        (fun _ _ hne => noted_of_ne _ _ hne) (fun hnext => ?_)
      · rw [hledger]
        simp [Ledger.record, hnext]
      · rw [hnew hnext]
        exact (noted_self _ _).symm
  | lockEntering o key timeout duration source =>
    simp only [Daemon.processMessage, hcommand] at hd
    simp only [History.Orderly, hcommand] at horderly
    simp only [History.processed, hcommand]
    refine lockEntering_ownedBy hd hold (fun o' k p hp => ?_) (fun hnext => ?_)
    · by_cases hk : o' = o ∧ k = key
      · obtain ⟨rfl, rfl⟩ := hk
        rw [noted_self, horderly (hhas hp)]
      · exact noted_of_ne _ _ hk
    · rw [hnew hnext, noted_self]
  | addTicket o key timeout =>
    simp only [Daemon.processMessage, hcommand] at hd
    simp only [History.Orderly, hcommand] at horderly
    simp only [History.processed, hcommand]
    refine addTicket_ownedBy hd hold (fun _ _ hne => noted_of_ne _ _ hne) (fun p hp => ?_)
    rw [noted_self, ← horderly (hhas hp)]
    exact hold.entering o _ p hp
  | _ =>
    simp only [History.processed, hcommand]
    exact hold.shrink (processMessage_shrunk hd (by rw [hcommand]; exact id))

theorem orderlyStep_owned (hstep : History.OrderlyStep c h a h') (hw : Owned h) : Owned h' := by
  obtain ⟨horderly, rfl⟩ := hstep
  have hsound := (step_sound hw.sound c a).1
  refine ⟨by rwa [History.step_world], ?_⟩
  rcases History.step_cases c h a with ⟨hsame, -⟩ | ⟨server, clock, packet, hr⟩
  · rw [hsame]
    exact hw.records
  · rw [History.step_receives hr]
    simp only [History.processed_world]
    obtain ⟨e, -, hstop⟩ | ⟨d, hd, hrun⟩ := hr.step
    · rw [hstop]
      intro s hs
      obtain ⟨hne, hrunning⟩ := not_or.mp (fun hmem => hs (List.mem_cons.mpr hmem))
      obtain ⟨hentering, hticket⟩ := processed_other h packet _ hne
      rw [hentering, hticket]
      simp only [World.before_daemon, World.before_ledger]
      exact hw.records s hrunning
    · intro s hs
      by_cases hserver : s = server
      · subst hserver
        rw [hrun, World.received_daemon, if_pos rfl]
        exact processed_ownedBy hw hr hd (horderly.of_receives hr) rfl
      · obtain ⟨hentering, hticket⟩ := processed_other h packet (h.world.step c a) hserver
        have howner : ∀ p, (h.world.step c a).ledger.owner ⟨s, p⟩ =
            h.world.ledger.owner ⟨s, p⟩ := by
          intro p
          rw [hrun]
          exact owner_record _ _ _ _ _ (fun hsame => absurd hsame hserver)
        rw [hentering, hticket, hrun, World.received_daemon, if_neg hserver, ← hrun]
        simp only [howner]
        exact hw.records s (by rwa [hrun] at hs)

theorem owned_initial (debugBuild : Bool) (computers : QString → OrderedMap QString Bool) :
    Owned (History.initial debugBuild computers) where
  sound := sound_initial debugBuild computers
  records := fun s _ => ⟨fun o k p hp => by simp [History.initial, World.initial] at hp,
    fun o key p hp => by simp [History.initial, World.initial] at hp⟩

end World

section Removal

variable {d d' : Daemon} {o key : QString}

theorem activateFirstLock_fTickets (h : ∀ e ∈ (d.fTickets.group o).entries.head?,
    (d.heap e.2).timedOut d.clock.now = false) : (d.activateFirstLock o).fTickets = d.fTickets := by
  unfold Daemon.activateFirstLock
  cases hentries : (d.fTickets.group o).entries with
  | nil => rfl
  | cons e rest =>
    rw [hentries] at h
    have hout := h e rfl
    rw [Daemon.activateFirst, if_neg (by simp [hout])]
    rfl

/-- `drop_ticket()` removes no more than the ticket and the entering record of its
client. -/
theorem dropTicket_removes (h : d.dropTicket o key = .ok d')
    (hfirst : ∀ e ∈ ((d.fTickets.group o).erase key).entries.head?,
      (d.heap e.2).timedOut d.clock.now = false) :
    (∀ o' key' p, (d.fTickets.group o').find? key' = some p →
      (d'.fTickets.group o').find? key' ≠ some p →
        o' = o ∧ key' = key) ∧
    ∀ o' key' p, (d.fEnteringTickets.group o').find? key' = some p →
      (d'.fEnteringTickets.group o').find? key' ≠ some p → o' = o ∧ key' = droppedKey key := by
  have herase : ∀ (m : OrderedMap QString Ptr) (k k' : QString) (p : Ptr), m.find? k' = some p →
      (m.erase k).find? k' ≠ some p → k' = k := by
    intro m k k' p hp hgone
    rw [OrderedMap.find?_erase] at hgone
    by_contra hne
    exact hgone (by rw [if_neg hne, hp])
  rcases dropTicket_cases h with ⟨number, serverName, pidText, hsplit, rfl⟩ | ⟨rfl, hlength⟩
  · have hdropped : droppedKey key = joinSlash serverName pidText := by
      rw [droppedKey, hsplit]
    have hgroup : ((d.eraseTicket o key).fTickets.group o) = (d.fTickets.group o).erase key := by
      rw [eraseTicket_group, if_pos rfl]
    have htickets : ((d.eraseTicket o key).activateFirstLock o).fTickets =
        (d.eraseTicket o key).fTickets := activateFirstLock_fTickets (by
      rw [hgroup]
      exact hfirst)
    refine ⟨fun o' key' p hp hgone => ?_, fun o' key' p hp hgone => ?_⟩
    · rw [eraseEntering_fTickets, htickets, eraseTicket_group] at hgone
      split_ifs at hgone with ho
      · subst ho
        exact ⟨rfl, herase _ key key' p hp hgone⟩
      · exact absurd hp hgone
    · rw [eraseEntering_group, activateFirstLock_fEnteringTickets] at hgone
      split_ifs at hgone with ho
      · subst ho
        exact ⟨rfl, (herase _ _ key' p hp hgone).trans hdropped.symm⟩
      · exact absurd hp hgone
  · have hdropped : droppedKey key = key := by
      unfold droppedKey
      split
      · rename_i hsplit
        simp [hsplit] at hlength
      · rfl
    refine ⟨fun o' key' p hp hgone => absurd hp hgone, fun o' key' p hp hgone => ?_⟩
    rw [eraseEntering_group] at hgone
    split_ifs at hgone with ho
    · subst ho
      exact ⟨rfl, (herase _ _ key' p hp hgone).trans hdropped.symm⟩
    · exact absurd hp hgone

end Removal

/-- In every run in which the messages of one client's requests for an object come
in order on each daemon, a DROPTICKET removes only ticket objects that belong to
the request of the ticket that sent it. -/
theorem drop_removes_own_request (debugBuild : Bool)
    (computers : QString → OrderedMap QString Bool) (c : Cluster) (actions : List Action)
    (h h' : History) (a : Action)
    (hrun : Runs (History.OrderlyStep c) (History.initial debugBuild computers) actions h)
    (hlast : History.OrderlyStep c h a h') (s o key : QString) (clock : Clock) (packet : Packet)
    (hr : h.world.Receives c a s clock packet)
    (hcommand : packet.message.command = .dropTicket o key) :
    ∃ r, packet.origin = some r ∧
      (∀ o' key' p, ((h.world.daemon s).fTickets.group o').find? key' = some p →
        ((h'.world.daemon s).fTickets.group o').find? key' ≠ some p →
        h.world.ledger.owner ⟨s, p⟩ = h.world.ledger.owner r) ∧
      ∀ o' key' p, ((h.world.daemon s).fEnteringTickets.group o').find? key' = some p →
        ((h'.world.daemon s).fEnteringTickets.group o').find? key' ≠ some p →
        h.world.ledger.owner ⟨s, p⟩ = h.world.ledger.owner r := by
  have hw := hrun.invariant Owned (owned_initial debugBuild computers)
    (fun _ _ _ hx hstep => orderlyStep_owned hstep hx)
  obtain ⟨horderly, rfl⟩ := hlast
  have hrecords := hw.records s hr.running
  have hin := horderly.of_receives hr
  simp only [History.Orderly, hcommand] at hin
  obtain ⟨hentering, hticket, hfirst⟩ := hin
  obtain ⟨r, horigin⟩ := origin_dropTicket hw.sound hr hcommand
  have hrequest : h.request packet = h.world.ledger.owner r := by
    rw [History.request, horigin]
    rfl
  rw [hrequest] at hentering hticket
  refine ⟨r, horigin, ?_⟩
  rw [History.step_world]
  obtain ⟨e, -, hstop⟩ | ⟨d, hd, hrun'⟩ := hr.step
  · rw [hstop]
    simp only [World.before_daemon]
    exact ⟨fun o' key' p hp hgone => absurd hp hgone, fun o' key' p hp hgone => absurd hp hgone⟩
  · rw [hrun', World.received_daemon, if_pos rfl]
    simp only [Daemon.processMessage, hcommand] at hd
    obtain ⟨htickets, hrecord⟩ := dropTicket_removes hd hfirst
    refine ⟨fun o' key' p hp hgone => ?_, fun o' key' p hp hgone => ?_⟩
    · obtain ⟨rfl, rfl⟩ := htickets o' key' p hp hgone
      rw [← hticket (by simp [OrderedMap.Has, hp])]
      exact hrecords.ticket o' key' p hp
    · obtain ⟨rfl, rfl⟩ := hrecord o' key' p hp hgone
      rw [← hentering (by simp [OrderedMap.Has, hp])]
      exact hrecords.entering o' _ p hp

/-- On two servers, a client drops its ticket and asks again; the LOCKENTERING of
its second request was processed on the first server when the DROPTICKET of the
first request reaches the second one. -/
def againLaterActions : List Action :=
  askFor [97] [111] 100 10 :: exchange [97] [98] ++ exchange [97] [98] ++
    [deliverFirst [97] [97], deliverFirst [97] [98], .unlock [97] ⟨0, []⟩ [111] 1,
      deliverFirst [97] [97], deliverFirst [97] [97], askFor [97] [111] 100 10,
      deliverFirst [97] [97]]

theorem drop_removes_own_request_pair :
    let h := againLaterActions.foldl (History.step pair) (History.initial false (knownTo pair))
    ∃ packet r, packet.origin = some r ∧ r = ⟨[97], 0⟩ ∧
      h.world.Receives pair (deliverFirst [97] [98]) [98] ⟨0, []⟩ packet ∧
      ∀ o' key' p, ((h.world.daemon [98]).fEnteringTickets.group o').find? key' = some p →
        (((h.step pair (deliverFirst [97] [98])).world.daemon [98]).fEnteringTickets.group
          o').find? key' ≠ some p → h.world.ledger.owner ⟨[98], p⟩ = h.world.ledger.owner r := by
  intro h
  have hrun := Runs.of_checked (History.step pair) (fun h a => h.world.OnReceive pair a h.Orderly)
    (History.initial false (knownTo pair)) againLaterActions (by decide)
  obtain ⟨packet, hpacket, hcommand, horigin⟩ : ∃ packet,
      h.world.packetFor (deliverFirst [97] [98]) = some ([98], ⟨0, []⟩, packet) ∧
      packet.message.command = .dropTicket [111] (Ticket.ticketKeyOf 1 [97, 47, 49]) ∧
      packet.origin = some ⟨[97], 0⟩ := by
    have hhead : (h.world.channel [97] [98]).head?.any (fun packet => packet.message.command =
        .dropTicket [111] (Ticket.ticketKeyOf 1 [97, 47, 49]) ∧
        packet.origin = some ⟨[97], 0⟩) = true := by decide
    rw [Option.any_eq_true] at hhead
    obtain ⟨packet, hmem, hp⟩ := hhead
    obtain ⟨hcommand, horigin⟩ := of_decide_eq_true hp
    refine ⟨packet, ?_, hcommand, horigin⟩
    simp [deliverFirst, World.packetFor, ← List.head?_eq_getElem?, hmem]
  have hr : h.world.Receives pair (deliverFirst [97] [98]) [98] ⟨0, []⟩ packet :=
    ⟨hpacket, by decide, by decide⟩
  obtain ⟨r, hr', -, hentering⟩ := drop_removes_own_request false (knownTo pair) pair
    againLaterActions h (h.step pair (deliverFirst [97] [98])) (deliverFirst [97] [98]) hrun
    ⟨by decide, rfl⟩ [98] [111] _ ⟨0, []⟩ packet hr hcommand
  rw [horigin] at hr'
  cases hr'
  exact ⟨packet, _, horigin, rfl, hr, hentering⟩

def againActions : List Action :=
  askFor [97] [111] 100 10 :: List.replicate 7 (deliverFirst [97] [97]) ++
    [askFor [97] [111] 100 10, deliverFirst [97] [97], .unlock [97] ⟨0, []⟩ [111] 1,
      deliverFirst [97] [97]]

/-- The DROPTICKET of the first request erases the entering record of the second
one, whose LOCKENTERING was processed. -/
theorem drop_removes_newer_record :
    ¬ ∀ (debugBuild : Bool) (computers : QString → OrderedMap QString Bool) (c : Cluster)
      (actions : List Action) (a : Action) (s o key : QString) (clock : Clock)
      (message : Message) (r : TicketRef) (p : Ptr),
      let w := (World.initial debugBuild computers).run c actions
      let w' := w.step c a
      w.packetFor a = some (s, clock, ⟨message, some r⟩) →
      message.command = .dropTicket o key →
      (Stage.entering, ⟨s, p⟩, s) ∈ w.ledger.processed →
      ((w.daemon s).fEnteringTickets.group o).find? (droppedKey key) = some p →
      ((w'.daemon s).fEnteringTickets.group o).find? (droppedKey key) ≠ some p →
      w.ledger.owner ⟨s, p⟩ = w.ledger.owner r := by
  intro hall
  have howner := hall false (knownTo single) single againActions (deliverFirst [97] [97]) [97]
    [111] (Ticket.ticketKeyOf 1 [97, 47, 49]) ⟨0, []⟩
    (stamp [97] (broadcast (.dropTicket [111] (Ticket.ticketKeyOf 1 [97, 47, 49])))) ⟨[97], 0⟩ 1
    (by decide) (by decide) (by decide) (by decide)
    (by decide)
  revert howner
  decide

end SnapCpp.LockDrop
