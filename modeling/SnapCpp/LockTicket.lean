import SnapCpp.OrderedMap
import SnapCpp.QString

/-!
The ticket objects of the snaplock daemon and the messages they send. A
ticket goes through the stages of the bakery algorithm: it is entering, gets
the largest ticket number, adds itself under that number plus one, waits for
the tickets still entering and is then ready to be activated. Every method is
a function of the ticket, of what it asks its daemon (server name and quorum)
and of the clock readings it takes; it returns the ticket it leaves behind and
the messages it sent.
-/
namespace SnapCpp.LockTicket

open QString

/-- The parameters of the messages a snaplock daemon receives or sends. -/
inductive Command
  | lock (objectName : QString) (pid : ℤ) (timeout : Option ℤ) (duration : ℤ)
  | unlock (objectName : QString) (pid : ℤ)
  | lockEntering (objectName key : QString) (timeout : Option ℤ) (duration : ℤ)
      (source : QString)
  | lockEntered (objectName key : QString)
  | getMaxTicket (objectName key : QString)
  | maxTicket (objectName key : QString) (ticketId : ℤ)
  | addTicket (objectName key : QString) (timeout : Option ℤ)
  | ticketAdded (objectName key : QString)
  | lockExiting (objectName key : QString)
  | dropTicket (objectName key : QString)
  | lockReady (serverName : QString)
  | lockGone (serverName : QString)
  | status (service : QString)
  | locked (objectName : QString) (timeoutDate : ℤ) (quorum : ℕ)
  | lockFailed (objectName : QString) (error : QString)
  | unlocked (objectName : QString) (error : Option QString)
  deriving DecidableEq

/-- A command with its destination and with the sender snapcommunicator
recorded, both as server and service names. -/
structure Message where
  sentFromServer : QString := []
  sentFromService : QString := []
  server : QString := []
  service : QString := []
  command : Command
  deriving DecidableEq

def broadcast (c : Command) : Message := { service := ascii "*", command := c }

/-- An exception that ends the daemon, or a step C++ leaves undefined. -/
inductive Failure
  | invalidMessage (what : String)
  | logicError (what : String)
  | invalidIterator
  deriving DecidableEq

/-- The successive readings of `time(nullptr)` while one message is
processed. The last one repeats. -/
structure Clock where
  now : ℤ
  later : List ℤ
  deriving DecidableEq

namespace Clock

def next (c : Clock) : Clock :=
  match c.later with
  | [] => c
  | t :: rest => ⟨t, rest⟩

def readings (c : Clock) : List ℤ := c.now :: c.later

theorem now_mem_readings (c : Clock) : c.now ∈ c.readings := List.mem_cons_self ..

theorem readings_next (c : Clock) (t : ℤ) (h : t ∈ c.next.readings) : t ∈ c.readings := by
  obtain ⟨now, later⟩ := c
  cases later with
  | nil => exact h
  | cons a rest => exact List.mem_cons_of_mem _ h

end Clock

abbrev Ptr := ℕ

/-- The data members of `snaplock_ticket`. -/
structure Ticket where
  fObjectName : QString
  fObtentionTimeout : ℤ
  fLockDuration : ℤ
  fServerName : QString
  fServiceName : QString
  fEnteringKey : QString
  fEnteredCount : ℕ := 0
  fGetMaxTicket : Bool := false
  fMaxTicketCount : ℕ := 0
  fOurTicket : UInt32 := 0
  fAddedTicket : Bool := false
  fTicketKey : QString := []
  fTicketAddedCount : ℕ := 0
  fAddedTicketQuorum : Bool := false
  fStillEntering : OrderedMap QString Ptr := OrderedMap.empty
  fTicketReady : Bool := false
  fLocked : Bool := false
  fLockTimeout : ℤ := 0
  fLockFailed : Bool := false

instance : Inhabited Ticket := ⟨{
  fObjectName := []
  fObtentionTimeout := 0
  fLockDuration := 0
  fServerName := []
  fServiceName := []
  fEnteringKey := [] }⟩

/-- What a ticket asks the daemon it lives in. -/
structure Host where
  serverName : QString
  quorum : ℕ

namespace Ticket

/-- The constructor of `snaplock_ticket`. -/
def create (objectName enteringKey : QString) (obtentionTimeout lockDuration : ℤ)
    (serverName serviceName : QString) : Ticket where
  fObjectName := objectName
  fObtentionTimeout := obtentionTimeout
  fLockDuration := lockDuration
  fServerName := serverName
  fServiceName := serviceName
  fEnteringKey := enteringKey

def entering (t : Ticket) : List Message :=
  [broadcast (.lockEntering t.fObjectName t.fEnteringKey (some t.fObtentionTimeout)
    t.fLockDuration (joinSlash t.fServerName t.fServiceName))]

def entered (h : Host) (t : Ticket) : Ticket × List Message :=
  if t.fGetMaxTicket then (t, [])
  else
    let t₁ := { t with fEnteredCount := t.fEnteredCount + 1 }
    if h.quorum ≤ t₁.fEnteredCount then
      ({ t₁ with fGetMaxTicket := true },
        [broadcast (.getMaxTicket t₁.fObjectName t₁.fEnteringKey)])
    else (t₁, [])

def ticketKeyOf (number : UInt32) (enteringKey : QString) : QString :=
  joinSlash (hex8 number) enteringKey

def addTicket (t : Ticket) : Except Failure (Ticket × List Message) :=
  if t.fAddedTicket then
    .error (.logicError "snaplock_ticket::add_ticket() called more than once.")
  else
    let t₁ := { t with
      fAddedTicket := true
      fTicketKey := ticketKeyOf t.fOurTicket t.fEnteringKey }
    .ok (t₁, [broadcast (.addTicket t₁.fObjectName t₁.fTicketKey (some t₁.fObtentionTimeout))])

/-- A MAXTICKET arrived. The 64 bit number is stored in 32 bits. -/
def maxTicket (newMaxTicket : ℤ) (h : Host) (t : Ticket) :
    Except Failure (Ticket × List Message) :=
  if t.fAddedTicket then .ok (t, [])
  else
    let t₁ := if newMaxTicket > t.fOurTicket.toNat then
        { t with fOurTicket := UInt32.ofInt newMaxTicket }
      else t
    let t₂ := { t₁ with fMaxTicketCount := t₁.fMaxTicketCount + 1 }
    if h.quorum ≤ t₂.fMaxTicketCount then
      addTicket { t₂ with fOurTicket := t₂.fOurTicket + 1 }
    else .ok (t₂, [])

def exiting (t : Ticket) : List Message :=
  [broadcast (.lockExiting t.fObjectName t.fEnteringKey)]

def ticketAdded (stillEntering : OrderedMap QString Ptr) (h : Host) (t : Ticket) :
    Ticket × List Message :=
  if t.fAddedTicketQuorum then (t, [])
  else
    let t₁ := { t with fTicketAddedCount := t.fTicketAddedCount + 1 }
    if h.quorum ≤ t₁.fTicketAddedCount then
      ({ t₁ with fAddedTicketQuorum := true, fStillEntering := stillEntering }, t₁.exiting)
    else (t₁, [])

def timedOut (t : Ticket) (now : ℤ) : Bool :=
  (if t.fLocked then t.fLockTimeout else t.fObtentionTimeout) < now

/-- The loop of `remove_entering()` over the tickets still entering. -/
def dropTimedOut (heap : Ptr → Ticket) :
    List (QString × Ptr) → OrderedMap QString Ptr → Clock → OrderedMap QString Ptr × Clock
  | [], still, c => (still, c)
  | (key, p) :: rest, still, c =>
      if (heap p).timedOut c.now then dropTimedOut heap rest (still.erase key) c.next
      else dropTimedOut heap rest still c.next

def removeEntering (heap : Ptr → Ticket) (key : QString) (c : Clock) (t : Ticket) :
    Ticket × Clock :=
  if t.fAddedTicketQuorum && !t.fTicketReady then
    if t.fStillEntering.Has key then
      let still := t.fStillEntering.erase key
      let r := dropTimedOut heap still.entries still c
      if r.1.isEmpty then ({ t with fStillEntering := r.1, fTicketReady := true }, r.2)
      else ({ t with fStillEntering := r.1 }, r.2)
    else (t, c)
  else (t, c)

/-- The client that asked for the lock is reached through this daemon. -/
def servesClient (h : Host) (t : Ticket) : Bool :=
  !t.fServiceName.isEmpty && t.fServerName == h.serverName

def toClient (t : Ticket) (c : Command) : Message :=
  { server := t.fServerName, service := t.fServiceName, command := c }

def activateLock (h : Host) (c : Clock) (t : Ticket) : Ticket × List Message × Clock :=
  if t.fTicketReady && !t.fLocked && !t.fLockFailed && t.servesClient h then
    let t₁ := { t with fLocked := true, fLockTimeout := t.fLockDuration + c.now }
    (t₁, [t₁.toClient (.locked t₁.fObjectName t₁.fLockTimeout h.quorum)], c.next)
  else (t, [], c)

def dropTicket (h : Host) (t : Ticket) : List Message :=
  broadcast (.dropTicket t.fObjectName
    (if t.fTicketKey.isEmpty then t.fEnteringKey else t.fTicketKey)) ::
    (if t.servesClient h then [t.toClient (.unlocked t.fObjectName none)] else [])

def lockFailed (h : Host) (t : Ticket) : Ticket × List Message :=
  if !t.fLockFailed && t.servesClient h then
    ({ t with fLockFailed := true },
      if t.fLocked then [t.toClient (.unlocked t.fObjectName (some (ascii "timedout")))]
      else [t.toClient (.lockFailed t.fObjectName (ascii "failed"))])
  else (t, [])

section Cases

variable (h : Host) (c : Clock) (t : Ticket)

theorem entered_cases :
    t.fGetMaxTicket = true ∧ t.entered h = (t, []) ∨
    t.fGetMaxTicket = false ∧ t.fEnteredCount + 1 < h.quorum ∧
      t.entered h = ({ t with fEnteredCount := t.fEnteredCount + 1 }, []) ∨
    t.fGetMaxTicket = false ∧ h.quorum ≤ t.fEnteredCount + 1 ∧
      t.entered h = ({ t with fEnteredCount := t.fEnteredCount + 1, fGetMaxTicket := true },
        [broadcast (.getMaxTicket t.fObjectName t.fEnteringKey)]) := by
  simp only [entered]
  split_ifs with hget hquorum
  · exact Or.inl ⟨hget, rfl⟩
  · exact Or.inr (Or.inr ⟨by simpa using hget, hquorum, rfl⟩)
  · exact Or.inr (Or.inl ⟨by simpa using hget, not_le.mp hquorum, rfl⟩)

def raised (t : Ticket) (newMaxTicket : ℤ) : UInt32 :=
  if newMaxTicket > t.fOurTicket.toNat then UInt32.ofInt newMaxTicket else t.fOurTicket

def numbered (t : Ticket) (number : UInt32) : Ticket :=
  { t with
    fOurTicket := number
    fMaxTicketCount := t.fMaxTicketCount + 1
    fAddedTicket := true
    fTicketKey := ticketKeyOf number t.fEnteringKey }

theorem maxTicket_cases (n : ℤ) :
    t.fAddedTicket = true ∧ t.maxTicket n h = .ok (t, []) ∨
    t.fAddedTicket = false ∧ t.fMaxTicketCount + 1 < h.quorum ∧ t.maxTicket n h =
      .ok ({ t with fOurTicket := t.raised n, fMaxTicketCount := t.fMaxTicketCount + 1 }, []) ∨
    t.fAddedTicket = false ∧ h.quorum ≤ t.fMaxTicketCount + 1 ∧ t.maxTicket n h =
      .ok (t.numbered (t.raised n + 1), [broadcast (.addTicket t.fObjectName
        (ticketKeyOf (t.raised n + 1) t.fEnteringKey) (some t.fObtentionTimeout))]) := by
  cases hadded : t.fAddedTicket with
  | true => exact Or.inl ⟨rfl, by simp [maxTicket, hadded]⟩
  | false =>
    by_cases hquorum : h.quorum ≤ t.fMaxTicketCount + 1
    · refine Or.inr (Or.inr ⟨rfl, hquorum, ?_⟩)
      by_cases hn : n > t.fOurTicket.toNat
      · simp [maxTicket, addTicket, hadded, hquorum, hn, raised, numbered]
      · simp [maxTicket, addTicket, hadded, hquorum, hn, raised, numbered]
    · refine Or.inr (Or.inl ⟨rfl, not_le.mp hquorum, ?_⟩)
      by_cases hn : n > t.fOurTicket.toNat
      · simp [maxTicket, hadded, hquorum, hn, raised]
      · simp [maxTicket, hadded, hquorum, hn, raised]

theorem ticketAdded_cases (still : OrderedMap QString Ptr) :
    t.fAddedTicketQuorum = true ∧ t.ticketAdded still h = (t, []) ∨
    t.fAddedTicketQuorum = false ∧ t.fTicketAddedCount + 1 < h.quorum ∧ t.ticketAdded still h =
      ({ t with fTicketAddedCount := t.fTicketAddedCount + 1 }, []) ∨
    t.fAddedTicketQuorum = false ∧ h.quorum ≤ t.fTicketAddedCount + 1 ∧ t.ticketAdded still h =
      ({ t with
          fTicketAddedCount := t.fTicketAddedCount + 1
          fAddedTicketQuorum := true
          fStillEntering := still },
        [broadcast (.lockExiting t.fObjectName t.fEnteringKey)]) := by
  simp only [ticketAdded, exiting]
  split_ifs with hdone hquorum
  · exact Or.inl ⟨hdone, rfl⟩
  · exact Or.inr (Or.inr ⟨by simpa using hdone, hquorum, rfl⟩)
  · exact Or.inr (Or.inl ⟨by simpa using hdone, not_le.mp hquorum, rfl⟩)

theorem dropTimedOut_sub (heap : Ptr → Ticket) (l : List (QString × Ptr))
    (still : OrderedMap QString Ptr) (k : QString) (p : Ptr)
    (hk : (dropTimedOut heap l still c).1.find? k = some p) : still.find? k = some p := by
  induction l generalizing still c with
  | nil => exact hk
  | cons e rest ih =>
    unfold dropTimedOut at hk
    split_ifs at hk
    · have herase := ih _ _ hk
      rw [OrderedMap.find?_erase] at herase
      split_ifs at herase
      exact herase
    · exact ih _ _ hk

/-- Only a waiting ticket reacts, and what it waits for only shrinks. -/
theorem removeEntering_cases (heap : Ptr → Ticket) (key : QString) :
    (t.removeEntering heap key c).1 = t ∧
      (t.fAddedTicketQuorum = false ∨ t.fTicketReady = true ∨ ¬ t.fStillEntering.Has key) ∨
    t.fAddedTicketQuorum = true ∧ t.fTicketReady = false ∧ t.fStillEntering.Has key ∧
      (t.removeEntering heap key c).1 =
        { t with
          fStillEntering := (dropTimedOut heap (t.fStillEntering.erase key).entries
            (t.fStillEntering.erase key) c).1
          fTicketReady := (dropTimedOut heap (t.fStillEntering.erase key).entries
            (t.fStillEntering.erase key) c).1.isEmpty } := by
  by_cases hwait : t.fAddedTicketQuorum = true ∧ t.fTicketReady = false
  · obtain ⟨hquorum, hready⟩ := hwait
    by_cases hhas : t.fStillEntering.Has key
    · refine Or.inr ⟨hquorum, hready, hhas, ?_⟩
      simp only [removeEntering, hquorum, hready, hhas, Bool.not_false, Bool.and_self, if_true]
      split_ifs with hempty
      · simp [hempty]
      · simp [hempty]
    · exact Or.inl ⟨by simp [removeEntering, hhas], Or.inr (Or.inr hhas)⟩
  · refine Or.inl ⟨?_, ?_⟩
    · have hfalse : (t.fAddedTicketQuorum && !t.fTicketReady) = false := by
        simpa using hwait
      simp [removeEntering, hfalse]
    · by_cases hquorum : t.fAddedTicketQuorum = true
      · exact Or.inr (Or.inl (by simpa [hquorum] using hwait))
      · exact Or.inl (by simpa using hquorum)

theorem activateLock_cases :
    t.activateLock h c = (t, [], c) ∧ (t.fTicketReady = false ∨ t.fLocked = true ∨
      t.fLockFailed = true ∨ t.servesClient h = false) ∨
    t.fTicketReady = true ∧ t.fLocked = false ∧ t.fLockFailed = false ∧
      t.servesClient h = true ∧ t.activateLock h c =
        ({ t with fLocked := true, fLockTimeout := t.fLockDuration + c.now },
          [t.toClient (.locked t.fObjectName (t.fLockDuration + c.now) h.quorum)], c.next) := by
  unfold activateLock
  split_ifs with hall
  · simp only [Bool.and_eq_true, Bool.not_eq_true'] at hall
    obtain ⟨⟨⟨hready, hlocked⟩, hfailed⟩, hserves⟩ := hall
    exact Or.inr ⟨hready, hlocked, hfailed, hserves, rfl⟩
  · refine Or.inl ⟨rfl, ?_⟩
    revert hall
    cases t.fTicketReady <;> cases t.fLocked <;> cases t.fLockFailed <;>
      cases t.servesClient h <;> simp

theorem lockFailed_cases :
    t.lockFailed h = (t, []) ∨
    t.fLockFailed = false ∧ t.fLocked = true ∧ t.lockFailed h = ({ t with fLockFailed := true },
      [t.toClient (.unlocked t.fObjectName (some (ascii "timedout")))]) ∨
    t.fLockFailed = false ∧ t.fLocked = false ∧ t.lockFailed h = ({ t with fLockFailed := true },
      [t.toClient (.lockFailed t.fObjectName (ascii "failed"))]) := by
  unfold lockFailed
  split_ifs with hall hlocked
  · simp only [Bool.and_eq_true, Bool.not_eq_true'] at hall
    exact Or.inr (Or.inl ⟨hall.1, hlocked, rfl⟩)
  · simp only [Bool.and_eq_true, Bool.not_eq_true'] at hall
    exact Or.inr (Or.inr ⟨hall.1, by simpa using hlocked, rfl⟩)
  · exact Or.inl rfl

end Cases

/-- The members set by the constructor and never changed. -/
structure SameRequest (t t' : Ticket) : Prop where
  objectName : t'.fObjectName = t.fObjectName
  obtentionTimeout : t'.fObtentionTimeout = t.fObtentionTimeout
  lockDuration : t'.fLockDuration = t.fLockDuration
  serverName : t'.fServerName = t.fServerName
  serviceName : t'.fServiceName = t.fServiceName
  enteringKey : t'.fEnteringKey = t.fEnteringKey

theorem SameRequest.refl (t : Ticket) : SameRequest t t := ⟨rfl, rfl, rfl, rfl, rfl, rfl⟩

theorem SameRequest.trans {a b c : Ticket} (hab : SameRequest a b) (hbc : SameRequest b c) :
    SameRequest a c :=
  ⟨hbc.1.trans hab.1, hbc.2.trans hab.2, hbc.3.trans hab.3, hbc.4.trans hab.4,
    hbc.5.trans hab.5, hbc.6.trans hab.6⟩

inductive Moves : Ticket → Ticket → Prop
  | entered (t : Ticket) (hget : t.fGetMaxTicket = false) :
      Moves t { t with fEnteredCount := t.fEnteredCount + 1 }
  | asked (t : Ticket) (hget : t.fGetMaxTicket = false) :
      Moves t { t with fEnteredCount := t.fEnteredCount + 1, fGetMaxTicket := true }
  | raised (t : Ticket) (n : ℤ) (hadded : t.fAddedTicket = false) :
      Moves t { t with fOurTicket := t.raised n, fMaxTicketCount := t.fMaxTicketCount + 1 }
  | numbered (t : Ticket) (n : ℤ) (hadded : t.fAddedTicket = false) :
      Moves t (t.numbered (t.raised n + 1))
  | acknowledged (t : Ticket) (hquorum : t.fAddedTicketQuorum = false) :
      Moves t { t with fTicketAddedCount := t.fTicketAddedCount + 1 }
  | exiting (t : Ticket) (still : OrderedMap QString Ptr) (hquorum : t.fAddedTicketQuorum = false) :
      Moves t { t with
        fTicketAddedCount := t.fTicketAddedCount + 1
        fAddedTicketQuorum := true
        fStillEntering := still }
  | cleared (t : Ticket) (still : OrderedMap QString Ptr) (hquorum : t.fAddedTicketQuorum = true)
      (hready : t.fTicketReady = false) :
      Moves t { t with fStillEntering := still, fTicketReady := still.isEmpty }
  | locked (t : Ticket) (timeout : ℤ) (hready : t.fTicketReady = true)
      (hlocked : t.fLocked = false) : Moves t { t with fLocked := true, fLockTimeout := timeout }
  | failed (t : Ticket) : Moves t { t with fLockFailed := true }

section Moves

variable (h : Host) (c : Clock) (t : Ticket)

theorem entered_moves : (t.entered h).1 = t ∨ Moves t (t.entered h).1 := by
  rcases t.entered_cases h with ⟨-, hr⟩ | ⟨hget, -, hr⟩ | ⟨hget, -, hr⟩
  · exact Or.inl (by rw [hr])
  · exact Or.inr (hr ▸ .entered t hget)
  · exact Or.inr (hr ▸ .asked t hget)

theorem maxTicket_moves {n : ℤ} {r : Ticket × List Message} (hr : t.maxTicket n h = .ok r) :
    r.1 = t ∨ Moves t r.1 := by
  rcases t.maxTicket_cases h n with ⟨-, hcase⟩ | ⟨hadded, -, hcase⟩ | ⟨hadded, -, hcase⟩
  · rw [hr] at hcase
    cases hcase
    exact Or.inl rfl
  · rw [hr] at hcase
    cases hcase
    exact Or.inr (.raised t n hadded)
  · rw [hr] at hcase
    cases hcase
    exact Or.inr (.numbered t n hadded)

theorem ticketAdded_moves (still : OrderedMap QString Ptr) :
    (t.ticketAdded still h).1 = t ∨ Moves t (t.ticketAdded still h).1 := by
  rcases t.ticketAdded_cases h still with ⟨-, hr⟩ | ⟨hquorum, -, hr⟩ | ⟨hquorum, -, hr⟩
  · exact Or.inl (by rw [hr])
  · exact Or.inr (hr ▸ .acknowledged t hquorum)
  · exact Or.inr (hr ▸ .exiting t still hquorum)

theorem removeEntering_moves (heap : Ptr → Ticket) (key : QString) :
    (t.removeEntering heap key c).1 = t ∨ Moves t (t.removeEntering heap key c).1 := by
  rcases t.removeEntering_cases c heap key with ⟨hr, -⟩ | ⟨hquorum, hready, -, hr⟩
  · exact Or.inl hr
  · exact Or.inr (hr ▸ .cleared t _ hquorum hready)

theorem activateLock_moves : (t.activateLock h c).1 = t ∨ Moves t (t.activateLock h c).1 := by
  rcases t.activateLock_cases h c with ⟨hr, -⟩ | ⟨hready, hlocked, -, -, hr⟩
  · exact Or.inl (by rw [hr])
  · exact Or.inr (hr ▸ .locked t _ hready hlocked)

theorem lockFailed_moves : (t.lockFailed h).1 = t ∨ Moves t (t.lockFailed h).1 := by
  rcases t.lockFailed_cases h with hr | ⟨-, -, hr⟩ | ⟨-, -, hr⟩
  · exact Or.inl (by rw [hr])
  · exact Or.inr (hr ▸ .failed t)
  · exact Or.inr (hr ▸ .failed t)

theorem Moves.sameRequest {t t' : Ticket} (hmove : Moves t t') : SameRequest t t' := by
  cases hmove <;> exact ⟨rfl, rfl, rfl, rfl, rfl, rfl⟩

theorem sameRequest_of_call {t t' : Ticket} (h : t' = t ∨ Moves t t') : SameRequest t t' := by
  rcases h with rfl | hmove
  · exact .refl _
  · exact hmove.sameRequest

end Moves

end Ticket

end SnapCpp.LockTicket
