import SnapCpp.Ensures
import SnapCpp.LockNetwork
import SnapCpp.LockSweep

/-!
Every way in which a handler can end without an exception. Each lemma turns
the result of one handler into the updates it made; the proofs about runs use
these lemmas and do not unfold the handlers.
-/
namespace SnapCpp.LockDaemon

open QString LockTicket

def Daemon.withClock (d : Daemon) (c : Clock) : Daemon := { d with clock := c }

section Clock

variable (d : Daemon) (c : Clock)

@[simp] theorem withClock_fServerName : (d.withClock c).fServerName = d.fServerName := rfl

@[simp] theorem withClock_fComputers : (d.withClock c).fComputers = d.fComputers := rfl

@[simp] theorem withClock_fEnteringTickets :
    (d.withClock c).fEnteringTickets = d.fEnteringTickets := rfl

@[simp] theorem withClock_fTickets : (d.withClock c).fTickets = d.fTickets := rfl

@[simp] theorem withClock_heap : (d.withClock c).heap = d.heap := rfl

@[simp] theorem withClock_next : (d.withClock c).next = d.next := rfl

@[simp] theorem withClock_outbox : (d.withClock c).outbox = d.outbox := rfl

theorem timeoutOf_snd (timeout : Option ℤ) : ∃ c, Sweeps d.clock.readings d (d.withClock c) ∧
    (d.timeoutOf timeout).2 = d.withClock c ∧
    (d.timeoutOf timeout).2.tick = d.withClock c.next := by
  cases timeout with
  | none => exact ⟨d.clock.next, .single (.tick d), rfl, rfl⟩
  | some t => exact ⟨d.clock, .refl, rfl, rfl⟩

theorem sweeps_withClock_next {readings : List ℤ} {d : Daemon} {c : Clock}
    (h : Sweeps readings d (d.withClock c)) : Sweeps readings d (d.withClock c.next) :=
  h.tail (.tick (d.withClock c))

end Clock

section Parameters

variable {o : QString} {pid : Option ℤ} {key source : Option QString} {u : Unit}

theorem getParameters_objectName (h : getParameters o pid key source = .ok u) : o ≠ [] := by
  rintro rfl
  cases h

end Parameters

section Handlers

variable {d d' : Daemon} {m : Message} {o key source : QString} {timeout : Option ℤ}
  {pid duration ticketId : ℤ}

theorem lock_cases (h : d.lock m o pid timeout duration = .ok d') :
    o ≠ [] ∧ ∃ c, Sweeps d.clock.readings d (d.withClock c) ∧ (d' = d.withClock c ∨
      ∃ deadline t, t = Ticket.create o (d.clientKey pid) deadline (int32 duration)
          m.sentFromServer m.sentFromService ∧ snapLockMinimumTimeout ≤ int32 duration ∧
        d' = (((d.withClock c).allocate t).putEntering o (d.clientKey pid) d.next).post
          (some d.next) t.entering) := by
  obtain ⟨_, hparam, h⟩ := bind_eq_ok h
  obtain ⟨c, hc, hsnd, htick⟩ := timeoutOf_snd d timeout
  refine ⟨getParameters_objectName hparam, c.next, sweeps_withClock_next hc, ?_⟩
  simp only [htick] at h
  split_ifs at h with hlate hduration
  · cases h
    exact Or.inl rfl
  · cases h
    exact Or.inr ⟨_, _, rfl, not_lt.mp hduration, rfl⟩

theorem unlock_cases (h : d.unlock o pid = .ok d') :
    o ≠ [] ∧ (d' = d ∨ ∃ k p, (d.fTickets.group o).find? k = some p ∧
      (d.fTickets.group o).entries.find?
        (fun e => (d.heap e.2).fEnteringKey = d.clientKey pid) = some (k, p) ∧
      (d.heap p).fEnteringKey = d.clientKey pid ∧
      d' = d.post (some p) ((d.heap p).dropTicket d.host)) := by
  obtain ⟨_, hparam, h⟩ := bind_eq_ok h
  refine ⟨getParameters_objectName hparam, ?_⟩
  cases hfind : (d.fTickets.group o).entries.find?
      (fun e => (d.heap e.2).fEnteringKey = d.clientKey pid) with
  | none =>
    simp only [hfind] at h
    cases h
    exact Or.inl rfl
  | some e =>
    simp only [hfind] at h
    cases h
    have hkey : (d.heap e.2).fEnteringKey = d.clientKey pid := by
      simpa using List.find?_some hfind
    have hmem : (d.fTickets.group o).find? e.1 = some e.2 :=
      (OrderedMap.mem_entries_iff _ e.1 e.2).mp (List.mem_of_find?_eq_some hfind)
    exact Or.inr ⟨e.1, e.2, hmem, rfl, hkey, rfl⟩

/-- The entering record after a LOCKENTERING, before the final `cleanup()`. -/
theorem lockEntering_cases (h : d.lockEntering m o key timeout duration source = .ok d') :
    o ≠ [] ∧ ∃ c d₁, Sweeps d.clock.readings d (d.withClock c) ∧ d₁.cleanup = .ok d' ∧
      ((∃ now ∈ d.clock.readings, (∀ t, timeout = some t → t ≤ now)) ∧ d₁ = d.withClock c ∨
        (d.fEnteringTickets.group o).Has key ∧
          d₁ = (d.withClock c).post none [replyTo m (.lockEntered o key)] ∨
        ¬ (d.fEnteringTickets.group o).Has key ∧ ∃ deadline serverName serviceName,
          (∀ t, timeout = some t → deadline = t) ∧
          splitSlash source = [serverName, serviceName] ∧
          d₁ = (((d.withClock c).allocate (Ticket.create o key deadline (int32 duration)
              serverName serviceName)).putEntering o key d.next).post none
            [replyTo m (.lockEntered o key)]) := by
  obtain ⟨_, hparam, h⟩ := bind_eq_ok h
  obtain ⟨c, hc, hsnd, htick⟩ := timeoutOf_snd d timeout
  have hdeadline : ∀ t, timeout = some t → (d.timeoutOf timeout).1 = t := by
    rintro t rfl
    rfl
  have hnow : (d.withClock c).clock.now ∈ d.clock.readings :=
    (Sweeps.within hc (within_self d)).now_mem
  simp only [hsnd] at h
  refine ⟨getParameters_objectName hparam, c.next, ?_⟩
  split_ifs at h with hfuture hhas hduration
  · exact ⟨_, sweeps_withClock_next hc, h, Or.inr (Or.inl ⟨hhas, rfl⟩)⟩
  · split at h
    · rename_i serverName serviceName hsplit
      exact ⟨_, sweeps_withClock_next hc, h,
        Or.inr (Or.inr ⟨hhas, _, serverName, serviceName, hdeadline, hsplit, rfl⟩)⟩
    · cases h
  · refine ⟨_, sweeps_withClock_next hc, h, Or.inl ⟨⟨_, hnow, ?_⟩, rfl⟩⟩
    intro t ht
    rw [← hdeadline t ht]
    exact not_lt.mp hfuture

theorem lockEntered_cases (h : d.lockEntered o key = .ok d') :
    (d.fEnteringTickets.group o).find? key = none ∧ d' = d ∨
      ∃ p, (d.fEnteringTickets.group o).find? key = some p ∧
        d' = d.store p ((d.heap p).entered d.host) := by
  obtain ⟨_, hparam, h⟩ := bind_eq_ok h
  cases hfind : (d.fEnteringTickets.group o).find? key with
  | none =>
    simp only [hfind] at h
    cases h
    exact Or.inl ⟨rfl, rfl⟩
  | some p =>
    simp only [hfind] at h
    cases h
    exact Or.inr ⟨p, rfl, rfl⟩

theorem lockExiting_cases (h : d.lockExiting o key = .ok d') :
    ¬ (d.fEnteringTickets.group o).Has key ∧ d' = d ∨
      (d.fEnteringTickets.group o).Has key ∧
        d' = ((d.fTickets.group o).entries.foldl (fun x e => x.removeEntering key e.2)
          (d.eraseEntering o key)).activateFirstLock o := by
  obtain ⟨_, hparam, h⟩ := bind_eq_ok h
  split_ifs at h with hhas
  · cases h
    exact Or.inr ⟨hhas, rfl⟩
  · cases h
    exact Or.inl ⟨hhas, rfl⟩

theorem getMaxTicket_cases (h : d.getMaxTicket m o key = .ok d') :
    ∃ d₁, d.cleanup = .ok d₁ ∧ d' = d₁.post none
      [replyTo m (.maxTicket o key (d₁.lastTicket o).toNat)] := by
  obtain ⟨_, hparam, h⟩ := bind_eq_ok h
  obtain ⟨d₁, hclean, h⟩ := bind_eq_ok h
  cases h
  exact ⟨d₁, hclean, rfl⟩

theorem maxTicket_cases (h : d.maxTicket o key ticketId = .ok d') :
    (d.fEnteringTickets.group o).find? key = none ∧ d' = d ∨
      ∃ p r, (d.fEnteringTickets.group o).find? key = some p ∧
        (d.heap p).maxTicket ticketId d.host = .ok r ∧ d' = d.store p r := by
  obtain ⟨_, hparam, h⟩ := bind_eq_ok h
  cases hfind : (d.fEnteringTickets.group o).find? key with
  | none =>
    simp only [hfind] at h
    cases h
    exact Or.inl ⟨rfl, rfl⟩
  | some p =>
    simp only [hfind] at h
    obtain ⟨r, hr, h⟩ := bind_eq_ok h
    cases h
    exact Or.inr ⟨p, r, rfl, hr, rfl⟩

theorem addTicket_cases (h : d.addTicket m o key timeout = .ok d') :
    ∃ c number serverName pidText rest p, Sweeps d.clock.readings d (d.withClock c) ∧
      splitSlash key = number :: serverName :: pidText :: rest ∧
      (d.fEnteringTickets.group o).find? (joinSlash serverName pidText) = some p ∧
      d' = ((d.withClock c).putTicket o key p).post none [replyTo m (.ticketAdded o key)] := by
  obtain ⟨_, hparam, h⟩ := bind_eq_ok h
  obtain ⟨c, hc, hsnd, -⟩ := timeoutOf_snd d timeout
  simp only [hsnd] at h
  split_ifs at h
  split at h
  · rename_i number serverName pidText rest hsplit
    split at h
    · rename_i p hfind
      cases h
      exact ⟨c, number, serverName, pidText, rest, p, hc, hsplit, hfind, rfl⟩
    · cases h
  · cases h

theorem ticketAdded_cases (h : d.ticketAdded o key = .ok d') :
    d' = d ∧ ((d.fTickets.group o).find? key = none ∨
        (d.fEnteringTickets.group o).isEmpty = true) ∨
      ∃ p, (d.fTickets.group o).find? key = some p ∧
        (d.fEnteringTickets.group o).isEmpty = false ∧
        d' = d.store p ((d.heap p).ticketAdded (d.fEnteringTickets.group o) d.host) := by
  obtain ⟨_, hparam, h⟩ := bind_eq_ok h
  cases hfind : (d.fTickets.group o).find? key with
  | none =>
    simp only [hfind] at h
    cases h
    exact Or.inl ⟨rfl, Or.inl rfl⟩
  | some p =>
    simp only [hfind] at h
    split_ifs at h with hempty
    · cases h
      exact Or.inl ⟨rfl, Or.inr hempty⟩
    · cases h
      exact Or.inr ⟨p, rfl, by simpa using hempty, rfl⟩

theorem dropTicket_cases (h : d.dropTicket o key = .ok d') :
    (∃ number serverName pidText, splitSlash key = [number, serverName, pidText] ∧
      d' = ((d.eraseTicket o key).activateFirstLock o).eraseEntering o
        (joinSlash serverName pidText)) ∨
    d' = d.eraseEntering o key ∧ (splitSlash key).length ≠ 3 := by
  obtain ⟨_, hparam, h⟩ := bind_eq_ok h
  split at h
  · rename_i number serverName pidText hsplit
    cases h
    exact Or.inl ⟨number, serverName, pidText, hsplit, rfl⟩
  · rename_i hsplit
    cases h
    refine Or.inr ⟨rfl, ?_⟩
    intro hlength
    obtain ⟨a, b, c, habc⟩ := List.length_eq_three.mp hlength
    exact hsplit a b c habc

theorem lockReady_ok {name : QString} (d : Daemon) (h : name ≠ []) :
    ∃ d', d.lockReady name = .ok d' := by
  unfold Daemon.lockReady
  split_ifs with hempty hknown hother
  · exact absurd (by simpa using hempty) h
  · exact ⟨_, rfl⟩
  · exact ⟨_, rfl⟩
  · exact ⟨_, rfl⟩

theorem lockReady_cases {name : QString} (h : d.lockReady name = .ok d') :
    name ≠ [] ∧ (d.fComputers.Has name ∧ d' = d ∨
      ¬ d.fComputers.Has name ∧ name = d.fServerName ∧
        d' = { d with fComputers := d.fComputers.insert name true } ∨
      ¬ d.fComputers.Has name ∧ name ≠ d.fServerName ∧
        d' = ({ d with fComputers := d.fComputers.insert name true } : Daemon).sendLockReady) := by
  unfold Daemon.lockReady at h
  split_ifs at h with hempty hhas hother
  · cases h
    exact ⟨by simpa using hempty, Or.inl ⟨hhas, rfl⟩⟩
  · cases h
    exact ⟨by simpa using hempty, Or.inr (Or.inr ⟨hhas, hother, rfl⟩)⟩
  · cases h
    exact ⟨by simpa using hempty, Or.inr (Or.inl ⟨hhas, not_not.mp hother, rfl⟩)⟩

end Handlers

inductive ReplyOf : Command → Command → Prop
  | entered (o key : QString) (timeout : Option ℤ) (duration : ℤ) (source : QString) :
      ReplyOf (.lockEntering o key timeout duration source) (.lockEntered o key)
  | max (o key : QString) (n : UInt32) : ReplyOf (.getMaxTicket o key) (.maxTicket o key n.toNat)
  | added (o key : QString) (timeout : Option ℤ) :
      ReplyOf (.addTicket o key timeout) (.ticketAdded o key)

/-- One update made while a message is processed. `processMessage()` is a
sequence of these, so a property of single tickets is proved once for each. -/
inductive Effect (m : Message) (readings : List ℤ) : Daemon → Daemon → Prop
  | sweep (d d' : Daemon) (h : Sweep readings d d') : Effect m readings d d'
  | reply (d : Daemon) (c : Command) (hc : ReplyOf m.command c) :
      Effect m readings d (d.post none [replyTo m c])
  | ready (d : Daemon) : Effect m readings d d.sendLockReady
  | computers (d : Daemon) (known : OrderedMap QString Bool) :
      Effect m readings d { d with fComputers := known }
  | request (d : Daemon) (o : QString) (pid : ℤ) (timeout : Option ℤ) (duration deadline : ℤ)
      (t : Ticket) (hcommand : m.command = .lock o pid timeout duration)
      (ht : t = Ticket.create o (d.clientKey pid) deadline (int32 duration) m.sentFromServer
        m.sentFromService) :
      Effect m readings d (((d.allocate t).putEntering o (d.clientKey pid) d.next).post
        (some d.next) t.entering)
  | copy (d : Daemon) (o key : QString) (timeout : Option ℤ) (duration : ℤ) (source : QString)
      (deadline : ℤ) (server service : QString)
      (hcommand : m.command = .lockEntering o key timeout duration source)
      (hnew : ¬ (d.fEnteringTickets.group o).Has key)
      (hdeadline : ∀ t, timeout = some t → deadline = t) :
      Effect m readings d ((d.allocate (Ticket.create o key deadline (int32 duration) server
        service)).putEntering o key d.next)
  | drop (d : Daemon) (o : QString) (pid : ℤ) (key : QString) (p : Ptr)
      (hcommand : m.command = .unlock o pid)
      (hfind : (d.fTickets.group o).find? key = some p)
      (hkey : (d.heap p).fEnteringKey = d.clientKey pid) :
      Effect m readings d (d.post (some p) ((d.heap p).dropTicket d.host))
  | entered (d : Daemon) (o key : QString) (p : Ptr)
      (hcommand : m.command = .lockEntered o key)
      (hfind : (d.fEnteringTickets.group o).find? key = some p) :
      Effect m readings d (d.store p ((d.heap p).entered d.host))
  | maxTicket (d : Daemon) (o key : QString) (p : Ptr) (n : ℤ) (r : Ticket × List Message)
      (hcommand : m.command = .maxTicket o key n)
      (hfind : (d.fEnteringTickets.group o).find? key = some p)
      (hr : (d.heap p).maxTicket n d.host = .ok r) : Effect m readings d (d.store p r)
  | ticketAdded (d : Daemon) (o key : QString) (p : Ptr)
      (hcommand : m.command = .ticketAdded o key)
      (hfind : (d.fTickets.group o).find? key = some p) : Effect m readings d
        (d.store p ((d.heap p).ticketAdded (d.fEnteringTickets.group o) d.host))
  | removeEntering (d : Daemon) (o key : QString) (p : Ptr) (k : QString)
      (hfind : (d.fTickets.group o).find? key = some p) :
      Effect m readings d (d.removeEntering k p)
  | putTicket (d : Daemon) (o key number serverName pidText : QString) (rest : List QString)
      (p : Ptr) (timeout : Option ℤ) (hcommand : m.command = .addTicket o key timeout)
      (hsplit : splitSlash key = number :: serverName :: pidText :: rest)
      (hfind : (d.fEnteringTickets.group o).find? (joinSlash serverName pidText) = some p) :
      Effect m readings d (d.putTicket o key p)
  | eraseTicket (d : Daemon) (o key : QString) (hcommand : m.command = .dropTicket o key) :
      Effect m readings d (d.eraseTicket o key)
  | eraseEntering (d : Daemon) (o key : QString) :
      Effect m readings d (d.eraseEntering o key)

abbrev Effects (m : Message) (readings : List ℤ) : Daemon → Daemon → Prop :=
  Relation.ReflTransGen (Effect m readings)

variable {d d' : Daemon} {readings : List ℤ}

theorem Effects.invariant {m : Message} (inv : Daemon → Prop) (h : Effects m readings d d')
    (hinit : inv d)
    (hstep : ∀ a b, inv a → Effect m readings a b → inv b) : inv d' := by
  induction h with
  | refl => exact hinit
  | tail _ hlast ih => exact hstep _ _ ih hlast

theorem Sweeps.effects {m : Message} (h : Sweeps readings d d') : Effects m readings d d' :=
  Relation.ReflTransGen.mono (fun a b hab => Effect.sweep a b hab) _ _ h

section Effects

variable {d d' : Daemon} {m : Message} {o key source : QString} {timeout : Option ℤ}
  {pid duration ticketId : ℤ}

theorem lock_effects (hm : m.command = .lock o pid timeout duration)
    (h : d.lock m o pid timeout duration = .ok d') : Effects m d.clock.readings d d' := by
  obtain ⟨-, c, hc, rfl | ⟨deadline, t, ht, -, rfl⟩⟩ := lock_cases h
  · exact hc.effects
  · exact hc.effects.tail (.request (d.withClock c) o pid timeout duration deadline t hm ht)

theorem unlock_effects (hm : m.command = .unlock o pid) (h : d.unlock o pid = .ok d') :
    Effects m d.clock.readings d d' := by
  obtain ⟨-, rfl | ⟨k, p, hfind, -, hkey, rfl⟩⟩ := unlock_cases h
  · exact .refl
  · exact .single (.drop d o pid k p hm hfind hkey)

theorem lockEntering_effects (hm : m.command = .lockEntering o key timeout duration source)
    (h : d.lockEntering m o key timeout duration source = .ok d') :
    Effects m d.clock.readings d d' := by
  have hreply : ReplyOf m.command (.lockEntered o key) := hm ▸ .entered o key ..
  obtain ⟨-, c, d₁, hc, hclean, hcases⟩ := lockEntering_cases h
  have hwithin := Sweeps.within hc (within_self d)
  rcases hcases with ⟨-, rfl⟩ | ⟨-, rfl⟩ |
    ⟨hnew, deadline, serverName, serviceName, hdeadline, -, rfl⟩
  · exact Sweeps.effects (hc.trans (cleanup_sweeps hclean hwithin))
  · have hsweeps : Sweeps d.clock.readings _ d' := cleanup_sweeps hclean hwithin
    exact (hc.effects.tail (.reply _ (.lockEntered o key) hreply)).trans hsweeps.effects
  · have hsweeps : Sweeps d.clock.readings _ d' := cleanup_sweeps hclean hwithin
    exact ((hc.effects.tail (.copy _ o key timeout duration source deadline serverName
      serviceName hm hnew hdeadline)).tail (.reply _ (.lockEntered o key) hreply)).trans
      hsweeps.effects

/-- The loop over the tickets keeps what each removal keeps. -/
theorem foldl_removeEntering (inv : Daemon → Prop) (d : Daemon) (key : QString)
    (l : List (QString × Ptr)) (hinit : inv d)
    (hstep : ∀ x p, (∃ k, (k, p) ∈ l) → inv x → inv (x.removeEntering key p)) :
    inv (l.foldl (fun x e => x.removeEntering key e.2) d) :=
  List.foldlRecOn l _ hinit (fun x hx e he => hstep x e.2 ⟨e.1, he⟩ hx)

theorem lockExiting_effects (h : d.lockExiting o key = .ok d') :
    Effects m d.clock.readings d d' := by
  rcases lockExiting_cases h with ⟨-, rfl⟩ | ⟨-, rfl⟩
  · exact .refl
  · have hloop := foldl_removeEntering
      (fun x => x.fTickets = d.fTickets ∧ Within d.clock.readings x ∧
        Effects m d.clock.readings d x)
      (d.eraseEntering o key) key (d.fTickets.group o).entries
      ⟨rfl, within_self d, .single (.eraseEntering d o key)⟩ ?_
    · obtain ⟨-, hwithin, heffects⟩ := hloop
      exact heffects.trans (activateFirstLock_sweeps o _ hwithin).effects
    · rintro x p ⟨k, hmem⟩ ⟨htickets, hwithin, heffects⟩
      have hfind : (x.fTickets.group o).find? k = some p := by
        rw [htickets]
        exact (OrderedMap.mem_entries_iff _ k p).mp hmem
      exact ⟨htickets, removeEntering_within x p key hwithin,
        heffects.tail (.removeEntering x o k p key hfind)⟩

theorem dropTicket_effects (hm : m.command = .dropTicket o key) (h : d.dropTicket o key = .ok d') :
    Effects m d.clock.readings d d' := by
  rcases dropTicket_cases h with ⟨number, serverName, pidText, -, rfl⟩ | ⟨rfl, -⟩
  · have hsweeps : Sweeps d.clock.readings _ _ :=
      activateFirstLock_sweeps o (d.eraseTicket o key) (within_self d)
    exact (Relation.ReflTransGen.head (.eraseTicket d o key hm) hsweeps.effects).tail
      (.eraseEntering _ o _)
  · exact .single (.eraseEntering d o key)

/-- Processing a message is a sequence of elementary updates. -/
theorem processMessage_effects (h : d.processMessage m = .ok d') :
    Effects m d.clock.readings d d' := by
  unfold Daemon.processMessage at h
  split at h
  · exact lock_effects ‹_› h
  · exact unlock_effects ‹_› h
  · exact lockEntering_effects ‹_› h
  · rcases lockEntered_cases h with ⟨-, rfl⟩ | ⟨p, hfind, rfl⟩
    · exact .refl
    · exact .single (.entered d _ _ p ‹_› hfind)
  · rename_i o key hm
    obtain ⟨d₁, hclean, rfl⟩ := getMaxTicket_cases h
    exact (cleanup_sweeps hclean (within_self d)).effects.tail
      (.reply _ _ (hm ▸ .max o key (d₁.lastTicket o)))
  · rcases maxTicket_cases h with ⟨-, rfl⟩ | ⟨p, r, hfind, hr, rfl⟩
    · exact .refl
    · exact .single (.maxTicket d _ _ p _ r ‹_› hfind hr)
  · rename_i o key timeout hm
    obtain ⟨c, number, serverName, pidText, rest, p, hc, hsplit, hfind, rfl⟩ := addTicket_cases h
    exact (hc.effects.tail (.putTicket _ _ _ _ _ _ rest p _ hm hsplit hfind)).tail
      (.reply _ _ (hm ▸ .added o key timeout))
  · rcases ticketAdded_cases h with ⟨rfl, -⟩ | ⟨p, hfind, -, rfl⟩
    · exact .refl
    · exact .single (.ticketAdded d _ _ p ‹_› hfind)
  · exact lockExiting_effects h
  · exact dropTicket_effects ‹_› h
  · obtain ⟨-, ⟨-, rfl⟩ | ⟨-, -, rfl⟩ | ⟨-, -, rfl⟩⟩ := lockReady_cases h
    · exact .refl
    · exact .single (.computers d _)
    · exact Relation.ReflTransGen.tail (.single (.computers d _)) (.ready _)
  · cases h
    unfold Daemon.lockGone
    split_ifs
    · exact .refl
    · exact .single (.computers d _)
  · cases h
    unfold Daemon.interpretStatus
    split_ifs
    · exact .single (.ready d)
    · exact .refl
  · cases h
    exact .refl
  · cases h
    exact .refl
  · cases h
    exact .refl

end Effects

section Heap

variable {d d' : Daemon} {m : Message} {readings : List ℤ}

def HeapStep (d d' : Daemon) (p : Ptr) : Prop :=
  d'.heap p = d.heap p ∨ (d.heap p).Moves (d'.heap p) ∨
    p = d.next ∧ d'.next = d.next + 1 ∧ ∃ o key deadline duration server service,
      d'.heap p = Ticket.create o key deadline duration server service

theorem heapStep_of_call {t : Ticket} {q : Ptr} (hheap : ∀ p, d'.heap p = if p = q then t
    else d.heap p) (h : t = d.heap q ∨ (d.heap q).Moves t) (p : Ptr) : HeapStep d d' p := by
  by_cases hp : p = q
  · subst hp
    rw [HeapStep, hheap p, if_pos rfl]
    rcases h with h | h
    · exact Or.inl h
    · exact Or.inr (Or.inl h)
  · exact Or.inl (by rw [hheap p, if_neg hp])

theorem heapStep_of_create (hnext : d'.next = d.next + 1) {o key : QString}
    {deadline duration : ℤ} {server service : QString}
    (hheap : d'.heap = Function.update d.heap d.next
      (Ticket.create o key deadline duration server service)) (p : Ptr) : HeapStep d d' p := by
  by_cases hp : p = d.next
  · refine Or.inr (Or.inr ⟨hp, hnext, o, key, deadline, duration, server, service, ?_⟩)
    rw [hheap, hp, Function.update_self]
  · exact Or.inl (by rw [hheap, Function.update_of_ne hp])

theorem Sweep.heap (h : Sweep readings d d') (p : Ptr) :
    HeapStep d d' p ∧ d'.next = d.next := by
  cases h with
  | fail o key q hfind =>
    exact ⟨heapStep_of_call (lockFailed_heap d q) (Ticket.lockFailed_moves d.host _) p, rfl⟩
  | activate o key q hfind =>
    exact ⟨heapStep_of_call (activateLock_heap d q)
      (Ticket.activateLock_moves d.host d.clock _) p, rfl⟩
  | _ => exact ⟨Or.inl rfl, rfl⟩

theorem Effect.heap (h : Effect m readings d d') (p : Ptr) : HeapStep d d' p := by
  cases h with
  | sweep _ hsweep => exact (hsweep.heap p).1
  | request o pid timeout duration deadline t hcommand ht =>
    subst ht
    exact heapStep_of_create rfl rfl p
  | copy o key timeout duration source deadline server service hcommand hnew hdeadline =>
    exact heapStep_of_create rfl rfl p
  | entered o key q hcommand hfind =>
    exact heapStep_of_call (store_heap d q _) (Ticket.entered_moves d.host _) p
  | maxTicket o key q n r hcommand hfind hr =>
    exact heapStep_of_call (store_heap d q r) (Ticket.maxTicket_moves d.host _ hr) p
  | ticketAdded o key q hcommand hfind =>
    exact heapStep_of_call (store_heap d q _) (Ticket.ticketAdded_moves d.host _ _) p
  | removeEntering o key q k hfind =>
    exact heapStep_of_call (removeEntering_heap d q k)
      (Ticket.removeEntering_moves d.clock _ d.heap k) p
  | _ => exact Or.inl rfl

theorem Effect.next_le (h : Effect m readings d d') : d.next ≤ d'.next := by
  cases h with
  | sweep _ hsweep => exact (hsweep.heap 0).2.ge
  | request o pid timeout duration deadline t hcommand ht => exact Nat.le_succ d.next
  | copy o key timeout duration source deadline server service hcommand hnew hdeadline =>
    exact Nat.le_succ d.next
  | _ => exact le_rfl

/-- A relation that every call respects holds between a ticket and what the
updates make of it. -/
theorem Effect.ticket {R : Ticket → Ticket → Prop} (h : Effect m readings d d')
    (hrefl : ∀ t, R t t) (hmoves : ∀ t t', t.Moves t' → R t t') (p : Ptr) (hp : p < d.next) :
    R (d.heap p) (d'.heap p) := by
  rcases h.heap p with hsame | hmove | ⟨hnew, -⟩
  · rw [hsame]
    exact hrefl _
  · exact hmoves _ _ hmove
  · exact absurd hnew (ne_of_lt hp)

theorem processMessage_next_le (h : d.processMessage m = .ok d') : d.next ≤ d'.next :=
  (processMessage_effects h).invariant (fun x => d.next ≤ x.next) le_rfl
    (fun _ _ ha hab => ha.trans hab.next_le)

theorem processMessage_ticket {R : Ticket → Ticket → Prop} (h : d.processMessage m = .ok d')
    (hrefl : ∀ t, R t t) (htrans : ∀ a b c, R a b → R b c → R a c)
    (hmoves : ∀ t t', t.Moves t' → R t t') (p : Ptr) (hp : p < d.next) :
    R (d.heap p) (d'.heap p) := by
  have hboth := (processMessage_effects h).invariant
    (fun x => d.next ≤ x.next ∧ R (d.heap p) (x.heap p)) ⟨le_rfl, hrefl _⟩
    (fun a b ha hab => ⟨ha.1.trans hab.next_le,
      htrans _ _ _ ha.2 (hab.ticket hrefl hmoves p (hp.trans_le ha.1))⟩)
  exact hboth.2

end Heap

section Stable

variable {d d' : Daemon} {m : Message} {readings : List ℤ}

/-- Allocated tickets keep what the constructor gave them. -/
structure Stable (d d' : Daemon) : Prop where
  next_le : d.next ≤ d'.next
  ticket : ∀ p, p < d.next → (d.heap p).SameRequest (d'.heap p)

theorem Stable.refl (d : Daemon) : Stable d d := ⟨le_rfl, fun p _ => .refl (d.heap p)⟩

theorem Effect.stable (h : Effect m readings d d') : Stable d d' :=
  ⟨h.next_le, h.ticket .refl (fun _ _ hmove => hmove.sameRequest)⟩

theorem Sweep.stable (h : Sweep readings d d') : Stable d d' :=
  (Effect.sweep (m := broadcast (.lockReady [])) d d' h).stable

theorem stable_allocate (d : Daemon) (t : Ticket) : Stable d (d.allocate t) where
  next_le := Nat.le_succ d.next
  ticket := by
    intro p hp
    have hne : p ≠ d.next := ne_of_lt hp
    simpa [Daemon.allocate, hne] using Ticket.SameRequest.refl (d.heap p)

end Stable

/-- The maps of a daemon only lost entries. -/
structure Shrunk (d d' : Daemon) : Prop where
  tickets : ∀ o key p, (d'.fTickets.group o).find? key = some p →
    (d.fTickets.group o).find? key = some p
  entering : ∀ o key p, (d'.fEnteringTickets.group o).find? key = some p →
    (d.fEnteringTickets.group o).find? key = some p

theorem Shrunk.refl (d : Daemon) : Shrunk d d := ⟨fun _ _ _ h => h, fun _ _ _ h => h⟩

theorem eraseTicket_shrunk (d : Daemon) (o key : QString) : Shrunk d (d.eraseTicket o key) where
  tickets := by
    intro o' key' p hfind
    rw [eraseTicket_group] at hfind
    split_ifs at hfind with ho
    · rw [OrderedMap.find?_erase] at hfind
      split_ifs at hfind
      rwa [ho]
    · exact hfind
  entering := fun _ _ _ h => h

theorem eraseEntering_shrunk (d : Daemon) (o key : QString) :
    Shrunk d (d.eraseEntering o key) where
  tickets := fun _ _ _ h => h
  entering := by
    intro o' key' p hfind
    rw [eraseEntering_group] at hfind
    split_ifs at hfind with ho
    · rw [OrderedMap.find?_erase] at hfind
      split_ifs at hfind
      rwa [ho]
    · exact hfind

theorem Sweep.shrunk (h : Sweep readings d d') :
    Shrunk d d' := by
  cases h with
  | eraseTicket o key p now hfind hnow hout => exact eraseTicket_shrunk d o key
  | eraseEntering o key p now hfind hnow hout => exact eraseEntering_shrunk d o key
  | _ => exact ⟨fun _ _ _ h => h, fun _ _ _ h => h⟩

theorem Shrunk.trans {a b c : Daemon} (hab : Shrunk a b) (hbc : Shrunk b c) : Shrunk a c where
  tickets := fun o key p hp => hab.tickets o key p (hbc.tickets o key p hp)
  entering := fun o key p hp => hab.entering o key p (hbc.entering o key p hp)

theorem Sweeps.shrunk (h : Sweeps readings d d') : Shrunk d d' :=
  h.invariant (Shrunk d) (.refl d) (fun _ _ ha hab => ha.trans hab.shrunk)

/-- A new entry of the tickets, or one that was there before. -/
theorem putTicket_find {o key o' key' : QString} {p q : Ptr}
    (h : ((d.putTicket o key p).fTickets.group o').find? key' = some q) :
    o' = o ∧ key' = key ∧ q = p ∨ (d.fTickets.group o').find? key' = some q := by
  rw [Daemon.putTicket, GroupedMap.group_assign] at h
  split_ifs at h with ho
  · rw [OrderedMap.find?_insert] at h
    split_ifs at h with hk
    · cases h
      exact Or.inl ⟨ho, hk, rfl⟩
    · exact Or.inr (by rwa [ho])
  · exact Or.inr h

theorem putEntering_find {o key o' key' : QString} {p q : Ptr}
    (h : ((d.putEntering o key p).fEnteringTickets.group o').find? key' = some q) :
    o' = o ∧ key' = key ∧ q = p ∨ (d.fEnteringTickets.group o').find? key' = some q := by
  rw [Daemon.putEntering, GroupedMap.group_assign] at h
  split_ifs at h with ho
  · rw [OrderedMap.find?_insert] at h
    split_ifs at h with hk
    · cases h
      exact Or.inl ⟨ho, hk, rfl⟩
    · exact Or.inr (by rwa [ho])
  · exact Or.inr h

def KeyOf (key enteringKey : QString) : Prop :=
  ∃ number serverName pidText rest, splitSlash key = number :: serverName :: pidText :: rest ∧
    enteringKey = joinSlash serverName pidText

structure Filed (d : Daemon) : Prop where
  ticket_lt : ∀ o key p, (d.fTickets.group o).find? key = some p → p < d.next
  ticket_object : ∀ o key p, (d.fTickets.group o).find? key = some p →
    (d.heap p).fObjectName = o
  ticket_key : ∀ o key p, (d.fTickets.group o).find? key = some p →
    KeyOf key (d.heap p).fEnteringKey
  entering_lt : ∀ o key p, (d.fEnteringTickets.group o).find? key = some p → p < d.next
  entering_object : ∀ o key p, (d.fEnteringTickets.group o).find? key = some p →
    (d.heap p).fObjectName = o
  entering_key : ∀ o key p, (d.fEnteringTickets.group o).find? key = some p →
    (d.heap p).fEnteringKey = key

section Filed

variable {d d' : Daemon} {m : Message} {readings : List ℤ}

theorem Filed.shrink (hd : Filed d) (hstable : Stable d d') (hmaps : Shrunk d d') :
    Filed d' where
  ticket_lt := fun o key p h =>
    (hd.ticket_lt o key p (hmaps.tickets o key p h)).trans_le hstable.next_le
  ticket_object := by
    intro o key p h
    have hold := hmaps.tickets o key p h
    rw [(hstable.ticket p (hd.ticket_lt o key p hold)).objectName]
    exact hd.ticket_object o key p hold
  ticket_key := by
    intro o key p h
    have hold := hmaps.tickets o key p h
    rw [(hstable.ticket p (hd.ticket_lt o key p hold)).enteringKey]
    exact hd.ticket_key o key p hold
  entering_lt := fun o key p h =>
    (hd.entering_lt o key p (hmaps.entering o key p h)).trans_le hstable.next_le
  entering_object := by
    intro o key p h
    have hold := hmaps.entering o key p h
    rw [(hstable.ticket p (hd.entering_lt o key p hold)).objectName]
    exact hd.entering_object o key p hold
  entering_key := by
    intro o key p h
    have hold := hmaps.entering o key p h
    rw [(hstable.ticket p (hd.entering_lt o key p hold)).enteringKey]
    exact hd.entering_key o key p hold

theorem Filed.putTicket (hd : Filed d) {o key : QString} {p : Ptr} (hp : p < d.next)
    (hobject : (d.heap p).fObjectName = o) (hkey : KeyOf key (d.heap p).fEnteringKey) :
    Filed (d.putTicket o key p) where
  ticket_lt := by
    intro o' key' q h
    obtain ⟨rfl, rfl, rfl⟩ | hold := putTicket_find h
    · exact hp
    · exact hd.ticket_lt o' key' q hold
  ticket_object := by
    intro o' key' q h
    obtain ⟨rfl, rfl, rfl⟩ | hold := putTicket_find h
    · exact hobject
    · exact hd.ticket_object o' key' q hold
  ticket_key := by
    intro o' key' q h
    obtain ⟨rfl, rfl, rfl⟩ | hold := putTicket_find h
    · exact hkey
    · exact hd.ticket_key o' key' q hold
  entering_lt := hd.entering_lt
  entering_object := hd.entering_object
  entering_key := hd.entering_key

theorem Filed.putEntering (hd : Filed d) {o key : QString} {p : Ptr} (hp : p < d.next)
    (hobject : (d.heap p).fObjectName = o) (hkey : (d.heap p).fEnteringKey = key) :
    Filed (d.putEntering o key p) where
  ticket_lt := hd.ticket_lt
  ticket_object := hd.ticket_object
  ticket_key := hd.ticket_key
  entering_lt := by
    intro o' key' q h
    obtain ⟨rfl, rfl, rfl⟩ | hold := putEntering_find h
    · exact hp
    · exact hd.entering_lt o' key' q hold
  entering_object := by
    intro o' key' q h
    obtain ⟨rfl, rfl, rfl⟩ | hold := putEntering_find h
    · exact hobject
    · exact hd.entering_object o' key' q hold
  entering_key := by
    intro o' key' q h
    obtain ⟨rfl, rfl, rfl⟩ | hold := putEntering_find h
    · exact hkey
    · exact hd.entering_key o' key' q hold

@[simp] theorem allocate_heap_next (d : Daemon) (t : Ticket) : (d.allocate t).heap d.next = t := by
  simp [Daemon.allocate]

theorem Filed.create (hd : Filed d) (o key : QString) (deadline duration : ℤ)
    (server service : QString) : Filed ((d.allocate (Ticket.create o key deadline duration server
      service)).putEntering o key d.next) := by
  have halloc := hd.shrink (stable_allocate d (Ticket.create o key deadline duration server
    service)) ⟨fun _ _ _ h => h, fun _ _ _ h => h⟩
  exact halloc.putEntering (Nat.lt_succ_self d.next) (by simp [Ticket.create])
    (by simp [Ticket.create])

theorem Effect.filed (h : Effect m readings d d') (hd : Filed d) : Filed d' := by
  have hstable := h.stable
  cases h with
  | sweep _ hsweep => exact hd.shrink hstable hsweep.shrunk
  | request o pid timeout duration deadline t hcommand ht =>
    subst ht
    have hnew := hd.create o (d.clientKey pid) deadline (int32 duration) m.sentFromServer
      m.sentFromService
    exact hnew.shrink ⟨le_rfl, (Stable.refl _).ticket⟩ ⟨fun _ _ _ h => h, fun _ _ _ h => h⟩
  | copy o key timeout duration source deadline server service hcommand hnew hdeadline =>
    exact hd.create ..
  | putTicket o key number serverName pidText rest p timeout hcommand hsplit hfind =>
    exact hd.putTicket (hd.entering_lt o _ p hfind) (hd.entering_object o _ p hfind)
      ⟨number, serverName, pidText, rest, hsplit, hd.entering_key o _ p hfind⟩
  | eraseTicket o key hcommand => exact hd.shrink hstable (eraseTicket_shrunk d o key)
  | eraseEntering o key => exact hd.shrink hstable (eraseEntering_shrunk d o key)
  | _ => exact hd.shrink hstable ⟨fun _ _ _ h => h, fun _ _ _ h => h⟩

theorem processMessage_filed (h : d.processMessage m = .ok d') (hd : Filed d) : Filed d' :=
  (processMessage_effects h).invariant Filed hd (fun _ _ ha hab => hab.filed ha)

theorem Filed.withClock (hd : Filed d) (c : Clock) : Filed (d.withClock c) :=
  hd.shrink ⟨le_rfl, (Stable.refl d).ticket⟩ ⟨fun _ _ _ h => h, fun _ _ _ h => h⟩

theorem Filed.awake {w : LockNetwork.World} {server : QString} (hd : Filed (w.daemon server))
    (c : Clock) : Filed (w.awake server c) :=
  hd.shrink ⟨le_rfl, (Stable.refl _).ticket⟩ ⟨fun _ _ _ h => h, fun _ _ _ h => h⟩

theorem filed_initial (debugBuild : Bool) (computers : QString → OrderedMap QString Bool)
    (s : QString) : Filed ((LockNetwork.World.initial debugBuild computers).daemon s) := by
  constructor <;> simp [LockNetwork.World.initial]

/-- A daemon that has just been started. -/
theorem filed_start (server : QString) (computers : OrderedMap QString Bool) (c : Clock) :
    Filed { fServerName := server, fComputers := computers, clock := c } :=
  ⟨by simp, by simp, by simp, by simp, by simp, by simp⟩

end Filed

end SnapCpp.LockDaemon
