import SnapCpp.LockHandlers
import SnapCpp.Runs

/-!
What a client hears about its ticket. The flags of a ticket determine which
notices it has sent, whatever calls led there: nothing at first, one
LOCKFAILED if it failed before it was activated, and one LOCKED followed by
UNLOCKED messages once it was.
-/
namespace SnapCpp.LockNotification

open QString LockTicket LockDaemon

/-- The messages a ticket sends to the service of its client. -/
inductive Notice
  | locked
  | lockFailed
  | unlocked
  deriving DecidableEq

def noticeOf : Command → Option Notice
  | .locked .. => some .locked
  | .lockFailed .. => some .lockFailed
  | .unlocked .. => some .unlocked
  | _ => none

def notices (ms : List Message) : List Notice := ms.filterMap (fun m => noticeOf m.command)

def Expected (t : Ticket) (log : List Notice) : Prop :=
  if t.fLocked then ∃ n, log = .locked :: List.replicate n .unlocked
  else log = if t.fLockFailed then [.lockFailed] else []

inductive Call
  | entered
  | maxTicket (newMaxTicket : ℤ)
  | ticketAdded (stillEntering : OrderedMap QString Ptr)
  | removeEntering (heap : Ptr → Ticket) (key : QString)
  | activateLock
  | lockFailed
  | dropTicket

def Call.apply (h : Host) (c : Clock) (t : Ticket) : Call → Except Failure (Ticket × List Message)
  | .entered => .ok (t.entered h)
  | .maxTicket n => t.maxTicket n h
  | .ticketAdded still => .ok (t.ticketAdded still h)
  | .removeEntering heap key => .ok ((t.removeEntering heap key c).1, [])
  | .activateLock => .ok ((t.activateLock h c).1, (t.activateLock h c).2.1)
  | .lockFailed => .ok (t.lockFailed h)
  | .dropTicket => .ok (t, t.dropTicket h)

section Methods

variable {h : Host} {t : Ticket} {log : List Notice}

@[simp] theorem notices_nil : notices [] = [] := rfl

@[simp] theorem notices_append (a b : List Message) : notices (a ++ b) = notices a ++ notices b :=
  List.filterMap_append

/-- A method that touches neither flag and sends nothing to the client. -/
theorem Expected.silent {r : Ticket × List Message} (ht : Expected t log)
    (hlocked : r.1.fLocked = t.fLocked) (hfailed : r.1.fLockFailed = t.fLockFailed)
    (hsent : notices r.2 = []) : Expected r.1 (log ++ notices r.2) := by
  rw [hsent, List.append_nil]
  unfold Expected at *
  rw [hlocked, hfailed]
  exact ht

theorem entered_expected (ht : Expected t log) :
    Expected (t.entered h).1 (log ++ notices (t.entered h).2) := by
  rcases t.entered_cases h with ⟨-, hr⟩ | ⟨-, -, hr⟩ | ⟨-, -, hr⟩
  all_goals
    rw [hr]
    exact ht.silent rfl rfl rfl

theorem maxTicket_expected {n : ℤ} {r : Ticket × List Message} (hr : t.maxTicket n h = .ok r)
    (ht : Expected t log) : Expected r.1 (log ++ notices r.2) := by
  rcases t.maxTicket_cases h n with ⟨-, hcase⟩ | ⟨-, -, hcase⟩ | ⟨-, -, hcase⟩
  all_goals
    rw [hr] at hcase
    cases hcase
    exact ht.silent rfl rfl rfl

theorem ticketAdded_expected (still : OrderedMap QString Ptr) (ht : Expected t log) :
    Expected (t.ticketAdded still h).1 (log ++ notices (t.ticketAdded still h).2) := by
  rcases t.ticketAdded_cases h still with ⟨-, hr⟩ | ⟨-, -, hr⟩ | ⟨-, -, hr⟩
  all_goals
    rw [hr]
    exact ht.silent rfl rfl rfl

theorem removeEntering_expected (heap : Ptr → Ticket) (key : QString) (c : Clock)
    (ht : Expected t log) : Expected (t.removeEntering heap key c).1 log := by
  rcases t.removeEntering_cases c heap key with ⟨hr, -⟩ | ⟨-, -, -, hr⟩
  · rw [hr]
    exact ht
  · rw [hr]
    exact ht

theorem activateLock_expected (c : Clock) (ht : Expected t log) :
    Expected (t.activateLock h c).1 (log ++ notices (t.activateLock h c).2.1) := by
  rcases t.activateLock_cases h c with ⟨hr, -⟩ | ⟨-, hlocked, hfailed, -, hr⟩
  · rw [hr]
    simpa using ht
  · have hlog : log = [] := by simpa [Expected, hlocked, hfailed] using ht
    rw [hr, hlog]
    exact ⟨0, rfl⟩

theorem lockFailed_expected (ht : Expected t log) :
    Expected (t.lockFailed h).1 (log ++ notices (t.lockFailed h).2) := by
  rcases t.lockFailed_cases h with hr | ⟨-, hlocked, hr⟩ | ⟨hfailed, hlocked, hr⟩
  · rw [hr]
    simpa using ht
  · obtain ⟨n, hlog⟩ : ∃ n, log = .locked :: List.replicate n .unlocked := by
      simpa [Expected, hlocked] using ht
    have hafter : ∃ k, log ++ [Notice.unlocked] = .locked :: List.replicate k .unlocked :=
      ⟨n + 1, by rw [hlog, List.replicate_succ', List.cons_append]⟩
    rw [hr]
    simpa [Expected, hlocked, notices, Ticket.toClient, noticeOf] using hafter
  · have hlog : log = [] := by simpa [Expected, hlocked, hfailed] using ht
    rw [hr, hlog]
    simp [Expected, hlocked, notices, Ticket.toClient, noticeOf]

theorem notices_dropTicket :
    notices (t.dropTicket h) = if t.servesClient h then [.unlocked] else [] := by
  unfold Ticket.dropTicket notices
  split_ifs <;> rfl

theorem dropTicket_expected (hlocked : Notice.locked ∈ log) (ht : Expected t log) :
    Expected t (log ++ notices (t.dropTicket h)) := by
  have hflag : t.fLocked = true := by
    by_contra hflag
    rw [Expected, if_neg hflag] at ht
    rw [ht] at hlocked
    split_ifs at hlocked <;> simp at hlocked
  rw [Expected, if_pos hflag] at ht ⊢
  obtain ⟨n, rfl⟩ := ht
  rw [notices_dropTicket]
  split_ifs
  · exact ⟨n + 1, by rw [List.replicate_succ', List.cons_append]⟩
  · exact ⟨n, by rw [List.append_nil]⟩

end Methods

def CallStep (s : Ticket × List Notice) (call : Host × Clock × Call) (s' : Ticket × List Notice) :
    Prop :=
  (call.2.2 = .dropTicket → Notice.locked ∈ s.2) ∧
    ∃ r, call.2.2.apply call.1 call.2.1 s.1 = .ok r ∧ s' = (r.1, s.2 ++ notices r.2)

theorem callStep_expected {s s' : Ticket × List Notice} {call : Host × Clock × Call}
    (h : CallStep s call s') (hs : Expected s.1 s.2) : Expected s'.1 s'.2 := by
  obtain ⟨hdrop, r, hr, rfl⟩ := h
  obtain ⟨host, c, call⟩ := call
  cases call with
  | entered =>
    cases hr
    exact entered_expected hs
  | maxTicket n => exact maxTicket_expected hr hs
  | ticketAdded still =>
    cases hr
    exact ticketAdded_expected still hs
  | removeEntering heap key =>
    cases hr
    simpa using removeEntering_expected heap key c hs
  | activateLock =>
    cases hr
    exact activateLock_expected c hs
  | lockFailed =>
    cases hr
    exact lockFailed_expected hs
  | dropTicket =>
    cases hr
    exact dropTicket_expected (hdrop rfl) hs

def Protocol (log : List Notice) : Prop :=
  log <+: [.lockFailed] ∨ ∃ n, log <+: .locked :: List.replicate n .unlocked

theorem Expected.protocol {t : Ticket} {log : List Notice} (h : Expected t log) :
    Protocol log := by
  unfold Expected at h
  split_ifs at h with hlocked hfailed
  · obtain ⟨n, rfl⟩ := h
    exact Or.inr ⟨n, List.prefix_refl _⟩
  · exact Or.inl (h ▸ List.prefix_refl _)
  · exact Or.inl (by simp [h])

def InOrder (a b : Notice) : Prop :=
  (b = .locked → a ≠ .lockFailed ∧ a ≠ .unlocked) ∧ (b = .lockFailed → a ≠ .locked)

theorem Protocol.once {log : List Notice} (h : Protocol log) :
    log.count .locked ≤ 1 ∧ log.count .lockFailed ≤ 1 ∧ log.Pairwise InOrder := by
  rcases h with h | ⟨n, h⟩
  · have hlocked := h.sublist.count_le .locked
    have hfailed := h.sublist.count_le .lockFailed
    exact ⟨hlocked.trans (by decide), hfailed.trans (by decide),
      (List.pairwise_singleton InOrder _).sublist h.sublist⟩
  · have hlocked := h.sublist.count_le .locked
    have hfailed := h.sublist.count_le .lockFailed
    have horder : (Notice.locked :: List.replicate n .unlocked).Pairwise InOrder := by
      refine List.pairwise_cons.mpr ⟨?_, List.pairwise_replicate.mpr (Or.inr ?_)⟩
      · intro b hb
        rw [List.eq_of_mem_replicate hb]
        exact ⟨nofun, nofun⟩
      · exact ⟨nofun, nofun⟩
    refine ⟨hlocked.trans ?_, hfailed.trans ?_, horder.sublist h.sublist⟩
    · simp [List.count_replicate]
    · simp [List.count_replicate]

theorem create_expected (o key : QString) (deadline duration : ℤ) (server service : QString) :
    Expected (Ticket.create o key deadline duration server service) [] := rfl

/-- Whatever is called on a ticket, in any order, with any clock and quorum,
its client hears LOCKFAILED alone or LOCKED followed by UNLOCKED. -/
theorem notices_of_calls (o key : QString) (deadline duration : ℤ) (server service : QString)
    (calls : List (Host × Clock × Call)) (t : Ticket) (log : List Notice)
    (h : Runs CallStep (Ticket.create o key deadline duration server service, []) calls (t, log)) :
    Protocol log ∧ log.count .locked ≤ 1 ∧ log.count .lockFailed ≤ 1 ∧
      log.Pairwise InOrder := by
  have hexpected : Expected t log :=
    h.invariant (fun s => Expected s.1 s.2) (create_expected ..)
      (fun _ _ _ hs hstep => callStep_expected hstep hs)
  exact ⟨hexpected.protocol, hexpected.protocol.once⟩

theorem CallStep.of_apply {s : Ticket × List Notice} (call : Host × Clock × Call)
    {r : Ticket × List Message} (hdrop : call.2.2 = .dropTicket → Notice.locked ∈ s.2)
    (hr : call.2.2.apply call.1 call.2.1 s.1 = .ok r) :
    CallStep s call (r.1, s.2 ++ notices r.2) := ⟨hdrop, r, hr, rfl⟩

/-- The only daemon serves a client up to its UNLOCK. -/
theorem notices_of_calls_unlock :
    Protocol [.locked, .unlocked] ∧ [Notice.locked, .unlocked].count .locked ≤ 1 ∧
      [Notice.locked, .unlocked].count .lockFailed ≤ 1 ∧
      [Notice.locked, .unlocked].Pairwise InOrder := by
  let host : Host := ⟨[97], 1⟩
  let c : Clock := ⟨0, []⟩
  let key : QString := [97, 47, 49]
  have hrun : Runs CallStep _ _ _ := Runs.nil (Ticket.create [111] key 5 3 [97] [99], [])
  have hrun := hrun.snoc (CallStep.of_apply (host, c, .entered) nofun rfl)
  have hrun := hrun.snoc (CallStep.of_apply (host, c, .maxTicket 0) nofun rfl)
  have hrun := hrun.snoc (CallStep.of_apply
    (host, c, .ticketAdded (OrderedMap.empty.insert key 0)) nofun rfl)
  have hrun := hrun.snoc (CallStep.of_apply
    (host, c, .removeEntering (fun _ => default) key) nofun rfl)
  have hrun := hrun.snoc (CallStep.of_apply (host, c, .activateLock) nofun rfl)
  have hrun := hrun.snoc (CallStep.of_apply (host, c, .dropTicket) (fun _ => by decide) rfl)
  exact notices_of_calls _ _ _ _ _ _ _ _ _ hrun

def noticesOf (p : Ptr) (d : Daemon) : List Notice :=
  d.outbox.filterMap (fun x => if x.ticket = some p then noticeOf x.message.command else none)

/-- Every ticket has sent what its flags say, addresses not in use nothing. -/
structure Notified (d : Daemon) : Prop where
  expected : ∀ p, p < d.next → Expected (d.heap p) (noticesOf p d)
  fresh : ∀ p, d.next ≤ p → noticesOf p d = []

section Daemon

variable {d d' : Daemon} {m : Message} {readings : List ℤ}

theorem noticesOf_post (p q : Ptr) (ms : List Message) (d : Daemon) :
    noticesOf p (d.post (some q) ms) =
      noticesOf p d ++ if q = p then notices ms else [] := by
  unfold noticesOf Daemon.post
  rw [List.filterMap_append, List.filterMap_map]
  split_ifs with hq
  · simp [hq, notices]
  · simp [hq]

theorem noticesOf_post_none (p : Ptr) (ms : List Message) (d : Daemon) :
    noticesOf p (d.post none ms) = noticesOf p d := by
  simp [noticesOf, Daemon.post, List.filterMap_append, List.filterMap_map]

theorem Notified.post_none (hd : Notified d) (ms : List Message) :
    Notified (d.post none ms) where
  expected := by
    intro p hp
    rw [noticesOf_post_none]
    exact hd.expected p hp
  fresh := by
    intro p hp
    rw [noticesOf_post_none]
    exact hd.fresh p hp

/-- It is enough to look at the ticket a method was called on. -/
theorem Notified.store (hd : Notified d) {p : Ptr} {r : Ticket × List Message}
    (hp : p < d.next) (hr : Expected r.1 (noticesOf p d ++ notices r.2)) :
    Notified (d.store p r) where
  expected := by
    intro q hq
    have hlog : noticesOf q (d.store p r) = noticesOf q d ++ if p = q then notices r.2 else [] :=
      noticesOf_post q p r.2 (d.setTicket p r.1)
    rw [hlog]
    by_cases hqp : p = q
    · subst hqp
      simpa [Daemon.store, Daemon.setTicket, Daemon.post] using hr
    · simpa [Daemon.store, Daemon.setTicket, Daemon.post, hqp, Ne.symm hqp] using hd.expected q hq
  fresh := by
    intro q hq
    have hlog : noticesOf q (d.store p r) = noticesOf q d ++ if p = q then notices r.2 else [] :=
      noticesOf_post q p r.2 (d.setTicket p r.1)
    have hqp : p ≠ q := by
      rintro rfl
      exact absurd hp (not_lt.mpr hq)
    rw [hlog, if_neg hqp, List.append_nil]
    exact hd.fresh q hq

theorem Notified.create (hd : Notified d) (o key : QString) (deadline duration : ℤ)
    (server service : QString) :
    Notified ((d.allocate (Ticket.create o key deadline duration server service)).putEntering
      o key d.next) where
  expected := by
    intro p hp
    by_cases hpn : p = d.next
    · subst hpn
      have hlog : noticesOf d.next d = [] := hd.fresh d.next le_rfl
      have hheap : ((d.allocate (Ticket.create o key deadline duration server service)).putEntering
          o key d.next).heap d.next = Ticket.create o key deadline duration server service := by
        simp [Daemon.putEntering, Daemon.allocate]
      rw [hheap]
      exact (congrArg (Expected _) hlog).mpr (create_expected ..)
    · have hlt : p < d.next := lt_of_le_of_ne (Nat.le_of_lt_succ hp) hpn
      have hheap : ((d.allocate (Ticket.create o key deadline duration server service)).putEntering
          o key d.next).heap p = d.heap p := by
        simp [Daemon.putEntering, Daemon.allocate, hpn]
      rw [hheap]
      exact hd.expected p hlt
  fresh := fun p hp => hd.fresh p (Nat.le_of_succ_le hp)

theorem sweep_notified (h : Sweep readings d d') (hf : Filed d) (hd : Notified d) :
    Notified d' := by
  cases h with
  | tick => exact ⟨hd.expected, hd.fresh⟩
  | fail o key p hfind =>
    have hp := hf.ticket_lt o key p hfind
    exact hd.store hp (lockFailed_expected (hd.expected p hp))
  | activate o key p hfind =>
    have hp := hf.ticket_lt o key p hfind
    have hcall := activateLock_expected (h := d.host) d.clock (hd.expected p hp)
    have hstore := hd.store (r := (_, _)) hp hcall
    exact ⟨hstore.expected, hstore.fresh⟩
  | eraseTicket o key p now hfind hnow hout | eraseEntering o key p now hfind hnow hout =>
    exact ⟨hd.expected, hd.fresh⟩

theorem effect_notified (h : Effect m readings d d') (hm : ∀ o pid, m.command ≠ .unlock o pid)
    (hf : Filed d) (hd : Notified d) : Notified d' := by
  cases h with
  | sweep _ hsweep => exact sweep_notified hsweep hf hd
  | reply c hc => exact hd.post_none _
  | ready => exact hd.post_none _
  | computers known => exact ⟨hd.expected, hd.fresh⟩
  | request o pid timeout duration deadline t hcommand ht =>
    subst ht
    have hnew := hd.create o (d.clientKey pid) deadline (int32 duration) m.sentFromServer
      m.sentFromService
    have hp : d.next < ((d.allocate (Ticket.create o (d.clientKey pid) deadline (int32 duration)
        m.sentFromServer m.sentFromService)).putEntering o (d.clientKey pid) d.next).next :=
      Nat.lt_succ_self d.next
    refine (congrArg Notified (store_self _ _ _)).mp (hnew.store hp ?_)
    exact Expected.silent (hnew.expected d.next hp) rfl rfl rfl
  | copy o key timeout duration source deadline server service hcommand hnew hdeadline =>
    exact hd.create ..
  | drop o pid key p hcommand hfind hkey => exact absurd hcommand (hm o pid)
  | entered o key p hcommand hfind =>
    have hp := hf.entering_lt o key p hfind
    exact hd.store hp (entered_expected (hd.expected p hp))
  | maxTicket o key p n r hcommand hfind hr =>
    have hp := hf.entering_lt o key p hfind
    exact hd.store hp (maxTicket_expected hr (hd.expected p hp))
  | ticketAdded o key p hcommand hfind =>
    have hp := hf.ticket_lt o key p hfind
    exact hd.store hp (ticketAdded_expected _ (hd.expected p hp))
  | removeEntering o key p k hfind =>
    have hp := hf.ticket_lt o key p hfind
    have hcall := removeEntering_expected d.heap k d.clock (hd.expected p hp)
    have hstore := hd.store (r := (((d.heap p).removeEntering d.heap k d.clock).1, [])) hp
      (by simpa using hcall)
    have hpost : ∀ x : Daemon, x.post (some p) [] = x := fun x => by simp [Daemon.post]
    rw [Daemon.store, hpost] at hstore
    exact ⟨hstore.expected, hstore.fresh⟩
  | putTicket o key number serverName pidText rest p timeout hcommand hsplit hfind =>
    exact ⟨hd.expected, hd.fresh⟩
  | eraseTicket o key hcommand => exact ⟨hd.expected, hd.fresh⟩
  | eraseEntering o key => exact ⟨hd.expected, hd.fresh⟩

end Daemon

def unlockTarget (d : Daemon) : Command → Option Ptr
  | .unlock o pid => ((d.fTickets.group o).entries.find?
      (fun e => (d.heap e.2).fEnteringKey = d.clientKey pid)).map Prod.snd
  | _ => none

/-- A daemon processes a message at some time, without losing track of what it
sent before. UNLOCK arrives after LOCKED was sent. -/
def MessageStep (d : Daemon) (label : Clock × Message) (d' : Daemon) : Prop :=
  (∀ p, unlockTarget d label.2.command = some p → Notice.locked ∈ noticesOf p d) ∧
    (d.withClock label.1).processMessage label.2 = .ok d'

theorem messageStep_notified {d d' : Daemon} {label : Clock × Message}
    (h : MessageStep d label d') (hf : Filed d) (hd : Notified d) : Notified d' := by
  obtain ⟨c, m⟩ := label
  obtain ⟨hunlock, hprocess⟩ := h
  have hclock : Notified (d.withClock c) := ⟨hd.expected, hd.fresh⟩
  by_cases hm : ∃ o pid, m.command = .unlock o pid
  · obtain ⟨o, pid, hm⟩ := hm
    simp only [Daemon.processMessage, hm] at hprocess
    obtain ⟨-, rfl | ⟨key, p, hfind, htarget, -, rfl⟩⟩ := unlock_cases hprocess
    · exact hclock
    · have hp := hf.ticket_lt o key p hfind
      have hlocked : Notice.locked ∈ noticesOf p d := by
        refine hunlock p ?_
        simp only [unlockTarget, hm]
        exact congrArg (Option.map Prod.snd) htarget
      rw [← store_self]
      exact hclock.store hp (dropTicket_expected hlocked (hd.expected p hp))
  · have hother : ∀ o pid, m.command ≠ .unlock o pid := fun o pid hc => hm ⟨o, pid, hc⟩
    have hboth := (processMessage_effects hprocess).invariant (fun x => Filed x ∧ Notified x)
      ⟨hf.withClock c, hclock⟩
      (fun _ _ ha hab => ⟨hab.filed ha.1, effect_notified hab hother ha.1 ha.2⟩)
    exact hboth.2

/-- The tickets of a running daemon follow the protocol towards their clients,
whatever messages arrive at whatever times. -/
theorem notices_of_messages (d : Daemon) (labels : List (Clock × Message)) (server : QString)
    (computers : OrderedMap QString Bool) (c : Clock)
    (h : Runs MessageStep { fServerName := server, fComputers := computers, clock := c } labels d)
    (p : Ptr) : Protocol (noticesOf p d) := by
  have hinit : Notified { fServerName := server, fComputers := computers, clock := c } :=
    ⟨by simp, fun _ _ => rfl⟩
  obtain ⟨-, hd⟩ := h.invariant (fun x => Filed x ∧ Notified x)
    ⟨filed_start server computers c, hinit⟩
    (fun a label b ha hstep => ⟨processMessage_filed hstep.2 (ha.1.withClock label.1),
      messageStep_notified hstep ha.1 ha.2⟩)
  by_cases hp : p < d.next
  · exact (hd.expected p hp).protocol
  · rw [hd.fresh p (not_lt.mp hp)]
    exact Or.inl (List.nil_prefix)

end SnapCpp.LockNotification
