import SnapCpp.LockNumber

/-!
Who speaks for a request. Only the daemon a client asked broadcasts about the
request, and only that daemon gets the answers: the entering key names it.
Copies on other daemons never count a reply, so they never become ready. Every
packet in flight is what a ticket of its sender says, or the answer to a
ticket of its receiver.
-/
namespace SnapCpp.LockOrigin

open QString LockTicket LockDaemon LockNetwork LockNumber

def OwnKey (server key : QString) : Prop := ∃ n : ℕ, key = joinSlash server (decimal n)

theorem ownKey_clientKey (d : Daemon) (pid : ℤ) : OwnKey d.fServerName (d.clientKey pid) :=
  ⟨_, rfl⟩

theorem keyOf_ticketKeyOf {server k k' : QString} {n : UInt32} (hs : slash ∉ server)
    (hown : OwnKey server k) (h : KeyOf (Ticket.ticketKeyOf n k) k') : k' = k := by
  obtain ⟨i, rfl⟩ := hown
  obtain ⟨number, serverName, pidText, rest, hsplit, rfl⟩ := h
  rw [Ticket.ticketKeyOf, splitSlash_three _ _ _ (slash_notMem_hex8 n) hs
    (slash_notMem_decimal i)] at hsplit
  cases hsplit
  rfl

structure Untouched (t : Ticket) : Prop where
  entered : t.fEnteredCount = 0
  getMax : t.fGetMaxTicket = false
  maxCount : t.fMaxTicketCount = 0
  number : t.fOurTicket = 0
  added : t.fAddedTicket = false
  addedCount : t.fTicketAddedCount = 0
  quorum : t.fAddedTicketQuorum = false
  ready : t.fTicketReady = false
  locked : t.fLocked = false

theorem untouched_create (o key : QString) (deadline duration : ℤ) (server service : QString) :
    Untouched (Ticket.create o key deadline duration server service) :=
  ⟨rfl, rfl, rfl, rfl, rfl, rfl, rfl, rfl, rfl⟩

structure Advances (t t' : Ticket) : Prop where
  same : t.SameRequest t'
  getMax : t.fGetMaxTicket = true → t'.fGetMaxTicket = true
  added : t.fAddedTicket = true →
    t'.fAddedTicket = true ∧ t'.fTicketKey = t.fTicketKey ∧ t'.fOurTicket = t.fOurTicket
  quorum : t.fAddedTicketQuorum = true → t'.fAddedTicketQuorum = true
  ready : t.fTicketReady = true → t'.fTicketReady = true
  locked : t.fLocked = true → t'.fLocked = true ∧ t'.fLockTimeout = t.fLockTimeout

theorem Advances.refl (t : Ticket) : Advances t t :=
  ⟨.refl t, id, fun h => ⟨h, rfl, rfl⟩, id, id, fun h => ⟨h, rfl⟩⟩

theorem Advances.trans (a b c : Ticket) (hab : Advances a b) (hbc : Advances b c) :
    Advances a c where
  same := hab.same.trans hbc.same
  getMax := fun h => hbc.getMax (hab.getMax h)
  added := by
    intro h
    obtain ⟨hb, hkey, hnumber⟩ := hab.added h
    obtain ⟨hc, hkey', hnumber'⟩ := hbc.added hb
    exact ⟨hc, hkey'.trans hkey, hnumber'.trans hnumber⟩
  quorum := fun h => hbc.quorum (hab.quorum h)
  ready := fun h => hbc.ready (hab.ready h)
  locked := by
    intro h
    obtain ⟨hb, ht⟩ := hab.locked h
    obtain ⟨hc, ht'⟩ := hbc.locked hb
    exact ⟨hc, ht'.trans ht⟩

theorem advances_of_moves (t t' : Ticket) (h : t.Moves t') : Advances t t' := by
  have hsame := h.sameRequest
  cases h with
  | asked hget => exact ⟨hsame, fun _ => rfl, fun h => ⟨h, rfl, rfl⟩, id, id, fun h => ⟨h, rfl⟩⟩
  | raised n hadded | numbered n hadded =>
    refine ⟨hsame, id, fun h => ?_, id, id, fun h => ⟨h, rfl⟩⟩
    rw [hadded] at h
    cases h
  | exiting still hquorum =>
    exact ⟨hsame, id, fun h => ⟨h, rfl, rfl⟩, fun _ => rfl, id, fun h => ⟨h, rfl⟩⟩
  | cleared still hquorum hready =>
    refine ⟨hsame, id, fun h => ⟨h, rfl, rfl⟩, id, fun h => ?_, fun h => ⟨h, rfl⟩⟩
    rw [hready] at h
    cases h
  | locked timeout hready hlocked =>
    refine ⟨hsame, id, fun h => ⟨h, rfl, rfl⟩, id, id, fun h => ?_⟩
    rw [hlocked] at h
    cases h
  | _ => exact ⟨hsame, id, fun h => ⟨h, rfl, rfl⟩, id, id, fun h => ⟨h, rfl⟩⟩

inductive Says (t : Ticket) : Command → Prop
  | entering : Says t (.lockEntering t.fObjectName t.fEnteringKey (some t.fObtentionTimeout)
      t.fLockDuration (joinSlash t.fServerName t.fServiceName))
  | getMax (h : t.fGetMaxTicket = true) : Says t (.getMaxTicket t.fObjectName t.fEnteringKey)
  | add (h : t.fAddedTicket = true) :
      Says t (.addTicket t.fObjectName t.fTicketKey (some t.fObtentionTimeout))
  | exit (h : t.fAddedTicketQuorum = true) : Says t (.lockExiting t.fObjectName t.fEnteringKey)
  | drop (key : QString)
      (h : key = t.fEnteringKey ∨ t.fAddedTicket = true ∧ key = t.fTicketKey) :
      Says t (.dropTicket t.fObjectName key)

inductive Hears (t : Ticket) : Command → Prop
  | entered : Hears t (.lockEntered t.fObjectName t.fEnteringKey)
  | max (n : UInt32) (h : t.fGetMaxTicket = true) :
      Hears t (.maxTicket t.fObjectName t.fEnteringKey n.toNat)
  | added (h : t.fAddedTicket = true) : Hears t (.ticketAdded t.fObjectName t.fTicketKey)

variable {c c' : Command} {t : Ticket}

theorem Says.advance {t' : Ticket} (h : Says t c) (ht : Advances t t') :
    Says t' c := by
  cases h with
  | entering =>
    rw [← ht.same.objectName, ← ht.same.enteringKey, ← ht.same.obtentionTimeout,
      ← ht.same.lockDuration, ← ht.same.serverName, ← ht.same.serviceName]
    exact .entering
  | getMax h =>
    rw [← ht.same.objectName, ← ht.same.enteringKey]
    exact .getMax (ht.getMax h)
  | add h =>
    obtain ⟨hadded, hkey, -⟩ := ht.added h
    rw [← ht.same.objectName, ← hkey, ← ht.same.obtentionTimeout]
    exact .add hadded
  | exit h =>
    rw [← ht.same.objectName, ← ht.same.enteringKey]
    exact .exit (ht.quorum h)
  | drop key h =>
    rw [← ht.same.objectName]
    refine .drop key ?_
    rcases h with h | ⟨hadded, hkey⟩
    · exact Or.inl (h.trans ht.same.enteringKey.symm)
    · obtain ⟨hadded', hkey', -⟩ := ht.added hadded
      exact Or.inr ⟨hadded', hkey.trans hkey'.symm⟩

theorem Hears.advance {t' : Ticket} (h : Hears t c) (ht : Advances t t') :
    Hears t' c := by
  cases h with
  | entered =>
    rw [← ht.same.objectName, ← ht.same.enteringKey]
    exact .entered
  | max n h =>
    rw [← ht.same.objectName, ← ht.same.enteringKey]
    exact .max n (ht.getMax h)
  | added h =>
    obtain ⟨hadded, hkey, -⟩ := ht.added h
    rw [← ht.same.objectName, ← hkey]
    exact .added hadded

theorem Says.reply (h : Says t c) (hc : ReplyOf c c') :
    Hears t c' := by
  cases h with
  | entering =>
    cases hc
    exact .entered
  | getMax h =>
    cases hc
    exact .max _ h
  | add h =>
    cases hc
    exact .added h
  | exit h => cases hc
  | drop key h => cases hc

theorem Hears.no_reply (h : Hears t c) : ¬ ReplyOf c c' := by
  intro hc
  cases h <;> cases hc

/-- The messages a daemon tells clients; other daemons ignore them. -/
inductive IsNotice : Command → Prop
  | locked (o : QString) (date : ℤ) (quorum : ℕ) : IsNotice (.locked o date quorum)
  | lockFailed (o error : QString) : IsNotice (.lockFailed o error)
  | unlocked (o : QString) (error : Option QString) : IsNotice (.unlocked o error)

theorem IsNotice.no_reply (h : IsNotice c) : ¬ ReplyOf c c' := by
  intro hc
  cases h <;> cases hc

inductive SentOk (server : QString) (m : Message) (d : Daemon) : Sent → Prop
  | said (p : Ptr) (c : Command) (hp : p < d.next) (hown : OwnKey server (d.heap p).fEnteringKey)
      (hc : Says (d.heap p) c) : SentOk server m d ⟨some p, broadcast c⟩
  | notice (p : Ptr) (x : Message) (hc : IsNotice x.command) : SentOk server m d ⟨some p, x⟩
  | reply (c : Command) (hc : ReplyOf m.command c) : SentOk server m d ⟨none, replyTo m c⟩
  | ready : SentOk server m d ⟨none, broadcast (.lockReady server)⟩

def ForOwn (server : QString) (c : Command) : Prop :=
  match c with
  | .lockEntered _ key | .maxTicket _ key _ => OwnKey server key
  | .ticketAdded _ key => ∀ k, KeyOf key k → OwnKey server k
  | _ => True

structure LocalOk (server : QString) (m : Message) (d : Daemon) : Prop where
  name : d.fServerName = server
  filed : Filed d
  keyed : ∀ p, WellKeyed (d.heap p)
  home : ∀ p, p < d.next → OwnKey server (d.heap p).fEnteringKey ∨ Untouched (d.heap p)
  sent : ∀ x ∈ d.outbox, SentOk server m d x

section Local

variable {server : QString} {d d' : Daemon} {m : Message} {readings : List ℤ} {x : Sent}
  {t : Ticket}

theorem SentOk.mono (h : SentOk server m d x) (hnext : d.next ≤ d'.next)
    (hheap : ∀ p, p < d.next → Advances (d.heap p) (d'.heap p)) : SentOk server m d' x := by
  cases h with
  | said p c hp hown hc =>
    have hadv := hheap p hp
    refine .said p c (hp.trans_le hnext) ?_ (hc.advance hadv)
    rw [hadv.same.enteringKey]
    exact hown
  | notice p x hc => exact .notice p x hc
  | reply c hc => exact .reply c hc
  | ready => exact .ready

theorem sweep_fServerName (h : Sweep readings d d') : d'.fServerName = d.fServerName := by
  cases h <;> rfl

theorem effect_fServerName (h : Effect m readings d d') : d'.fServerName = d.fServerName := by
  cases h with
  | sweep _ hsweep => exact sweep_fServerName hsweep
  | _ => rfl

theorem mem_outbox_post {ticket : Option Ptr} {ms : List Message}
    (h : x ∈ (d.post ticket ms).outbox) : x ∈ d.outbox ∨ ∃ c ∈ ms, x = ⟨ticket, c⟩ := by
  rcases List.mem_append.mp h with h | h
  · exact Or.inl h
  · obtain ⟨c, hc, rfl⟩ := List.mem_map.mp h
    exact Or.inr ⟨c, hc, rfl⟩

theorem mem_outbox_store {p : Ptr} {r : Ticket × List Message} (h : x ∈ (d.store p r).outbox) :
    x ∈ d.outbox ∨ ∃ c ∈ r.2, x = ⟨some p, c⟩ :=
  mem_outbox_post (d := d.setTicket p r.1) h

theorem store_heap_self (d : Daemon) (p : Ptr) (r : Ticket × List Message) :
    (d.store p r).heap p = r.1 := by
  rw [store_heap, if_pos rfl]

/-- All that sweeping sends is for clients. -/
theorem sweep_notice (h : Sweep readings d d') (hx : x ∈ d'.outbox) :
    x ∈ d.outbox ∨ ∃ p y, x = ⟨some p, y⟩ ∧ IsNotice y.command := by
  cases h with
  | fail o key p hfind =>
    rcases mem_outbox_store hx with hx | ⟨c, hc, rfl⟩
    · exact Or.inl hx
    · rcases (d.heap p).lockFailed_cases d.host with hr | ⟨-, -, hr⟩ | ⟨-, -, hr⟩
      · rw [hr] at hc
        cases hc
      · rw [hr] at hc
        cases List.mem_singleton.mp hc
        exact Or.inr ⟨p, _, rfl, .unlocked ..⟩
      · rw [hr] at hc
        cases List.mem_singleton.mp hc
        exact Or.inr ⟨p, _, rfl, .lockFailed ..⟩
  | activate o key p hfind =>
    rcases mem_outbox_store (r := (_, _)) hx with hx | ⟨c, hc, rfl⟩
    · exact Or.inl hx
    · rcases (d.heap p).activateLock_cases d.host d.clock with ⟨hr, -⟩ | ⟨-, -, -, -, hr⟩
      · simp only [hr] at hc
        cases hc
      · simp only [hr] at hc
        cases List.mem_singleton.mp hc
        exact Or.inr ⟨p, _, rfl, .locked ..⟩
  | _ => exact Or.inl hx

theorem sweeps_notice (h : Sweeps readings d d') (hx : x ∈ d'.outbox) :
    x ∈ d.outbox ∨ ∃ p y, x = ⟨some p, y⟩ ∧ IsNotice y.command := by
  refine h.invariant (fun e => x ∈ e.outbox → x ∈ d.outbox ∨ ∃ p y, x = ⟨some p, y⟩ ∧
    IsNotice y.command) Or.inl ?_ hx
  intro a b ha hab hxb
  rcases sweep_notice hab hxb with hxa | hnotice
  · exact ha hxa
  · exact Or.inr hnotice

theorem sweep_sent (h : Sweep readings d d') (hx : x ∈ d'.outbox) :
    x ∈ d.outbox ∨ SentOk server m d' x := by
  rcases sweep_notice h hx with hx | ⟨p, y, rfl, hy⟩
  · exact Or.inl hx
  · exact Or.inr (.notice p y hy)

/-- The tickets that replies are counted on, and that an UNLOCK drops, belong to
clients of this daemon. -/
theorem effect_sent (h : Effect m readings d d') (hd : LocalOk server m d)
    (hm : ForOwn server m.command) (hx : x ∈ d'.outbox) :
    x ∈ d.outbox ∨ SentOk server m d' x := by
  cases h with
  | sweep _ hsweep => exact sweep_sent hsweep hx
  | reply c hc =>
    rcases mem_outbox_post hx with hx | ⟨c', hc', rfl⟩
    · exact Or.inl hx
    · cases List.mem_singleton.mp hc'
      exact Or.inr (.reply c hc)
  | ready =>
    rcases mem_outbox_post hx with hx | ⟨c', hc', rfl⟩
    · exact Or.inl hx
    · cases List.mem_singleton.mp hc'
      rw [hd.name]
      exact Or.inr .ready
  | request o pid timeout duration deadline t hcommand ht =>
    subst ht
    rcases mem_outbox_post hx with hx | ⟨c', hc', rfl⟩
    · exact Or.inl hx
    · cases List.mem_singleton.mp hc'
      refine Or.inr (.said d.next _ (Nat.lt_succ_self d.next) ?_ ?_)
      · have hown := ownKey_clientKey d pid
        rw [hd.name] at hown
        simpa [Daemon.post, Daemon.putEntering, Daemon.allocate, Ticket.create] using hown
      · have hheap : ∀ t : Ticket, (((d.allocate t).putEntering o (d.clientKey pid) d.next).post
            (some d.next) t.entering).heap d.next = t := by
          intro t
          simp [Daemon.post, Daemon.putEntering, Daemon.allocate]
        rw [hheap]
        exact .entering
  | drop o pid key p hcommand hfind hkey =>
    rcases mem_outbox_post hx with hx | ⟨c', hc', rfl⟩
    · exact Or.inl hx
    · rcases List.mem_cons.mp hc' with rfl | hc'
      · refine Or.inr (.said p _ (hd.filed.ticket_lt o key p hfind) ?_ ?_)
        · have hown := ownKey_clientKey d pid
          rw [hd.name, ← hkey] at hown
          exact hown
        · refine .drop _ ?_
          split_ifs with hempty
          · exact Or.inl rfl
          · refine Or.inr ⟨?_, rfl⟩
            by_contra hadded
            have hnil := (hd.keyed p).fresh (Bool.eq_false_of_not_eq_true hadded)
            exact hempty (by rw [hnil]; rfl)
      · split_ifs at hc' with hserves
        · cases List.mem_singleton.mp hc'
          exact Or.inr (.notice p _ (.unlocked ..))
        · cases hc'
  | entered o key p hcommand hfind =>
    rcases mem_outbox_store hx with hx | ⟨c', hc', rfl⟩
    · exact Or.inl hx
    · rcases (d.heap p).entered_cases d.host with ⟨-, hr⟩ | ⟨-, -, hr⟩ | ⟨-, -, hr⟩
      · rw [hr] at hc'
        cases hc'
      · rw [hr] at hc'
        cases hc'
      · rw [hr] at hc' ⊢
        cases List.mem_singleton.mp hc'
        refine Or.inr (.said p _ (hd.filed.entering_lt o key p hfind) ?_ ?_)
        · rw [store_heap_self]
          simp only [ForOwn, hcommand] at hm
          exact (hd.filed.entering_key o key p hfind).symm ▸ hm
        · rw [store_heap_self]
          exact .getMax rfl
  | maxTicket o key p n r hcommand hfind hr =>
    rcases mem_outbox_store hx with hx | ⟨c', hc', rfl⟩
    · exact Or.inl hx
    · rcases (d.heap p).maxTicket_cases d.host n with ⟨-, hcase⟩ | ⟨-, -, hcase⟩ | ⟨-, -, hcase⟩
      · rw [hr] at hcase
        cases hcase
        cases hc'
      · rw [hr] at hcase
        cases hcase
        cases hc'
      · rw [hr] at hcase
        cases hcase
        cases List.mem_singleton.mp hc'
        refine Or.inr (.said p _ (hd.filed.entering_lt o key p hfind) ?_ ?_)
        · rw [store_heap_self]
          simp only [ForOwn, hcommand] at hm
          exact (hd.filed.entering_key o key p hfind).symm ▸ hm
        · rw [store_heap_self]
          exact .add rfl
  | ticketAdded o key p hcommand hfind =>
    rcases mem_outbox_store hx with hx | ⟨c', hc', rfl⟩
    · exact Or.inl hx
    · rcases (d.heap p).ticketAdded_cases d.host (d.fEnteringTickets.group o) with
        ⟨-, hr⟩ | ⟨-, -, hr⟩ | ⟨-, -, hr⟩
      · rw [hr] at hc'
        cases hc'
      · rw [hr] at hc'
        cases hc'
      · rw [hr] at hc' ⊢
        cases List.mem_singleton.mp hc'
        refine Or.inr (.said p _ (hd.filed.ticket_lt o key p hfind) ?_ ?_)
        · rw [store_heap_self]
          simp only [ForOwn, hcommand] at hm
          exact hm _ (hd.filed.ticket_key o key p hfind)
        · rw [store_heap_self]
          exact .exit rfl
  | _ => exact Or.inl hx

theorem Untouched.failed (h : Untouched t) (host : Host) :
    Untouched (t.lockFailed host).1 := by
  rcases t.lockFailed_cases host with hr | ⟨-, -, hr⟩ | ⟨-, -, hr⟩
  · rw [hr]
    exact h
  · rw [hr]
    exact ⟨h.1, h.2, h.3, h.4, h.5, h.6, h.7, h.8, h.9⟩
  · rw [hr]
    exact ⟨h.1, h.2, h.3, h.4, h.5, h.6, h.7, h.8, h.9⟩

theorem Untouched.activate (h : Untouched t) (host : Host) (c : Clock) :
    Untouched (t.activateLock host c).1 := by
  rcases t.activateLock_cases host c with ⟨hr, -⟩ | ⟨hready, -⟩
  · rw [hr]
    exact h
  · rw [h.ready] at hready
    cases hready

theorem Untouched.remove (h : Untouched t) (heap : Ptr → Ticket) (key : QString)
    (c : Clock) : Untouched (t.removeEntering heap key c).1 := by
  rcases t.removeEntering_cases c heap key with ⟨hr, -⟩ | ⟨hquorum, -⟩
  · rw [hr]
    exact h
  · rw [h.quorum] at hquorum
    cases hquorum

theorem home_of_call (hd : LocalOk server m d) {q : Ptr}
    (hheap : ∀ p, d'.heap p = if p = q then t else d.heap p) (hnext : d'.next = d.next)
    (hq : OwnKey server t.fEnteringKey ∨ Untouched t) (p : Ptr) (hp : p < d'.next) :
    OwnKey server (d'.heap p).fEnteringKey ∨ Untouched (d'.heap p) := by
  rw [hheap p]
  split_ifs
  · exact hq
  · exact hd.home p (hnext ▸ hp)

theorem home_of_create (hd : LocalOk server m d) (hnext : d'.next = d.next + 1)
    (hheap : d'.heap = Function.update d.heap d.next t) (ht : Untouched t) (p : Ptr)
    (hp : p < d'.next) : OwnKey server (d'.heap p).fEnteringKey ∨ Untouched (d'.heap p) := by
  rw [hheap]
  by_cases hpn : p = d.next
  · rw [hpn, Function.update_self]
    exact Or.inr ht
  · rw [Function.update_of_ne hpn]
    have hlt : p < d.next + 1 := hnext ▸ hp
    exact hd.home p (lt_of_le_of_ne (Nat.le_of_lt_succ hlt) hpn)

theorem sweep_home (h : Sweep readings d d') (hd : LocalOk server m d) (p : Ptr)
    (hp : p < d'.next) : OwnKey server (d'.heap p).fEnteringKey ∨ Untouched (d'.heap p) := by
  cases h with
  | fail o key q hfind =>
    refine home_of_call hd (lockFailed_heap d q) rfl ?_ p hp
    rcases hd.home q (hd.filed.ticket_lt o key q hfind) with hown | hunt
    · have hsame := Ticket.sameRequest_of_call (Ticket.lockFailed_moves d.host (d.heap q))
      rw [← hsame.enteringKey] at hown
      exact Or.inl hown
    · exact Or.inr (hunt.failed d.host)
  | activate o key q hfind =>
    refine home_of_call hd (activateLock_heap d q) rfl ?_ p hp
    rcases hd.home q (hd.filed.ticket_lt o key q hfind) with hown | hunt
    · have hmoves := Ticket.activateLock_moves d.host d.clock (d.heap q)
      rw [← (Ticket.sameRequest_of_call hmoves).enteringKey] at hown
      exact Or.inl hown
    · exact Or.inr (hunt.activate d.host d.clock)
  | _ => exact hd.home p hp

theorem effect_home (h : Effect m readings d d') (hd : LocalOk server m d)
    (hm : ForOwn server m.command) (p : Ptr) (hp : p < d'.next) :
    OwnKey server (d'.heap p).fEnteringKey ∨ Untouched (d'.heap p) := by
  cases h with
  | sweep _ hsweep => exact sweep_home hsweep hd p hp
  | request o pid timeout duration deadline t hcommand ht =>
    subst ht
    exact home_of_create hd rfl rfl (untouched_create ..) p hp
  | copy o key timeout duration source deadline srv service hcommand hnew hdeadline =>
    exact home_of_create hd rfl rfl (untouched_create ..) p hp
  | entered o key q hcommand hfind =>
    simp only [ForOwn, hcommand] at hm
    refine home_of_call hd (store_heap d q _) rfl (Or.inl ?_) p hp
    rw [(Ticket.sameRequest_of_call (Ticket.entered_moves d.host (d.heap q))).enteringKey,
      hd.filed.entering_key o key q hfind]
    exact hm
  | maxTicket o key q n r hcommand hfind hr =>
    simp only [ForOwn, hcommand] at hm
    refine home_of_call hd (store_heap d q r) rfl (Or.inl ?_) p hp
    rw [(Ticket.sameRequest_of_call (Ticket.maxTicket_moves d.host (d.heap q) hr)).enteringKey,
      hd.filed.entering_key o key q hfind]
    exact hm
  | ticketAdded o key q hcommand hfind =>
    simp only [ForOwn, hcommand] at hm
    refine home_of_call hd (store_heap d q _) rfl (Or.inl ?_) p hp
    rw [(Ticket.sameRequest_of_call (Ticket.ticketAdded_moves d.host (d.heap q) _)).enteringKey]
    exact hm _ (hd.filed.ticket_key o key q hfind)
  | removeEntering o key q k hfind =>
    refine home_of_call hd (removeEntering_heap d q k) rfl ?_ p hp
    rcases hd.home q (hd.filed.ticket_lt o key q hfind) with hown | hunt
    · have hmoves := Ticket.removeEntering_moves d.clock (d.heap q) d.heap k
      rw [← (Ticket.sameRequest_of_call hmoves).enteringKey] at hown
      exact Or.inl hown
    · exact Or.inr (hunt.remove d.heap k d.clock)
  | _ => exact hd.home p hp

theorem effect_localOk (h : Effect m readings d d') (hd : LocalOk server m d)
    (hm : ForOwn server m.command) : LocalOk server m d' where
  name := (effect_fServerName h).trans hd.name
  filed := h.filed hd.filed
  keyed := effect_wellKeyed h hd.keyed
  home := effect_home h hd hm
  sent := by
    intro x hx
    rcases effect_sent h hd hm hx with hold | hnew
    · exact (hd.sent x hold).mono h.next_le (h.ticket Advances.refl advances_of_moves)
    · exact hnew

theorem processMessage_localOk (h : d.processMessage m = .ok d') (hd : LocalOk server m d)
    (hm : ForOwn server m.command) : LocalOk server m d' :=
  (processMessage_effects h).invariant (LocalOk server m) hd
    (fun _ _ ha hab => effect_localOk hab ha hm)

end Local

/-- What a packet from `a` to `b` says and which ticket it is about. -/
inductive Content (w : World) (a b : QString) : Option TicketRef → Command → Prop
  | said (p : Ptr) (c : Command) (hp : p < (w.daemon a).next)
      (hown : OwnKey a ((w.daemon a).heap p).fEnteringKey) (hc : Says ((w.daemon a).heap p) c) :
      Content w a b (some ⟨a, p⟩) c
  | heard (p : Ptr) (c : Command) (hp : p < (w.daemon b).next)
      (hown : OwnKey b ((w.daemon b).heap p).fEnteringKey) (hc : Hears ((w.daemon b).heap p) c) :
      Content w a b (some ⟨b, p⟩) c
  | ready (origin : Option TicketRef) (name : QString) : Content w a b origin (.lockReady name)
  | notice (origin : Option TicketRef) (c : Command) (hc : IsNotice c) : Content w a b origin c

structure PacketOk (w : World) (a b : QString) (x : Packet) : Prop where
  server : x.message.sentFromServer = a
  service : x.message.sentFromService = ascii "snaplock"
  content : Content w a b x.origin x.message.command

structure Sound (w : World) : Prop where
  name : ∀ s, (w.daemon s).fServerName = s
  filed : ∀ s, Filed (w.daemon s)
  keyed : ∀ s p, WellKeyed ((w.daemon s).heap p)
  home : ∀ s p, p < (w.daemon s).next →
    OwnKey s ((w.daemon s).heap p).fEnteringKey ∨ Untouched ((w.daemon s).heap p)
  packets : ∀ a b x, x ∈ w.channel a b → PacketOk w a b x

structure Grows (w w' : World) : Prop where
  next_le : ∀ s, (w.daemon s).next ≤ (w'.daemon s).next
  ticket : ∀ s p, p < (w.daemon s).next →
    Advances ((w.daemon s).heap p) ((w'.daemon s).heap p)

theorem Grows.refl (w : World) : Grows w w := ⟨fun _ => le_rfl, fun _ _ _ => Advances.refl _⟩

section World

variable {c : Cluster} {w w' : World} {a : Action} {server : QString} {clock : Clock}
  {packet : Packet} {d : Daemon} {y : QString}

theorem PacketOk.mono {x : QString} {packet : Packet} (h : PacketOk w x y packet)
    (hgrows : Grows w w') : PacketOk w' x y packet := by
  refine ⟨h.server, h.service, ?_⟩
  have hcontent := h.content
  generalize packet.origin = origin at hcontent ⊢
  generalize packet.message.command = command at hcontent ⊢
  cases hcontent with
  | said p _ hp hown hc =>
    have hadv := hgrows.ticket x p hp
    exact .said p _ (hp.trans_le (hgrows.next_le x)) (hadv.same.enteringKey.symm ▸ hown)
      (hc.advance hadv)
  | heard p _ hp hown hc =>
    have hadv := hgrows.ticket y p hp
    exact .heard p _ (hp.trans_le (hgrows.next_le y)) (hadv.same.enteringKey.symm ▸ hown)
      (hc.advance hadv)
  | ready _ name => exact .ready _ name
  | notice _ _ hc => exact .notice _ _ hc

/-- Replies in a channel are for clients of the receiving daemon. -/
theorem PacketOk.forOwn {x : QString} {packet : Packet} (h : PacketOk w x y packet)
    (hw : Sound w) (hy : slash ∉ y) : ForOwn y packet.message.command := by
  have hcontent := h.content
  generalize packet.origin = origin at hcontent
  generalize packet.message.command = command at hcontent ⊢
  cases hcontent with
  | said p _ hp hown hc => cases hc <;> exact trivial
  | heard p _ hp hown hc =>
    cases hc with
    | entered => exact hown
    | max n h => exact hown
    | added h =>
      intro k hk
      rw [(hw.keyed y p).added h] at hk
      rw [keyOf_ticketKeyOf hy hown hk]
      exact hown
  | ready _ name => exact trivial
  | notice _ _ hc => cases hc <;> exact trivial

theorem Sound.forOwn (hw : Sound w) (hr : w.Receives c a server clock packet) :
    ForOwn server packet.message.command := by
  rcases hr.source with ⟨source, index, -, hpacket⟩ | ⟨-, houtside, -⟩
  · exact (hw.packets source server packet (List.mem_of_getElem? hpacket)).forOwn hw
      (c.valid server hr.member).2
  · generalize packet.message.command = command at houtside ⊢
    cases houtside <;> exact trivial

theorem Sound.localOk (hw : Sound w) (server : QString) (clock : Clock) (m : Message) :
    LocalOk server m (w.awake server clock) :=
  ⟨hw.name server, (hw.filed server).awake clock, hw.keyed server, hw.home server,
    fun _ hx => by cases hx⟩

theorem grows_received (c : Cluster) (a : Action)
    (hd : (w.awake server clock).processMessage packet.message = .ok d) :
    Grows w (w.received c a server clock packet d) where
  next_le := by
    intro s
    rw [World.received_daemon]
    split_ifs with hs
    · have hnext : (w.awake server clock).next ≤ d.next := processMessage_next_le hd
      rw [hs]
      exact hnext
    · exact le_rfl
  ticket := by
    intro s p hp
    rw [World.received_daemon]
    split_ifs with hs
    · rw [hs] at hp ⊢
      exact processMessage_ticket hd Advances.refl Advances.trans advances_of_moves p hp
    · exact Advances.refl _

/-- The packets a daemon sends while it processes one. -/
theorem packetOk_outgoing (hw : Sound w) (hr : w.Receives c a server clock packet)
    (hd : (w.awake server clock).processMessage packet.message = .ok d) {x : Packet}
    (hx : x ∈ outgoing c server packet.origin d.outbox y) :
    PacketOk (w.received c a server clock packet d) server y x := by
  obtain ⟨sent, hsent, htarget, rfl⟩ := mem_outgoing hx
  have hlocal := processMessage_localOk hd (hw.localOk server clock _) (hw.forOwn hr)
  have hdaemon : (w.received c a server clock packet d).daemon server = d := by
    rw [World.received_daemon, if_pos rfl]
  refine ⟨rfl, rfl, ?_⟩
  cases hlocal.sent sent hsent with
  | said p command hp hown hc =>
    exact .said p command (hdaemon.symm ▸ hp) (hdaemon.symm ▸ hown) (hdaemon.symm ▸ hc)
  | notice p m hc => exact .notice _ _ hc
  | ready => exact .ready _ _
  | reply command hc =>
    rcases hr.source with ⟨source, index, -, hpacket⟩ | ⟨-, houtside, -⟩
    · have hok := hw.packets source server packet (List.mem_of_getElem? hpacket)
      have hy : y = source := by
        simp only [addressees, replyTo, hok.server, hok.service] at htarget
        rw [if_neg (by decide), if_pos trivial] at htarget
        simpa using (List.mem_filter.mp htarget).2
      subst hy
      have hheard := (hok.mono (grows_received c a hd)).content
      simp only [packetOf]
      generalize packet.origin = origin at hheard ⊢
      generalize packet.message.command = asked at hheard hc
      cases hheard with
      | said p _ hp hown hsaid => exact .heard p _ hp hown (hsaid.reply hc)
      | heard p _ hp hown hhears => exact absurd hc hhears.no_reply
      | ready _ name => cases hc
      | notice _ _ hnotice => exact absurd hc hnotice.no_reply
    · generalize packet.message.command = asked at houtside hc
      cases houtside <;> cases hc

theorem received_sound (hw : Sound w) (hr : w.Receives c a server clock packet)
    (hd : (w.awake server clock).processMessage packet.message = .ok d) :
    Sound (w.received c a server clock packet d) := by
  have hlocal := processMessage_localOk hd (hw.localOk server clock _) (hw.forOwn hr)
  have hdaemon := World.received_daemon c w a server clock packet d
  refine ⟨fun s => ?_, fun s => ?_, fun s p => ?_, fun s p hp => ?_, fun x y z hz => ?_⟩
  · rw [hdaemon]
    split_ifs with hs
    · rw [hs]
      exact hlocal.name
    · exact hw.name s
  · rw [hdaemon]
    split_ifs with hs
    · exact hlocal.filed
    · exact hw.filed s
  · rw [hdaemon]
    split_ifs with hs
    · exact hlocal.keyed p
    · exact hw.keyed s p
  · rw [hdaemon] at hp ⊢
    split_ifs at hp ⊢ with hs
    · rw [hs]
      exact hlocal.home p hp
    · exact hw.home s p hp
  · have hold : z ∈ (w.before a).channel x y →
        PacketOk (w.received c a server clock packet d) x y z := fun h =>
      (hw.packets x y z (World.mem_before_channel h)).mono (grows_received c a hd)
    simp only [World.received] at hz
    split_ifs at hz with hx
    · rcases List.mem_append.mp hz with hz | hz
      · exact hold hz
      · rw [hx]
        exact packetOk_outgoing hw hr hd hz
    · exact hold hz

theorem step_sound (hw : Sound w) (c : Cluster) (a : Action) :
    Sound (w.step c a) ∧ Grows w (w.step c a) := by
  obtain hsame | ⟨server, clock, packet, hr, ⟨e, -, hstop⟩ | ⟨d, hd, hrun⟩⟩ :=
    World.step_cases c w a
  · rw [hsame]
    exact ⟨hw, Grows.refl w⟩
  · have hgrows : Grows w { w.before a with stopped := server :: w.stopped } :=
      ⟨fun s => by simp, fun s p _ => by simpa using Advances.refl _⟩
    rw [hstop]
    refine ⟨⟨fun s => ?_, fun s => ?_, fun s p => ?_, fun s p hp => ?_, fun x y z hz => ?_⟩, hgrows⟩
    · simpa using hw.name s
    · simpa using hw.filed s
    · simpa using hw.keyed s p
    · simp only [World.before_daemon] at hp ⊢
      exact hw.home s p hp
    · exact (hw.packets x y z (World.mem_before_channel hz)).mono hgrows
  · rw [hrun]
    exact ⟨received_sound hw hr hd, grows_received c a hd⟩

theorem sound_initial (debugBuild : Bool) (computers : QString → OrderedMap QString Bool) :
    Sound (World.initial debugBuild computers) where
  name := fun _ => rfl
  filed := filed_initial debugBuild computers
  keyed := fun s => (numbered_initial debugBuild computers s).wellKeyed
  home := fun s p hp => by simp [World.initial] at hp
  packets := fun a b x hx => by simp [World.initial] at hx

end World

end SnapCpp.LockOrigin
