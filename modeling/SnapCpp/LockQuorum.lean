import SnapCpp.LockHeld

/-!
What the three counters of a ticket count. A ticket broadcasts each of its
three questions once, every daemon answers a question at most once, and an
answer is counted at most once. So if a ticket only counts answers to its own
questions, then the answers it counted come from different daemons.
-/
namespace SnapCpp.LockQuorum

open QString LockTicket LockDaemon LockNetwork LockNumber LockOrigin LockHeld

def replyStage : Command → Option Stage
  | .lockEntered .. => some .entering
  | .maxTicket .. => some .max
  | .ticketAdded .. => some .adding
  | _ => none

def counter : Stage → Ticket → ℕ
  | .entering, t => t.fEnteredCount
  | .max, t => t.fMaxTicketCount
  | .adding, t => t.fTicketAddedCount

def left : Stage → Ticket → Bool
  | .entering, t => t.fGetMaxTicket
  | .max, t => t.fAddedTicket
  | .adding, t => t.fAddedTicketQuorum

def asked (d : Daemon) (stage : Stage) (p : Ptr) : Bool :=
  decide (p < d.next) && match stage with
    | .entering => true
    | .max => (d.heap p).fGetMaxTicket
    | .adding => (d.heap p).fAddedTicket

/-- The broadcasts of a round among the messages a daemon sent. -/
def asks (stage : Stage) (p : Ptr) (sent : List Sent) : ℕ :=
  sent.countP (fun x => x.ticket = some p ∧ askStage x.message.command = some stage)

def replies (sent : List Sent) : ℕ :=
  sent.countP (fun x => x.ticket = none ∧ (replyStage x.message.command).isSome)

theorem replyOf_stage {c c' : Command} (h : ReplyOf c c') :
    ∃ stage, askStage c = some stage ∧ replyStage c' = some stage := by
  cases h <;> exact ⟨_, rfl, rfl⟩

theorem replyOf_not_ask {c c' : Command} (h : ReplyOf c c') : askStage c' = none := by
  cases h <;> rfl

section Local

variable {server : QString} {d d' : Daemon} {m : Message} {readings : List ℤ} {stage : Stage}
  {p : Ptr}

theorem asks_post (d : Daemon) (ticket : Option Ptr) (ms : List Message) :
    asks stage p (d.post ticket ms).outbox =
      asks stage p d.outbox + asks stage p (ms.map (fun x => ⟨ticket, x⟩)) := by
  simp [asks, Daemon.post, List.countP_append]

/-- Messages that start no round. -/
theorem asks_eq_zero (ticket : Option Ptr) (ms : List Message)
    (h : ∀ x ∈ ms, askStage x.command = none) :
    asks stage p (ms.map (fun x => ⟨ticket, x⟩)) = 0 := by
  rw [asks, List.countP_eq_zero]
  intro x hx
  obtain ⟨y, hy, rfl⟩ := List.mem_map.mp hx
  simp [h y hy]

theorem asks_single (q : Ptr) (c : Command) :
    asks stage p ([broadcast c].map (fun x => ⟨some q, x⟩)) =
      if q = p ∧ askStage c = some stage then 1 else 0 := by
  simp [asks, broadcast, List.countP_cons]

theorem asks_store_single (d : Daemon) (q : Ptr) (t : Ticket) (c : Command) :
    asks stage p (d.store q (t, [broadcast c])).outbox =
      asks stage p d.outbox + if q = p ∧ askStage c = some stage then 1 else 0 := by
  rw [Daemon.store, asks_post, asks_single]
  rfl

theorem asked_mono (h : Effect m readings d d') (hasked : asked d stage p = true) :
    asked d' stage p = true := by
  simp only [asked, Bool.and_eq_true, decide_eq_true_eq] at hasked ⊢
  obtain ⟨hp, hflag⟩ := hasked
  have hadv := h.ticket Advances.refl advances_of_moves p hp
  refine ⟨hp.trans_le h.next_le, ?_⟩
  cases stage with
  | entering => rfl
  | max => exact hadv.getMax hflag
  | adding => exact (hadv.added hflag).1

theorem toNat_le {b b' : Bool} (h : b = true → b' = true) : b.toNat ≤ b'.toNat := by
  cases b with
  | false => exact Nat.zero_le _
  | true => rw [h rfl]

/-- A round starts with one broadcast, and only once. -/
theorem effect_asks (stage : Stage) (p : Ptr) (h : Effect m readings d d') (hf : Filed d) :
    asks stage p d'.outbox + (asked d stage p).toNat ≤
      asks stage p d.outbox + (asked d' stage p).toNat := by
  have hmono : (asked d stage p).toNat ≤ (asked d' stage p).toNat := toNat_le (asked_mono h)
  have hsilent : ∀ (x : Daemon) (ticket : Option Ptr) (ms : List Message),
      d'.outbox = (x.post ticket ms).outbox → x.outbox = d.outbox →
      (∀ y ∈ ms, askStage y.command = none) → asks stage p d'.outbox +
        (asked d stage p).toNat ≤ asks stage p d.outbox + (asked d' stage p).toNat := by
    intro x ticket ms hout hx hms
    rw [hout, asks_post, asks_eq_zero ticket ms hms, hx]
    omega
  cases h with
  | sweep _ hsweep =>
    cases hsweep with
    | fail o key q hfind =>
      refine hsilent (d.setTicket q _) (some q) ((d.heap q).lockFailed d.host).2 rfl rfl ?_
      rcases (d.heap q).lockFailed_cases d.host with hr | ⟨-, -, hr⟩ | ⟨-, -, hr⟩
      · simp [hr]
      · simp [hr, Ticket.toClient, askStage]
      · simp [hr, Ticket.toClient, askStage]
    | activate o key q hfind =>
      refine hsilent (d.setTicket q _) (some q) ((d.heap q).activateLock d.host d.clock).2.1
        rfl rfl ?_
      rcases (d.heap q).activateLock_cases d.host d.clock with ⟨hr, -⟩ | ⟨-, -, -, -, hr⟩
      · simp [hr]
      · simp [hr, Ticket.toClient, askStage]
    | _ => exact Nat.add_le_add_left hmono _
  | reply c hc =>
    exact hsilent d none [replyTo m c] rfl rfl (by simpa [replyTo] using replyOf_not_ask hc)
  | ready => exact hsilent d none _ rfl rfl (by simp [broadcast, askStage])
  | request o pid timeout duration deadline t hcommand ht =>
    rw [Ticket.entering] at *
    rw [asks_post, asks_single]
    have hout : ((d.allocate t).putEntering o (d.clientKey pid) d.next).outbox = d.outbox := rfl
    rw [hout]
    split_ifs with hq
    · obtain ⟨rfl, hstage⟩ := hq
      cases hstage
      simp [asked, Daemon.post, Daemon.putEntering, Daemon.allocate]
    · omega
  | drop o pid key q hcommand hfind hkey =>
    refine hsilent d (some q) _ rfl rfl ?_
    unfold Ticket.dropTicket
    split_ifs <;> simp [broadcast, Ticket.toClient, askStage]
  | entered o key q hcommand hfind =>
    have hq := hf.entering_lt o key q hfind
    rcases (d.heap q).entered_cases d.host with ⟨-, hr⟩ | ⟨-, -, hr⟩ | ⟨hget, -, hr⟩
    · exact hsilent (d.setTicket q _) (some q) _ rfl rfl (by simp [hr])
    · exact hsilent (d.setTicket q _) (some q) _ rfl rfl (by simp [hr])
    · rw [hr] at hmono ⊢
      rw [asks_store_single]
      split_ifs with hqp
      · obtain ⟨rfl, hstage⟩ := hqp
        cases hstage
        simp [asked, Daemon.store, Daemon.post, Daemon.setTicket, hget, hq]
      · omega
  | maxTicket o key q n r hcommand hfind hr =>
    have hq := hf.entering_lt o key q hfind
    rcases (d.heap q).maxTicket_cases d.host n with ⟨-, hr'⟩ | ⟨-, -, hr'⟩ | ⟨hadded, -, hr'⟩
    · cases hr.symm.trans hr'
      exact hsilent (d.setTicket q _) (some q) _ rfl rfl (by simp)
    · cases hr.symm.trans hr'
      exact hsilent (d.setTicket q _) (some q) _ rfl rfl (by simp)
    · cases hr.symm.trans hr'
      rw [asks_store_single]
      split_ifs with hqp
      · obtain ⟨rfl, hstage⟩ := hqp
        cases hstage
        simp [asked, Daemon.store, Daemon.post, Daemon.setTicket, hadded, hq, Ticket.numbered]
      · omega
  | ticketAdded o key q hcommand hfind =>
    refine hsilent (d.setTicket q _) (some q)
      ((d.heap q).ticketAdded (d.fEnteringTickets.group o) d.host).2 rfl rfl ?_
    rcases (d.heap q).ticketAdded_cases d.host (d.fEnteringTickets.group o) with
      ⟨-, hr⟩ | ⟨-, -, hr⟩ | ⟨-, -, hr⟩
    · simp [hr]
    · simp [hr]
    · simp [hr, broadcast, askStage]
  | _ => exact Nat.add_le_add_left hmono _

theorem processMessage_asks (stage : Stage) (p : Ptr) (h : d.processMessage m = .ok d')
    (hf : Filed d) (hempty : d.outbox = []) :
    asks stage p d'.outbox + (asked d stage p).toNat ≤ (asked d' stage p).toNat := by
  have hboth := (processMessage_effects h).invariant
    (fun x => Filed x ∧ asks stage p x.outbox + (asked d stage p).toNat ≤
      asks stage p d.outbox + (asked x stage p).toNat) ⟨hf, le_rfl⟩ ?_
  · have hzero : asks stage p d.outbox = 0 := by simp [asks, hempty]
    omega
  · rintro a b ⟨ha, hle⟩ hab
    have hstep := effect_asks stage p hab ha
    exact ⟨hab.filed ha, by omega⟩

theorem replies_post (d : Daemon) (ticket : Option Ptr) (ms : List Message) :
    replies (d.post ticket ms).outbox = replies d.outbox +
      replies (ms.map (fun x => ⟨ticket, x⟩)) := by
  simp [replies, Daemon.post, List.countP_append]

theorem replies_ticket (q : Ptr) (ms : List Message) :
    replies (ms.map (fun x => ⟨some q, x⟩)) = 0 := by
  rw [replies, List.countP_eq_zero]
  intro x hx
  obtain ⟨y, -, rfl⟩ := List.mem_map.mp hx
  simp

theorem replies_store (d : Daemon) (q : Ptr) (r : Ticket × List Message) :
    replies (d.store q r).outbox = replies d.outbox := by
  rw [Daemon.store, replies_post, replies_ticket]
  rfl

theorem sweeps_replies (h : Sweeps readings d d') : replies d'.outbox = replies d.outbox := by
  refine Sweeps.invariant (fun x => replies x.outbox = replies d.outbox) h rfl ?_
  intro a b ha hab
  rw [← ha]
  cases hab with
  | fail o key q hfind | activate o key q hfind => exact replies_store a q _
  | _ => rfl

theorem replies_single (x : Message) : replies ([x].map (fun y => ⟨none, y⟩)) ≤ 1 := by
  exact List.countP_le_length

/-- A question is answered at most once. -/
theorem processMessage_replies (h : d.processMessage m = .ok d') (hempty : d.outbox = [])
    (hask : askStage m.command ≠ none) : replies d'.outbox ≤ 1 := by
  have hzero : replies d.outbox = 0 := by simp [replies, hempty]
  unfold Daemon.processMessage at h
  split at h
  case h_3 o key timeout duration source hm =>
    obtain ⟨-, c, d₁, hc, hclean, hcases⟩ := lockEntering_cases h
    rw [sweeps_replies (cleanup_sweeps hclean (within_self d₁))]
    have hone := replies_single (replyTo m (.lockEntered o key))
    rcases hcases with ⟨-, rfl⟩ | ⟨-, rfl⟩ | ⟨-, deadline, serverName, serviceName, -, -, rfl⟩
    · exact hzero.trans_le (Nat.zero_le 1)
    · rw [replies_post]
      change replies d.outbox + _ ≤ 1
      omega
    · rw [replies_post]
      change replies d.outbox + _ ≤ 1
      omega
  case h_5 o key hm =>
    obtain ⟨d₁, hclean, rfl⟩ := getMaxTicket_cases h
    have hone := replies_single (replyTo m (.maxTicket o key (d₁.lastTicket o).toNat))
    rw [replies_post, sweeps_replies (cleanup_sweeps hclean (within_self d))]
    omega
  case h_7 o key timeout hm =>
    obtain ⟨c, number, serverName, pidText, rest, q, -, -, -, rfl⟩ := addTicket_cases h
    have hone := replies_single (replyTo m (.ticketAdded o key))
    rw [replies_post]
    change replies d.outbox + _ ≤ 1
    omega
  all_goals simp [askStage, *] at hask

def SameRounds (t t' : Ticket) : Prop :=
  ∀ stage, counter stage t' = counter stage t ∧ left stage t' = left stage t

theorem SameRounds.refl (t : Ticket) : SameRounds t t := fun _ => ⟨rfl, rfl⟩

theorem sameRounds_lockFailed (h : Host) (t : Ticket) : SameRounds t (t.lockFailed h).1 := by
  rcases t.lockFailed_cases h with hr | ⟨-, -, hr⟩ | ⟨-, -, hr⟩
  · rw [hr]
    exact .refl t
  · rw [hr]
    intro stage
    cases stage <;> exact ⟨rfl, rfl⟩
  · rw [hr]
    intro stage
    cases stage <;> exact ⟨rfl, rfl⟩

theorem sameRounds_activateLock (h : Host) (c : Clock) (t : Ticket) :
    SameRounds t (t.activateLock h c).1 := by
  rcases t.activateLock_cases h c with ⟨hr, -⟩ | ⟨-, -, -, -, hr⟩
  · rw [hr]
    exact .refl t
  · rw [hr]
    intro stage
    cases stage <;> exact ⟨rfl, rfl⟩

theorem sameRounds_removeEntering (heap : Ptr → Ticket) (key : QString) (c : Clock) (t : Ticket) :
    SameRounds t (t.removeEntering heap key c).1 := by
  rcases t.removeEntering_cases c heap key with ⟨hr, -⟩ | ⟨-, -, -, hr⟩
  · rw [hr]
    exact .refl t
  · rw [hr]
    intro stage
    cases stage <;> exact ⟨rfl, rfl⟩

theorem sameRounds_create (o key : QString) (deadline duration : ℤ) (server service : QString) :
    SameRounds default (Ticket.create o key deadline duration server service) := by
  intro stage
  cases stage <;> exact ⟨rfl, rfl⟩

/-- What a ticket was before a message, a fresh one if it did not exist. -/
def base (d : Daemon) (p : Ptr) : Ticket := if p < d.next then d.heap p else default

theorem base_of_lt (hp : p < d.next) : base d p = d.heap p := if_pos hp

/-- A relation between what a ticket is before and after a message. The calls that
count a reply matter only when the message is such a reply. -/
structure Respects (R : Ticket → Ticket → Prop) (c : Command) : Prop where
  refl : ∀ t, R t t
  trans : ∀ t₁ t₂ t₃, R t₁ t₂ → R t₂ t₃ → R t₁ t₃
  create : ∀ o key deadline duration server service,
    R default (Ticket.create o key deadline duration server service)
  failed : ∀ t h, R t (t.lockFailed h).1
  activated : ∀ t h clock, R t (t.activateLock h clock).1
  removed : ∀ t heap key clock, R t (t.removeEntering heap key clock).1
  entered : replyStage c = some .entering → ∀ t h, R t (t.entered h).1
  max : replyStage c = some .max → ∀ t h n r, t.maxTicket n h = .ok r → R t r.1
  added : replyStage c = some .adding → ∀ t h still, R t (t.ticketAdded still h).1

section Respects

variable {R : Ticket → Ticket → Prop}

theorem base_of_call {t : Ticket} {q : Ptr} (hR : ∀ t, R t t)
    (hheap : ∀ p, d'.heap p = if p = q then t else d.heap p) (hnext : d'.next = d.next)
    (h : R (d.heap q) t) (p : Ptr) (hp : p < d'.next) : R (base d p) (d'.heap p) := by
  rw [base_of_lt (hnext ▸ hp), hheap p]
  split_ifs with hpq
  · rw [hpq]
    exact h
  · exact hR _

theorem base_of_create {t : Ticket} (hR : ∀ t, R t t) (h : R default t)
    (hnext : d'.next = d.next + 1) (hheap : d'.heap = Function.update d.heap d.next t) (p : Ptr)
    (hp : p < d'.next) : R (base d p) (d'.heap p) := by
  rw [hheap]
  by_cases hpn : p = d.next
  · rw [hpn, Function.update_self, base, if_neg (lt_irrefl d.next)]
    exact h
  · have hsucc : p < d.next + 1 := hnext ▸ hp
    have hlt : p < d.next := lt_of_le_of_ne (Nat.le_of_lt_succ hsucc) hpn
    rw [Function.update_of_ne hpn, base_of_lt hlt]
    exact hR _

theorem effect_respects (h : Effect m readings d d') (hR : Respects R m.command) (p : Ptr)
    (hp : p < d'.next) : R (base d p) (d'.heap p) := by
  have hsame : ∀ x : Daemon, x.next = d.next → x.heap = d.heap → p < x.next →
      R (base d p) (x.heap p) := by
    intro x hnext hheap hx
    rw [hheap, base_of_lt (hnext ▸ hx)]
    exact hR.refl _
  cases h with
  | sweep _ hsweep =>
    cases hsweep with
    | fail o key q hfind =>
      exact base_of_call hR.refl (lockFailed_heap d q) rfl (hR.failed _ d.host) p hp
    | activate o key q hfind =>
      exact base_of_call hR.refl (activateLock_heap d q) rfl (hR.activated _ d.host d.clock) p hp
    | _ => exact hsame _ rfl rfl hp
  | request o pid timeout duration deadline t hcommand ht =>
    subst ht
    exact base_of_create hR.refl (hR.create ..) rfl rfl p hp
  | copy o key timeout duration source deadline srv service hcommand hnew hdeadline =>
    exact base_of_create hR.refl (hR.create ..) rfl rfl p hp
  | entered o key q hcommand hfind =>
    exact base_of_call hR.refl (store_heap d q _) rfl
      (hR.entered (by rw [hcommand]; rfl) _ d.host) p hp
  | maxTicket o key q n r hcommand hfind hr =>
    exact base_of_call hR.refl (store_heap d q r) rfl
      (hR.max (by rw [hcommand]; rfl) _ d.host n r hr) p hp
  | ticketAdded o key q hcommand hfind =>
    exact base_of_call hR.refl (store_heap d q _) rfl
      (hR.added (by rw [hcommand]; rfl) _ d.host _) p hp
  | removeEntering o key q k hfind =>
    exact base_of_call hR.refl (removeEntering_heap d q k) rfl
      (hR.removed _ d.heap k d.clock) p hp
  | _ => exact hsame _ rfl rfl hp

theorem processMessage_respects (h : d.processMessage m = .ok d') (hR : Respects R m.command)
    (p : Ptr) (hp : p < d'.next) : R (base d p) (d'.heap p) := by
  have hall := (processMessage_effects h).invariant
    (fun x => d.next ≤ x.next ∧ ∀ q, q < x.next → R (base d q) (x.heap q))
    ⟨le_rfl, fun q hq => by rw [base_of_lt hq]; exact hR.refl _⟩ ?_
  · exact hall.2 p hp
  · rintro a b ⟨hnext, ha⟩ hab
    refine ⟨hnext.trans hab.next_le, fun q hq => ?_⟩
    have hstep := effect_respects hab hR q hq
    by_cases hqa : q < a.next
    · rw [base_of_lt hqa] at hstep
      exact hR.trans _ _ _ (ha q hqa) hstep
    · have hbase : base d q = base a q := by
        rw [base, base, if_neg hqa, if_neg (fun hqd => hqa (hqd.trans_le hnext))]
      rw [hbase]
      exact hstep

end Respects

theorem sameRounds_respects {c : Command} (hc : replyStage c = none) :
    Respects SameRounds c where
  refl := .refl
  trans := fun _ _ _ hab hbc stage =>
    ⟨(hbc stage).1.trans (hab stage).1, (hbc stage).2.trans (hab stage).2⟩
  create := sameRounds_create
  failed := fun t h => sameRounds_lockFailed h t
  activated := fun t h clock => sameRounds_activateLock h clock t
  removed := fun t heap key clock => sameRounds_removeEntering heap key clock t
  entered := fun h => by rw [hc] at h; cases h
  max := fun h => by rw [hc] at h; cases h
  added := fun h => by rw [hc] at h; cases h

structure Counts (quorum : ℕ) (stage : Stage) (t t' : Ticket) : Prop where
  before : left stage t = false
  counter : counter stage t' = counter stage t + 1
  after : left stage t' = true → quorum ≤ LockQuorum.counter stage t + 1
  others : ∀ other, other ≠ stage →
    LockQuorum.counter other t' = LockQuorum.counter other t ∧ left other t' = left other t

theorem entered_counts (h : Host) (t : Ticket) (hleft : t.fGetMaxTicket = false) :
    Counts h.quorum .entering t (t.entered h).1 := by
  rcases t.entered_cases h with ⟨hget, -⟩ | ⟨-, -, hr⟩ | ⟨-, hquorum, hr⟩
  · rw [hleft] at hget
    cases hget
  · rw [hr]
    refine ⟨hleft, rfl, fun hnow => ?_, fun other ho => ?_⟩
    · rw [left, hleft] at hnow
      cases hnow
    · cases other with
      | entering => exact absurd rfl ho
      | _ => exact ⟨rfl, rfl⟩
  · rw [hr]
    refine ⟨hleft, rfl, fun _ => hquorum, fun other ho => ?_⟩
    cases other with
    | entering => exact absurd rfl ho
    | _ => exact ⟨rfl, rfl⟩

theorem maxTicket_counts (h : Host) (t : Ticket) (n : ℤ) {r : Ticket × List Message}
    (hr : t.maxTicket n h = .ok r) (hleft : t.fAddedTicket = false) :
    Counts h.quorum .max t r.1 := by
  rcases t.maxTicket_cases h n with ⟨hadded, -⟩ | ⟨-, -, hr'⟩ | ⟨-, hquorum, hr'⟩
  · rw [hleft] at hadded
    cases hadded
  · cases hr.symm.trans hr'
    refine ⟨hleft, rfl, fun hnow => ?_, fun other ho => ?_⟩
    · rw [left, hleft] at hnow
      cases hnow
    · cases other with
      | max => exact absurd rfl ho
      | _ => exact ⟨rfl, rfl⟩
  · cases hr.symm.trans hr'
    refine ⟨hleft, rfl, fun _ => hquorum, fun other ho => ?_⟩
    cases other with
    | max => exact absurd rfl ho
    | _ => exact ⟨rfl, rfl⟩

theorem ticketAdded_counts (h : Host) (t : Ticket) (still : OrderedMap QString Ptr)
    (hleft : t.fAddedTicketQuorum = false) :
    Counts h.quorum .adding t (t.ticketAdded still h).1 := by
  rcases t.ticketAdded_cases h still with ⟨hdone, -⟩ | ⟨-, -, hr⟩ | ⟨-, hquorum, hr⟩
  · rw [hleft] at hdone
    cases hdone
  · rw [hr]
    refine ⟨hleft, rfl, fun hnow => ?_, fun other ho => ?_⟩
    · rw [left, hleft] at hnow
      cases hnow
    · cases other with
      | adding => exact absurd rfl ho
      | _ => exact ⟨rfl, rfl⟩
  · rw [hr]
    refine ⟨hleft, rfl, fun _ => hquorum, fun other ho => ?_⟩
    cases other with
    | adding => exact absurd rfl ho
    | _ => exact ⟨rfl, rfl⟩

def RoundStep (d d' : Daemon) (c : Command) (p : Ptr) : Prop :=
  (∃ stage, countsFor d c = some (stage, p) ∧ p < d.next ∧
      Counts d.quorum stage (d.heap p) (d'.heap p)) ∨
    SameRounds (base d p) (d'.heap p)

theorem roundStep_store {c : Command} {q : Ptr} {r : Ticket × List Message}
    (hq : q < d.next) (hr : (∃ stage, countsFor d c = some (stage, q) ∧
        Counts d.quorum stage (d.heap q) r.1) ∨ SameRounds (d.heap q) r.1) (p : Ptr)
    (hp : p < d.next) : RoundStep d (d.store q r) c p := by
  rw [RoundStep, store_heap, base_of_lt hp]
  split_ifs with hpq
  · subst hpq
    rcases hr with ⟨stage, hcounts, hr⟩ | hr
    · exact Or.inl ⟨stage, hcounts, hq, hr⟩
    · exact Or.inr hr
  · exact Or.inr (.refl _)

theorem processMessage_rounds (h : d.processMessage m = .ok d') (hf : Filed d) (p : Ptr)
    (hp : p < d'.next) : RoundStep d d' m.command p := by
  cases hm : replyStage m.command with
  | none => exact Or.inr (processMessage_respects h (sameRounds_respects hm) p hp)
  | some stage =>
    have hrefl : ∀ x : Daemon, d' = x → x = d → RoundStep d d' m.command p := by
      rintro x rfl rfl
      exact Or.inr (by rw [base_of_lt hp]; exact .refl _)
    unfold Daemon.processMessage at h
    split at h
    case h_4 o key hcommand =>
      rcases lockEntered_cases h with ⟨-, hd⟩ | ⟨q, hfind, rfl⟩
      · exact hrefl d' rfl hd
      · refine roundStep_store (hf.entering_lt o key q hfind) ?_ p hp
        cases hleft : (d.heap q).fGetMaxTicket with
        | true => exact Or.inr (by simp [Ticket.entered, hleft, SameRounds])
        | false => exact Or.inl ⟨.entering, by simp [countsFor, hcommand, hfind, hleft],
            entered_counts d.host _ hleft⟩
    case h_6 o key n hcommand =>
      rcases maxTicket_cases h with ⟨-, hd⟩ | ⟨q, r, hfind, hr, rfl⟩
      · exact hrefl d' rfl hd
      · refine roundStep_store (hf.entering_lt o key q hfind) ?_ p hp
        cases hleft : (d.heap q).fAddedTicket with
        | true =>
          rw [Ticket.maxTicket, if_pos hleft] at hr
          cases hr
          exact Or.inr (.refl _)
        | false => exact Or.inl ⟨.max, by simp [countsFor, hcommand, hfind, hleft],
            maxTicket_counts d.host _ n hr hleft⟩
    case h_8 o key hcommand =>
      rcases ticketAdded_cases h with ⟨hd, -⟩ | ⟨q, hfind, hnonempty, rfl⟩
      · exact hrefl d' rfl hd
      · refine roundStep_store (hf.ticket_lt o key q hfind) ?_ p hp
        cases hleft : (d.heap q).fAddedTicketQuorum with
        | true => exact Or.inr (by simp [Ticket.ticketAdded, hleft, SameRounds])
        | false => exact Or.inl ⟨.adding, by simp [countsFor, hcommand, hfind, hleft, hnonempty],
            ticketAdded_counts d.host _ _ hleft⟩
    all_goals simp [replyStage, *] at hm

end Local

def isAsk (stage : Stage) (r : TicketRef) (x : Packet) : Bool :=
  decide (x.origin = some r ∧ askStage x.message.command = some stage)

def isReply (stage : Stage) (r : TicketRef) (x : Packet) : Bool :=
  decide (x.origin = some r ∧ replyStage x.message.command = some stage)

/-- How often a round of a ticket involves a server: its question on the way
there, the answer on the way back and the answers counted. -/
def tally (w : World) (stage : Stage) (r : TicketRef) (x : QString) : ℕ :=
  (w.channel r.server x).countP (isAsk stage r) +
    (w.channel x r.server).countP (isReply stage r) +
    w.ledger.counted.count (stage, r, x)

def sourceOf : Action → Option QString
  | .deliver source .. => some source
  | _ => none

section Packets

variable {c : Cluster} {w : World} {a : Action} {server : QString} {clock : Clock} {packet : Packet}
  {d : Daemon} {stage : Stage} {r : TicketRef} {command : Command}

theorem countP_before (hr : w.Receives c a server clock packet) (P : Packet → Bool)
    (x y : QString) :
    ((w.before a).channel x y).countP P +
      (if sourceOf a = some x ∧ y = server ∧ P packet then 1 else 0) =
      (w.channel x y).countP P := by
  have hpacket := hr.packetFor
  cases a with
  | deliver source target index t =>
    simp only [World.packetFor, Option.map_eq_some_iff, Prod.mk.injEq] at hpacket
    obtain ⟨z, hz, rfl, rfl, rfl⟩ := hpacket
    simp only [World.before, World.take, sourceOf, Option.some.injEq]
    by_cases hxy : x = source ∧ y = target
    · obtain ⟨rfl, rfl⟩ := hxy
      simpa using countP_eraseIdx P _ index z hz
    · rw [if_neg hxy, if_neg (fun h => hxy ⟨h.1.symm, h.2.1⟩), Nat.add_zero]
  | _ => simp [World.before, sourceOf]

theorem countP_outgoing {P : Packet → Bool} {Q : Sent → Prop} {R : Prop} [DecidablePred Q]
    [Decidable R] {origin : Option TicketRef} {sent : List Sent} (y : QString)
    (h : ∀ x ∈ sent, P (packetOf server origin x) = true → R ∧ Q x) :
    (outgoing c server origin sent y).countP P ≤ if R then sent.countP Q else 0 := by
  rw [outgoing, List.countP_map]
  have hsub : ((sent.filter (fun x => y ∈ addressees c x.message)).countP
      (P ∘ packetOf server origin)) ≤ sent.countP (P ∘ packetOf server origin) :=
    List.Sublist.countP_le List.filter_sublist
  refine hsub.trans ?_
  split_ifs with hR
  · exact List.countP_mono_left fun x hx hP => decide_eq_true (h x hx hP).2
  · exact (List.countP_eq_zero.mpr fun x hx hP => hR (h x hx hP).1).le

/-- Whose packet is processed. -/
theorem sourceOf_packet (hw : Sound w) (hr : w.Receives c a server clock packet)
    (horigin : packet.origin = some r) : ∃ source, sourceOf a = some source ∧
      PacketOk w source server packet := by
  rcases hr.source with ⟨source, index, rfl, hpacket⟩ | ⟨hnone, -⟩
  · exact ⟨source, rfl, hw.packets source server packet (List.mem_of_getElem? hpacket)⟩
  · rw [hnone] at horigin
    cases horigin

theorem source_of_ask {x y : QString} (h : PacketOk w x y packet)
    (hask : isAsk stage r packet = true) : x = r.server := by
  have hcontent := h.content
  obtain ⟨horigin, hstage⟩ := of_decide_eq_true hask
  rw [horigin] at hcontent
  generalize packet.message.command = command at hcontent hstage
  generalize horigin' : some r = origin at hcontent
  cases hcontent with
  | said p _ hp hown hc =>
    cases horigin'
    rfl
  | heard p _ hp hown hc => cases hc <;> cases hstage
  | ready _ name => cases hstage
  | notice _ _ hc => cases hc <;> cases hstage

theorem replyStage_of_countsFor {p : Ptr}
    (h : countsFor d command = some (stage, p)) : replyStage command = some stage := by
  unfold countsFor at h
  split at h
  · split at h
    · split_ifs at h
      cases h
      rfl
    · cases h
  · split at h
    · split_ifs at h
      cases h
      rfl
    · cases h
  · split at h
    · split_ifs at h
      cases h
      rfl
    · cases h
  · cases h

/-- The history of counted replies grows by at most the reply processed. -/
theorem record_counted (l : Ledger) (packet : Packet) (d d' : Daemon) :
    (l.record server packet d d').counted = l.counted ∨
      ∃ stage p, countsFor d packet.message.command = some (stage, p) ∧
        packet.origin = some ⟨server, p⟩ ∧ (l.record server packet d d').counted =
          (stage, ⟨server, p⟩, packet.message.sentFromServer) :: l.counted := by
  simp only [Ledger.record]
  split
  · rename_i stage p r hcounts horigin
    split_ifs with hr
    · exact Or.inr ⟨stage, p, hcounts, by rw [horigin, hr], by rw [hr]⟩
    · exact Or.inl rfl
  · exact Or.inl rfl

theorem count_record (hw : Sound w) (hr : w.Receives c a server clock packet) (d : Daemon)
    (stage : Stage) (r : TicketRef) (x : QString) :
    (w.ledger.record server packet (w.awake server clock) d).counted.count (stage, r, x) ≤
      w.ledger.counted.count (stage, r, x) +
        if sourceOf a = some x ∧ r.server = server ∧ isReply stage r packet then 1 else 0 := by
  obtain hsame | ⟨stage', p, hcounts, horigin, hcons⟩ :=
    record_counted w.ledger packet (w.awake server clock) d
  · rw [hsame]
    exact Nat.le_add_right _ _
  · rw [hcons, List.count_cons]
    refine Nat.add_le_add_left ?_ _
    split_ifs with heq hcond
    · exact le_rfl
    · exfalso
      refine hcond ?_
      obtain ⟨rfl, rfl, rfl⟩ : stage' = stage ∧ ⟨server, p⟩ = r ∧
          packet.message.sentFromServer = x := by simpa using heq
      obtain ⟨source, hsource, hok⟩ := sourceOf_packet hw hr horigin
      exact ⟨hsource.trans (by rw [hok.server]), rfl,
        decide_eq_true ⟨horigin, replyStage_of_countsFor hcounts⟩⟩
    · exact Nat.zero_le _
    · exact le_rfl

theorem notice_no_stage (h : IsNotice command) :
    askStage command = none ∧ replyStage command = none := by
  cases h <;> exact ⟨rfl, rfl⟩

theorem says_no_reply {t : Ticket} (h : Says t command) :
    replyStage command = none := by
  cases h <;> rfl

/-- New questions are those of the tickets of the daemon. -/
theorem asks_outgoing (c : Cluster) (stage : Stage) (r : TicketRef)
    (hsent : ∀ x ∈ d.outbox, SentOk server packet.message d x) (y : QString) :
    (outgoing c server packet.origin d.outbox y).countP (isAsk stage r) ≤
      if r.server = server then asks stage r.ptr d.outbox else 0 := by
  refine countP_outgoing y fun x hx hx' => ?_
  obtain ⟨horigin, hstage⟩ := of_decide_eq_true hx'
  cases hsent x hx with
  | said p command hp hown hc =>
    cases horigin
    exact ⟨rfl, rfl, hstage⟩
  | notice p z hc =>
    have hnone := (notice_no_stage hc).1
    rw [packetOf, stamp, hnone] at hstage
    cases hstage
  | reply command hc =>
    have hnone := replyOf_not_ask hc
    rw [packetOf, stamp, replyTo, hnone] at hstage
    cases hstage
  | ready => cases hstage

/-- New answers are those to the question processed. -/
theorem replies_outgoing (c : Cluster) (stage : Stage) (r : TicketRef)
    (hsent : ∀ x ∈ d.outbox, SentOk server packet.message d x) (y : QString) :
    (outgoing c server packet.origin d.outbox y).countP (isReply stage r) ≤
      if isAsk stage r packet then replies d.outbox else 0 := by
  refine countP_outgoing y fun x hx hx' => ?_
  obtain ⟨horigin, hstage⟩ := of_decide_eq_true hx'
  cases hsent x hx with
  | said p command hp hown hc =>
    have hnone := says_no_reply hc
    rw [packetOf, stamp, broadcast, hnone] at hstage
    cases hstage
  | notice p z hc =>
    have hnone := (notice_no_stage hc).2
    rw [packetOf, stamp, hnone] at hstage
    cases hstage
  | reply command hc =>
    obtain ⟨stage', hask, hrep⟩ := replyOf_stage hc
    rw [packetOf, stamp, replyTo, hrep] at hstage
    cases hstage
    exact ⟨decide_eq_true ⟨horigin, hask⟩, rfl, by rw [replyTo, hrep]; rfl⟩
  | ready => cases hstage

theorem received_channel (x y : QString) : (w.received c a server clock packet d).channel x y =
    (w.before a).channel x y ++
      if x = server then outgoing c server packet.origin d.outbox y else [] := by
  simp only [World.received]
  split_ifs
  · rfl
  · rw [List.append_nil]

/-- A step adds to the tally of a round only when the round starts. -/
theorem tally_received (hw : Sound w) (hr : w.Receives c a server clock packet)
    (hd : (w.awake server clock).processMessage packet.message = .ok d) (stage : Stage)
    (r : TicketRef) (x : QString) :
    tally (w.received c a server clock packet d) stage r x +
        (asked (w.daemon r.server) stage r.ptr).toNat ≤
      tally w stage r x +
        (asked ((w.received c a server clock packet d).daemon r.server) stage r.ptr).toNat := by
  have hlocal := processMessage_localOk hd (hw.localOk server clock _) (hw.forOwn hr)
  have hasksBefore := countP_before hr (isAsk stage r) r.server x
  have hrepliesBefore := countP_before hr (isReply stage r) x r.server
  have hcounted := count_record hw hr d stage r x
  have hasks : (if r.server = server then outgoing c server packet.origin d.outbox x
      else []).countP (isAsk stage r) + (asked (w.daemon r.server) stage r.ptr).toNat ≤
      (asked ((w.received c a server clock packet d).daemon r.server) stage r.ptr).toNat := by
    rw [World.received_daemon]
    split_ifs with hserver
    · have hout := asks_outgoing c stage r hlocal.sent x
      have hstart := processMessage_asks stage r.ptr hd
        ((hw.filed server).awake clock) rfl
      rw [if_pos hserver] at hout
      rw [hserver]
      exact (Nat.add_le_add_right hout _).trans hstart
    · simp
  have hreplies : (if x = server then outgoing c server packet.origin d.outbox r.server
      else []).countP (isReply stage r) ≤
      if sourceOf a = some r.server ∧ x = server ∧ isAsk stage r packet then 1 else 0 := by
    split_ifs with hserver hcond
    · have hout := replies_outgoing c stage r hlocal.sent r.server
      rw [if_pos hcond.2.2] at hout
      obtain ⟨-, hstage⟩ := of_decide_eq_true hcond.2.2
      exact hout.trans (processMessage_replies hd rfl (by simp [hstage]))
    · have hout := replies_outgoing c stage r hlocal.sent r.server
      have hnot : ¬ isAsk stage r packet = true := by
        intro hask
        obtain ⟨source, hsource, hok⟩ := sourceOf_packet hw hr (of_decide_eq_true hask).1
        exact hcond ⟨by rw [hsource, source_of_ask hok hask], hserver, hask⟩
      rw [if_neg hnot] at hout
      exact hout
    · simp
    · simp
  simp only [tally, received_channel, List.countP_append]
  simp only [World.received] at hasks ⊢
  omega

theorem record_processed (l : Ledger) (packet : Packet) (d d' : Daemon)
    {e : Stage × TicketRef × QString} (he : e ∈ l.processed) :
    e ∈ (l.record server packet d d').processed := by
  simp only [Ledger.record]
  split
  · exact List.mem_cons_of_mem _ he
  · exact he

theorem record_processed_self (l : Ledger) {packet : Packet} (d d' : Daemon)
    (hask : isAsk stage r packet = true) :
    (stage, r, server) ∈ (l.record server packet d d').processed := by
  obtain ⟨horigin, hstage⟩ := of_decide_eq_true hask
  simp [Ledger.record, horigin, hstage]

/-- Rounds start once, and an answer in flight or counted was given. -/
structure Tallied (w : World) : Prop where
  once : ∀ stage r x, tally w stage r x ≤ (asked (w.daemon r.server) stage r.ptr).toNat
  replied : ∀ stage r x packet, packet ∈ w.channel x r.server → isReply stage r packet = true →
    (stage, r, x) ∈ w.ledger.processed
  counted : ∀ e ∈ w.ledger.counted, e ∈ w.ledger.processed

theorem tallied_received (h : Tallied w) (hw : Sound w)
    (hr : w.Receives c a server clock packet)
    (hd : (w.awake server clock).processMessage packet.message = .ok d) :
    Tallied (w.received c a server clock packet d) where
  once := by
    intro stage r x
    have hstep := tally_received hw hr hd stage r x
    have hold := h.once stage r x
    omega
  replied := by
    intro stage r x z hz hreply
    rw [received_channel] at hz
    rcases List.mem_append.mp hz with hz | hz
    · exact record_processed _ _ _ _ (h.replied stage r x z (World.mem_before_channel hz) hreply)
    · split_ifs at hz with hx
      · have hlocal := processMessage_localOk hd (hw.localOk server clock _) (hw.forOwn hr)
        have hout := replies_outgoing c stage r hlocal.sent r.server
        have hpos : 0 < (outgoing c server packet.origin d.outbox r.server).countP
            (isReply stage r) := List.countP_pos_iff.mpr ⟨z, hz, hreply⟩
        split_ifs at hout with hask
        · rw [hx]
          exact record_processed_self _ _ _ hask
        · omega
      · cases hz
  counted := by
    intro e he
    change e ∈ (w.ledger.record server packet (w.awake server clock) d).counted at he
    obtain hsame | ⟨stage, p, hcounts, horigin, hcons⟩ :=
      record_counted w.ledger packet (w.awake server clock) d
    · rw [hsame] at he
      exact record_processed _ _ _ _ (h.counted e he)
    · rw [hcons] at he
      rcases List.mem_cons.mp he with rfl | he
      · rcases hr.source with ⟨source, index, -, hpacket⟩ | ⟨hnone, -⟩
        · have hmem := List.mem_of_getElem? hpacket
          rw [(hw.packets source server packet hmem).server]
          exact record_processed _ _ _ _ (h.replied stage ⟨server, p⟩ source packet hmem
            (decide_eq_true ⟨horigin, replyStage_of_countsFor hcounts⟩))
        · rw [hnone] at horigin
          cases horigin
      · exact record_processed _ _ _ _ (h.counted e he)

theorem countP_before_le (w : World) (a : Action) (P : Packet → Bool) (x y : QString) :
    ((w.before a).channel x y).countP P ≤ (w.channel x y).countP P := by
  cases a with
  | deliver source target index t =>
    simp only [World.before, World.take]
    split_ifs
    · exact List.Sublist.countP_le (List.eraseIdx_sublist _ _)
    · exact le_rfl
  | _ => exact le_rfl

theorem tallied_step (h : Tallied w) (hw : Sound w) (c : Cluster) (a : Action) :
    Tallied (w.step c a) := by
  obtain hsame | ⟨server, clock, packet, hr, ⟨e, -, hstop⟩ | ⟨d, hd, hrun⟩⟩ :=
    World.step_cases c w a
  · rw [hsame]
    exact h
  · rw [hstop]
    refine ⟨fun stage r x => ?_, fun stage r x z hz hreply => ?_, fun e he => ?_⟩
    · have hasks := countP_before_le w a (isAsk stage r) r.server x
      have hreplies := countP_before_le w a (isReply stage r) x r.server
      have hold := h.once stage r x
      simp only [tally, World.before_daemon, World.before_ledger] at hold ⊢
      omega
    · simp only [World.before_ledger]
      exact h.replied stage r x z (World.mem_before_channel hz) hreply
    · simp only [World.before_ledger] at he ⊢
      exact h.counted e he
  · rw [hrun]
    exact tallied_received h hw hr hd

theorem tallied_initial (debugBuild : Bool) (computers : QString → OrderedMap QString Bool) :
    Tallied (World.initial debugBuild computers) where
  once := fun stage r x => by simp [tally, World.initial]
  replied := fun stage r x z hz => by simp [World.initial] at hz
  counted := fun e he => by simp [World.initial] at he

def Accounted (w : World) : Prop :=
  ∀ s p stage, p < (w.daemon s).next → counter stage ((w.daemon s).heap p) ≤
    w.ledger.counted.countP (fun e => e.1 = stage ∧ e.2.1 = ⟨s, p⟩)

def AnswersOwn (d : Daemon) (server : QString) (packet : Packet) : Prop :=
  ∀ e ∈ countsFor d packet.message.command, packet.origin = some ⟨server, e.2⟩

instance (d : Daemon) (server : QString) (packet : Packet) :
    Decidable (AnswersOwn d server packet) := by
  unfold AnswersOwn
  infer_instance

theorem counted_of_own (hown : AnswersOwn (w.daemon server) server packet) {p : Ptr}
    (hcounts : countsFor (w.daemon server) packet.message.command = some (stage, p)) :
    (w.ledger.record server packet (w.awake server clock) d).counted =
      (stage, ⟨server, p⟩, packet.message.sentFromServer) :: w.ledger.counted := by
  have horigin := hown (stage, p) hcounts
  change countsFor (w.awake server clock) packet.message.command = some (stage, p) at hcounts
  simp [Ledger.record, hcounts, horigin]

theorem countP_record_le (server : QString) (l : Ledger) (packet : Packet) (d d' : Daemon)
    (P : Stage × TicketRef × QString → Bool) :
    l.counted.countP P ≤ (l.record server packet d d').counted.countP P := by
  obtain hsame | ⟨stage, p, -, -, hcons⟩ := record_counted l packet d d'
  · rw [hsame]
  · rw [hcons, List.countP_cons]
    exact Nat.le_add_right _ _

theorem accounted_received (h : Accounted w) (hw : Sound w)
    (hown : AnswersOwn (w.daemon server) server packet)
    (hd : (w.awake server clock).processMessage packet.message = .ok d) :
    Accounted (w.received c a server clock packet d) := by
  intro s p stage hp
  rw [World.received_daemon] at hp ⊢
  change _ ≤ (w.ledger.record server packet (w.awake server clock) d).counted.countP _
  have hmono := countP_record_le server w.ledger packet (w.awake server clock) d
    (fun e => e.1 = stage ∧ e.2.1 = ⟨s, p⟩)
  split_ifs at hp ⊢ with hs
  · subst hs
    rcases processMessage_rounds hd ((hw.filed s).awake clock) p hp with
      ⟨stage', hcounts, hlt, hcount⟩ | hsame
    · have hold := h s p stage hlt
      by_cases hstage : stage = stage'
      · subst hstage
        rw [counted_of_own hown hcounts, hcount.counter, List.countP_cons_of_pos (by simp)]
        exact Nat.add_le_add_right hold 1
      · rw [(hcount.others stage hstage).1]
        exact hold.trans hmono
    · rw [(hsame stage).1]
      by_cases hlt : p < (w.awake s clock).next
      · rw [base_of_lt hlt]
        exact (h s p stage hlt).trans hmono
      · rw [base, if_neg hlt]
        cases stage <;> exact Nat.zero_le _
  · exact (h s p stage hp).trans hmono

end Packets

def OwnAnswerStep (c : Cluster) (w : World) (a : Action) (w' : World) : Prop :=
  w.OnReceive c a (fun server _ packet => AnswersOwn (w.daemon server) server packet) ∧
    w' = w.step c a

structure Honest (w : World) : Prop where
  sound : Sound w
  tallied : Tallied w
  accounted : Accounted w

theorem honest_initial (debugBuild : Bool) (computers : QString → OrderedMap QString Bool) :
    Honest (World.initial debugBuild computers) :=
  ⟨sound_initial debugBuild computers, tallied_initial debugBuild computers,
    fun s p stage hp => by simp [World.initial] at hp⟩

variable {w : World}

theorem ownAnswerStep_honest {c : Cluster} {w' : World} {a : Action}
    (h : OwnAnswerStep c w a w') (hw : Honest w) : Honest w' := by
  obtain ⟨hown, rfl⟩ := h
  refine ⟨(step_sound hw.sound c a).1, tallied_step hw.tallied hw.sound c a, ?_⟩
  obtain hsame | ⟨server, clock, packet, hr, ⟨e, -, hstop⟩ | ⟨d, hd, hrun⟩⟩ :=
    World.step_cases c w a
  · rw [hsame]
    exact hw.accounted
  · rw [hstop]
    intro s p stage hp
    simp only [World.before_daemon, World.before_ledger] at hp ⊢
    exact hw.accounted s p stage hp
  · rw [hrun]
    exact accounted_received hw.accounted hw.sound (hown.of_receives hr) hd

def countedServers (w : World) (stage : Stage) (r : TicketRef) : List QString :=
  (w.ledger.counted.filter (fun e => e.1 = stage ∧ e.2.1 = r)).map (fun e => e.2.2)

theorem countedServers_nodup (h : Tallied w) (stage : Stage) (r : TicketRef) :
    (countedServers w stage r).Nodup := by
  rw [List.nodup_iff_count]
  intro x
  have honce := h.once stage r x
  have hbool := Bool.toNat_le (asked (w.daemon r.server) stage r.ptr)
  have hcount : (countedServers w stage r).count x ≤ w.ledger.counted.count (stage, r, x) := by
    rw [countedServers, List.count, List.countP_map, List.countP_filter]
    refine List.countP_mono_left ?_
    rintro ⟨stage', r', y⟩ - hy
    simpa [and_assoc, and_comm, and_left_comm] using hy
  unfold tally at honce
  omega

/-- A ticket leaves a round when it counts one of the replies. -/
theorem left_of_step {c : Cluster} {a : Action} (hw : Sound w) {s : QString}
    {p : Ptr} {stage : Stage} (hbefore : left stage ((w.daemon s).heap p) = false)
    (hp : p < ((w.step c a).daemon s).next)
    (hafter : left stage (((w.step c a).daemon s).heap p) = true) :
    ∃ clock packet d, w.Receives c a s clock packet ∧
      w.step c a = w.received c a s clock packet d ∧
      countsFor (w.daemon s) packet.message.command = some (stage, p) ∧ p < (w.daemon s).next ∧
      (w.daemon s).quorum ≤ counter stage ((w.daemon s).heap p) + 1 := by
  obtain hsame | ⟨server, clock, packet, hr, ⟨e, -, hstop⟩ | ⟨d, hd, hrun⟩⟩ :=
    World.step_cases c w a
  · rw [hsame, hbefore] at hafter
    cases hafter
  · rw [hstop] at hafter
    simp only [World.before_daemon] at hafter
    rw [hbefore] at hafter
    cases hafter
  · rw [hrun, World.received_daemon] at hafter hp
    split_ifs at hafter hp with hs
    · subst hs
      rcases processMessage_rounds hd ((hw.filed s).awake clock) p hp with
        ⟨stage', hcounts, hlt, hcount⟩ | hsame
      · have hstage : stage = stage' := by
          by_contra hne
          have hother := (hcount.others stage hne).2
          rw [hafter] at hother
          change true = left stage ((w.daemon s).heap p) at hother
          rw [hbefore] at hother
          cases hother
        subst hstage
        exact ⟨clock, packet, d, hr, hrun, hcounts, hlt, hcount.after hafter⟩
      · have hleft := (hsame stage).2
        rw [hafter, base] at hleft
        split_ifs at hleft with hlt
        · change true = left stage ((w.daemon s).heap p) at hleft
          rw [hbefore] at hleft
          cases hleft
        · cases stage <;> cases hleft
    · rw [hbefore] at hafter
      cases hafter

/-- In every run in which tickets count only answers to their own questions, a
ticket that leaves its entering, its max-ticket or its adding stage has had its
LOCKENTERING, GETMAXTICKET or ADDTICKET processed by a quorum of daemons. -/
theorem quorum_processed_of_own (debugBuild : Bool)
    (computers : QString → OrderedMap QString Bool) (c : Cluster) (actions : List Action)
    (w w' : World) (a : Action)
    (hrun : Runs (OwnAnswerStep c) (World.initial debugBuild computers) actions w)
    (hlast : OwnAnswerStep c w a w') (s : QString) (p : Ptr) (stage : Stage)
    (hp : p < (w'.daemon s).next) (hbefore : left stage ((w.daemon s).heap p) = false)
    (hafter : left stage ((w'.daemon s).heap p) = true) :
    ∃ servers : List QString, servers.Nodup ∧ (w.daemon s).quorum ≤ servers.length ∧
      ∀ x ∈ servers, (stage, ⟨s, p⟩, x) ∈ w'.ledger.processed := by
  have hw := hrun.invariant Honest (honest_initial debugBuild computers)
    (fun _ _ _ hx hstep => ownAnswerStep_honest hstep hx)
  have hw' := ownAnswerStep_honest hlast hw
  obtain ⟨hown, rfl⟩ := hlast
  obtain ⟨clock, packet, d, hr, hrun, hcounts, hlt, hquorum⟩ :=
    left_of_step hw.sound hbefore hp hafter
  refine ⟨countedServers (w.step c a) stage ⟨s, p⟩, countedServers_nodup hw'.tallied _ _, ?_, ?_⟩
  · have hcounted : (w.step c a).ledger.counted =
        (stage, ⟨s, p⟩, packet.message.sentFromServer) :: w.ledger.counted := by
      rw [hrun]
      exact counted_of_own (hown.of_receives hr) hcounts
    have hold := hw.accounted s p stage hlt
    rw [countedServers, List.length_map, ← List.countP_eq_length_filter, hcounted,
      List.countP_cons_of_pos (by simp)]
    omega
  · intro x hx
    obtain ⟨⟨stage', r, y⟩, he, rfl⟩ := List.mem_map.mp hx
    obtain ⟨hmem, hmatch⟩ := List.mem_filter.mp he
    obtain ⟨rfl, rfl⟩ := of_decide_eq_true hmatch
    exact hw'.tallied.counted _ hmem

def enteringActions : List Action :=
  [askFor [97] [111] 100 10,
    deliverFirst [97] [97], deliverFirst [97] [98],
    deliverFirst [97] [97]]

theorem quorum_processed_of_own_pair :
    let w := (World.initial false (knownTo pair)).run pair enteringActions
    let w' := w.step pair (deliverFirst [98] [97])
    ∃ servers : List QString, servers.Nodup ∧ 2 ≤ servers.length ∧
      ∀ x ∈ servers, (Stage.entering, ⟨[97], 0⟩, x) ∈ w'.ledger.processed := by
  intro w w'
  have hrun := Runs.of_checked (World.step pair) (fun w a => w.OnReceive pair a
    (fun server _ packet => AnswersOwn (w.daemon server) server packet))
    (World.initial false (knownTo pair)) enteringActions (by decide)
  have hquorum : (w.daemon [97]).quorum = 2 := by decide
  rw [← hquorum]
  exact quorum_processed_of_own false (knownTo pair) pair enteringActions w w'
    (deliverFirst [98] [97]) hrun ⟨by decide, rfl⟩ [97] 0 .entering (by decide)
    (by decide) (by decide)

def triple : Cluster := ⟨[[97], [98], [99]], by decide, by decide⟩

/-- A client of daemon `a` gets and releases the lock while what daemon `c`
answers is on the way, and asks again. The LOCKENTERED of `c` for the first
request then counts for the second one. -/
def lateActions : List Action :=
  [askFor [97] [111] 100 10,
    deliverFirst [97] [97], deliverFirst [97] [98], deliverFirst [97] [99],
    deliverFirst [97] [97], deliverFirst [98] [97]] ++ exchange [97] [98] ++ exchange [97] [98] ++
    [deliverFirst [97] [97], .unlock [97] ⟨0, []⟩ [111] 1, deliverFirst [97] [97],
      askFor [97] [111] 100 10, deliverFirst [97] [97], deliverFirst [97] [97]]

/-- The ticket of the second request leaves its entering stage, while only its
own daemon has processed its LOCKENTERING. -/
theorem late_reply_counted :
    ¬ ∀ (debugBuild : Bool) (computers : QString → OrderedMap QString Bool) (c : Cluster)
      (actions : List Action) (a : Action) (s : QString) (p : Ptr) (stage : Stage),
      let w := (World.initial debugBuild computers).run c actions
      let w' := w.step c a
      p < (w'.daemon s).next → left stage ((w.daemon s).heap p) = false →
      left stage ((w'.daemon s).heap p) = true →
      ∃ servers : List QString, servers.Nodup ∧ (w.daemon s).quorum ≤ servers.length ∧
        ∀ x ∈ servers, (stage, ⟨s, p⟩, x) ∈ w'.ledger.processed := by
  intro hall
  obtain ⟨servers, hnodup, hlength, hprocessed⟩ := hall false (knownTo triple) triple lateActions
    (deliverFirst [99] [97]) [97] 1 .entering (by decide) (by decide)
    (by decide)
  have honly : ∀ e ∈ (((World.initial false (knownTo triple)).run triple lateActions).step triple
      (deliverFirst [99] [97])).ledger.processed,
      e.1 = .entering → e.2.1 = ⟨[97], 1⟩ → e.2.2 = [97] := by decide
  have hquorum : (((World.initial false (knownTo triple)).run triple lateActions).daemon
      [97]).quorum = 2 := by decide
  have hsame : ∀ x ∈ servers, x = [97] := fun x hx => honly _ (hprocessed x hx) rfl rfl
  rw [hquorum] at hlength
  have hle : servers.length ≤ 1 := by
    rw [List.eq_replicate_of_mem hsame] at hnodup
    exact List.nodup_replicate.mp hnodup
  omega

end SnapCpp.LockQuorum
