import SnapCpp.LockDrop

/-!
Which ticket comes first. A ticket gets a number above all the numbers in the
MAXTICKET replies it counted, and a daemon's reply is no less than the number
of any ticket of its own clients that it holds. So a ticket that counts the
reply of a daemon comes after the tickets of that daemon's clients. The copies
that other daemons hold have no number, so a quorum alone does not help.
-/
namespace SnapCpp.LockFairness

open QString LockTicket LockDaemon LockNetwork LockNumber LockOrigin LockQuorum

def SameNumber (t t' : Ticket) : Prop :=
  t'.fOurTicket = t.fOurTicket ∧ t'.fAddedTicket = t.fAddedTicket

theorem sameNumber_respects {c : Command} (hc : replyStage c ≠ some .max) :
    Respects SameNumber c where
  refl := fun _ => ⟨rfl, rfl⟩
  trans := fun _ _ _ hab hbc => ⟨hbc.1.trans hab.1, hbc.2.trans hab.2⟩
  create := fun _ _ _ _ _ _ => ⟨rfl, rfl⟩
  failed := by
    intro t h
    rcases t.lockFailed_cases h with hr | ⟨-, -, hr⟩ | ⟨-, -, hr⟩ <;> exact ⟨by rw [hr], by rw [hr]⟩
  activated := by
    intro t h clock
    rcases t.activateLock_cases h clock with ⟨hr, -⟩ | ⟨-, -, -, -, hr⟩ <;>
      exact ⟨by rw [hr], by rw [hr]⟩
  removed := by
    intro t heap key clock
    rcases t.removeEntering_cases clock heap key with ⟨hr, -⟩ | ⟨-, -, -, hr⟩ <;>
      exact ⟨by rw [hr], by rw [hr]⟩
  entered := by
    intro _ t h
    rcases t.entered_cases h with ⟨-, hr⟩ | ⟨-, -, hr⟩ | ⟨-, -, hr⟩ <;>
      exact ⟨by rw [hr], by rw [hr]⟩
  max := fun h => absurd h hc
  added := by
    intro _ t h still
    rcases t.ticketAdded_cases h still with ⟨-, hr⟩ | ⟨-, -, hr⟩ | ⟨-, -, hr⟩ <;>
      exact ⟨by rw [hr], by rw [hr]⟩

section Local

variable {d d' : Daemon} {m : Message} {n : ℤ}

theorem processMessage_number (h : d.processMessage m = .ok d') (p : Ptr) (hp : p < d'.next) :
    (∃ o k n r, m.command = .maxTicket o k n ∧
        (d.fEnteringTickets.group o).find? k = some p ∧
        (d.heap p).maxTicket n d.host = .ok r ∧ d'.heap p = r.1) ∨
      SameNumber (base d p) (d'.heap p) ∧ ∀ o k n, m.command = .maxTicket o k n →
        (d.fEnteringTickets.group o).find? k ≠ some p := by
  by_cases hm : ∃ o k n, m.command = .maxTicket o k n
  · obtain ⟨o, k, n, hcommand⟩ := hm
    simp only [Daemon.processMessage, hcommand] at h
    rcases maxTicket_cases h with ⟨hnone, rfl⟩ | ⟨q, r, hfind, hr, rfl⟩
    · refine Or.inr ⟨by rw [base_of_lt hp]; exact ⟨rfl, rfl⟩, ?_⟩
      rintro o' k' n' hcommand'
      cases hcommand.symm.trans hcommand'
      simp [hnone]
    · by_cases hpq : p = q
      · subst hpq
        exact Or.inl ⟨o, k, n, r, hcommand, hfind, hr, store_heap_self d p r⟩
      · refine Or.inr ⟨?_, ?_⟩
        · rw [base_of_lt (show p < d.next from hp), store_heap, if_neg hpq]
          exact ⟨rfl, rfl⟩
        · rintro o' k' n' hcommand'
          cases hcommand.symm.trans hcommand'
          rw [hfind]
          exact fun heq => hpq (Option.some.inj heq).symm
  · have hstage : replyStage m.command ≠ some .max := by
      cases hcommand : m.command with
      | maxTicket o k n => exact absurd ⟨o, k, n, hcommand⟩ hm
      | _ => simp [replyStage]
    exact Or.inr ⟨processMessage_respects h (sameNumber_respects hstage) p hp,
      fun o k n hcommand => absurd ⟨o, k, n, hcommand⟩ hm⟩

theorem raised_toNat (t : Ticket) (hn : n < 2 ^ 32) :
    ((t.raised n).toNat : ℤ) = max n t.fOurTicket.toNat := by
  unfold Ticket.raised
  split_ifs with hlt
  · have hnat : (UInt32.ofInt n).toNat = n.toNat := by
      rw [UInt32.ofInt, UInt32.toNat_ofNat', Int.emod_eq_of_lt (by omega) hn]
      exact Nat.mod_eq_of_lt (by omega)
    rw [hnat]
    omega
  · omega

theorem raised_succ_toNat (t : Ticket) (hn : n < 2 ^ 32 - 1)
    (ht : t.fOurTicket.toNat < 2 ^ 32 - 1) :
    ((t.raised n + 1).toNat : ℤ) = max n t.fOurTicket.toNat + 1 := by
  have hraised := raised_toNat t (show n < 2 ^ 32 by omega)
  rw [UInt32.toNat_add, UInt32.toNat_one, Nat.mod_eq_of_lt (by omega)]
  omega

/-- How a MAXTICKET changes a number that is not too large. -/
theorem maxTicket_number {t : Ticket} {h : Host} {r : Ticket × List Message}
    (hr : t.maxTicket n h = .ok r) (hn : n < 2 ^ 32 - 1)
    (ht : t.fAddedTicket = false → t.fOurTicket.toNat < 2 ^ 32 - 1) :
    t.fAddedTicket = true ∧ r.1 = t ∨
      t.fAddedTicket = false ∧ r.1.fAddedTicket = false ∧
        (r.1.fOurTicket.toNat : ℤ) = max n t.fOurTicket.toNat ∨
      t.fAddedTicket = false ∧ r.1.fAddedTicket = true ∧
        (r.1.fOurTicket.toNat : ℤ) = max n t.fOurTicket.toNat + 1 := by
  rcases t.maxTicket_cases h n with ⟨hadded, hr'⟩ | ⟨hadded, -, hr'⟩ | ⟨hadded, -, hr'⟩
  · cases hr.symm.trans hr'
    exact Or.inl ⟨hadded, rfl⟩
  · cases hr.symm.trans hr'
    exact Or.inr (Or.inl ⟨hadded, hadded, raised_toNat t (by omega)⟩)
  · cases hr.symm.trans hr'
    exact Or.inr (Or.inr ⟨hadded, rfl, raised_succ_toNat t hn (ht hadded)⟩)

/-- The answer to GETMAXTICKET is the largest number held at the end. -/
theorem getMaxTicket_answer {o k k' : QString} {id : ℤ} {ticket : Option Ptr} {x : Message}
    (h : d.getMaxTicket m o k = .ok d') (hempty : d.outbox = [])
    (hx : ⟨ticket, x⟩ ∈ d'.outbox) (hcommand : x.command = .maxTicket o k' id) :
    id = (d'.lastTicket o).toNat := by
  obtain ⟨d₁, hclean, rfl⟩ := getMaxTicket_cases h
  rcases mem_outbox_post hx with hx | ⟨y, hy, heq⟩
  · rcases sweeps_notice (cleanup_sweeps hclean (within_self d)) hx with hx | ⟨p, y, heq, hy⟩
    · rw [hempty] at hx
      cases hx
    · cases heq
      rw [hcommand] at hy
      cases hy
  · cases heq
    cases List.mem_singleton.mp hy
    cases hcommand
    rfl

end Local

/-- The ticket counted a number of at least `n`. -/
def Above (n : ℕ) (t : Ticket) : Prop :=
  (t.fAddedTicket = false → n ≤ t.fOurTicket.toNat) ∧
    (t.fAddedTicket = true → n < t.fOurTicket.toNat)

/-- Every reply of the server `x` to a ticket about an object has a number of at
least `n`, and so has the ticket if it counted the reply. -/
structure Below (n : ℕ) (o x : QString) (r : TicketRef) (w : World) : Prop where
  flight : ∀ z ∈ w.channel x r.server, z.origin = some r → ∀ k id,
    z.message.command = .maxTicket o k id → (n : ℤ) ≤ id
  counted : ((w.daemon r.server).heap r.ptr).fObjectName = o →
    (Stage.max, r, x) ∈ w.ledger.counted → Above n ((w.daemon r.server).heap r.ptr)

def Unsaturated (r : TicketRef) (w : World) : Prop :=
  r.ptr < (w.daemon r.server).next → ((w.daemon r.server).heap r.ptr).fAddedTicket = false →
    ((w.daemon r.server).heap r.ptr).fOurTicket.toNat < 2 ^ 32 - 1

def BelowLimit : Command → Prop
  | .maxTicket _ _ n => n ≠ 2 ^ 32 - 1
  | _ => True

instance (command : Command) : Decidable (BelowLimit command) := by
  unfold BelowLimit
  split <;> infer_instance

section World

variable {c : Cluster} {w : World} {a : Action} {server : QString} {clock : Clock}
  {packet : Packet} {d : Daemon} {n : ℕ} {o x : QString} {r : TicketRef}

theorem maxTicket_lt (hw : Sound w) (hr : w.Receives c a server clock packet)
    (hlimit : BelowLimit packet.message.command) {o k : QString} {id : ℤ}
    (hcommand : packet.message.command = .maxTicket o k id) : id < 2 ^ 32 - 1 := by
  rw [hcommand, BelowLimit] at hlimit
  rcases hr.source with ⟨source, index, -, hpacket⟩ | ⟨-, houtside, -⟩
  · have hcontent := (hw.packets source server packet (List.mem_of_getElem? hpacket)).content
    rw [hcommand] at hcontent
    generalize packet.origin = origin at hcontent
    cases hcontent with
    | said p _ hp hown hc => cases hc
    | heard p _ hp hown hc =>
      cases hc with
      | max i h =>
        have hlt := i.toNat_lt
        omega
    | notice _ _ hc => cases hc
  · rw [hcommand] at houtside
    cases houtside

theorem unsaturated_received (h : Unsaturated r w) (hw : Sound w)
    (hr : w.Receives c a server clock packet)
    (hd : (w.awake server clock).processMessage packet.message = .ok d)
    (hlimit : BelowLimit packet.message.command) :
    Unsaturated r (w.received c a server clock packet d) := by
  intro hp hadded
  rw [World.received_daemon] at hp hadded ⊢
  split_ifs at hp hadded ⊢ with hs
  · subst hs
    rcases processMessage_number hd r.ptr hp with
      ⟨o, k, n, t, hcommand, hfind, hmax, hheap⟩ | ⟨hsame, -⟩
    · have hlt := maxTicket_lt hw hr hlimit hcommand
      have hold := h ((hw.filed r.server).entering_lt o k r.ptr hfind)
      rw [hheap] at hadded ⊢
      rcases maxTicket_number hmax hlt hold with ⟨hold', hr'⟩ | ⟨hold', -, hnumber⟩ |
        ⟨-, hnew, -⟩
      · rw [hr', hold'] at hadded
        cases hadded
      · have hbound := hold hold'
        change (t.1.fOurTicket.toNat : ℤ) =
          max n ((w.daemon r.server).heap r.ptr).fOurTicket.toNat at hnumber
        omega
      · rw [hnew] at hadded
        cases hadded
    · rw [hsame.1]
      rw [hsame.2] at hadded
      by_cases hlt : r.ptr < (w.awake r.server clock).next
      · rw [base_of_lt hlt] at hadded ⊢
        exact h hlt hadded
      · rw [base, if_neg hlt]
        decide
  · exact h hp hadded

theorem counted_lt (h : Tallied w) {stage : Stage} (hmem : (stage, r, x) ∈ w.ledger.counted) :
    r.ptr < (w.daemon r.server).next := by
  have honce := h.once stage r x
  have hpos : 0 < w.ledger.counted.count (stage, r, x) := List.count_pos_iff.mpr hmem
  by_contra hge
  have hasked : asked (w.daemon r.server) stage r.ptr = false := by simp [asked, hge]
  rw [hasked] at honce
  unfold tally at honce
  simp only [Bool.toNat_false] at honce
  omega

/-- A reply that is counted now has just left its channel. -/
theorem counted_source (hw : Sound w) (hr : w.Receives c a server clock packet) (d : Daemon)
    {stage : Stage} (hmem : (stage, r, x) ∈
      (w.ledger.record server packet (w.awake server clock) d).counted) :
    (stage, r, x) ∈ w.ledger.counted ∨ server = r.server ∧ packet.origin = some r ∧
      packet ∈ w.channel x r.server ∧
      countsFor (w.daemon server) packet.message.command = some (stage, r.ptr) := by
  obtain hsame | ⟨stage', p, hcounts, horigin, hcons⟩ :=
    record_counted w.ledger packet (w.awake server clock) d
  · rw [hsame] at hmem
    exact Or.inl hmem
  · rw [hcons] at hmem
    rcases List.mem_cons.mp hmem with heq | hmem
    · rcases hr.source with ⟨source, index, -, hpacket⟩ | ⟨hnone, -⟩
      · have hin := List.mem_of_getElem? hpacket
        rw [(hw.packets source server packet hin).server] at heq
        cases heq
        exact Or.inr ⟨rfl, horigin, hin, hcounts⟩
      · rw [hnone] at horigin
        cases horigin
    · exact Or.inl hmem

theorem countsFor_max {command : Command} {p : Ptr}
    (h : countsFor d command = some (Stage.max, p)) : ∃ o k id, command = .maxTicket o k id ∧
      (d.fEnteringTickets.group o).find? k = some p ∧ (d.heap p).fAddedTicket = false := by
  unfold countsFor at h
  split at h
  · split at h
    · split_ifs at h
      cases h
    · cases h
  · rename_i o k id
    split at h
    · rename_i q hfind
      split_ifs at h with hadded
      cases h
      exact ⟨o, k, id, rfl, hfind, by simpa using hadded⟩
    · cases h
  · split at h
    · split_ifs at h
      cases h
    · cases h
  · cases h

/-- The replies of `x` stay above `n` as long as `x` holds such a number when it
answers. -/
theorem below_received (h : Below n o x r w) (hw : Sound w) (htallied : Tallied w)
    (hunsat : Unsaturated r w) (hr : w.Receives c a server clock packet)
    (hd : (w.awake server clock).processMessage packet.message = .ok d)
    (hlimit : BelowLimit packet.message.command)
    (hreply : server = x → packet.origin = some r → ∀ k,
      packet.message.command = .getMaxTicket o k → n ≤ (d.lastTicket o).toNat) :
    Below n o x r (w.received c a server clock packet d) where
  flight := by
    intro z hz horigin k id hcommand
    rw [received_channel] at hz
    rcases List.mem_append.mp hz with hz | hz
    · exact h.flight z (World.mem_before_channel hz) horigin k id hcommand
    · split_ifs at hz with hx
      · obtain ⟨sent, hsent, -, rfl⟩ := mem_outgoing hz
        have hlocal := processMessage_localOk hd (hw.localOk server clock _) (hw.forOwn hr)
        cases hlocal.sent sent hsent with
        | said p command hp hown hc =>
          cases hcommand
          cases hc
        | notice p y hc =>
          rw [show y.command = .maxTicket o k id from hcommand] at hc
          cases hc
        | ready => cases hcommand
        | reply command hc =>
          cases hcommand
          have hasked : packet.message.command = .getMaxTicket o k := by
            generalize packet.message.command = asked at hc
            generalize hid : (id : ℤ) = id' at hc
            cases hc
            rfl
          have hmax := hd
          simp only [Daemon.processMessage, hasked] at hmax
          rw [getMaxTicket_answer hmax rfl hsent rfl]
          exact Int.ofNat_le.mpr (hreply hx.symm horigin k hasked)
      · cases hz
  counted := by
    intro hobject hcounted
    have htallied' := tallied_received htallied hw hr hd
    have hp := counted_lt htallied' hcounted
    rw [World.received_daemon] at hobject hp ⊢
    have hsource := counted_source hw hr d hcounted
    split_ifs at hobject hp ⊢ with hs
    · have hsame : ∀ q, q < (w.daemon r.server).next →
          (d.heap q).fObjectName = ((w.daemon r.server).heap q).fObjectName := fun q hq =>
        (processMessage_ticket (d := w.awake server clock) hd Advances.refl Advances.trans
          advances_of_moves q (hs ▸ hq)).same.objectName.trans (by rw [hs]; rfl)
      subst hs
      rcases processMessage_number hd r.ptr hp with
        ⟨o', k, id, t, hcommand, hfind, hmax, hheap⟩ | ⟨hnumber, hother⟩
      · have hlt := (hw.filed r.server).entering_lt o' k r.ptr hfind
        have hold : ((w.daemon r.server).heap r.ptr).fObjectName = o' :=
          (hw.filed r.server).entering_object o' k r.ptr hfind
        have ho : o' = o := by rw [← hold, ← hsame r.ptr hlt, hobject]
        subst ho
        have hid := maxTicket_lt hw hr hlimit hcommand
        have habove : ((w.daemon r.server).heap r.ptr).fAddedTicket = false →
            (n : ℤ) ≤ max id ((w.daemon r.server).heap r.ptr).fOurTicket.toNat := by
          intro hadded
          rcases hsource with hcounted | ⟨-, horigin, hin, -⟩
          · have hle := (h.counted hold hcounted).1 hadded
            omega
          · have hle := h.flight packet hin horigin k id hcommand
            omega
        rw [hheap]
        rcases maxTicket_number hmax hid (hunsat hlt) with ⟨hadded, hr'⟩ |
          ⟨hadded, hnew, hnumber⟩ | ⟨hadded, hnew, hnumber⟩
        · rw [hr']
          rcases hsource with hcounted | ⟨-, -, -, hcounts⟩
          · exact h.counted hold hcounted
          · obtain ⟨_, _, _, -, -, hfalse⟩ := countsFor_max hcounts
            have htrue : ((w.daemon r.server).heap r.ptr).fAddedTicket = true := hadded
            rw [hfalse] at htrue
            cases htrue
        · have hle := habove hadded
          change (t.1.fOurTicket.toNat : ℤ) =
            max id ((w.daemon r.server).heap r.ptr).fOurTicket.toNat at hnumber
          refine ⟨fun _ => by omega, fun htrue => ?_⟩
          rw [hnew] at htrue
          cases htrue
        · have hle := habove hadded
          change (t.1.fOurTicket.toNat : ℤ) =
            max id ((w.daemon r.server).heap r.ptr).fOurTicket.toNat + 1 at hnumber
          refine ⟨fun hfalse => ?_, fun _ => by omega⟩
          rw [hnew] at hfalse
          cases hfalse
      · rcases hsource with hcounted | ⟨-, -, -, hcounts⟩
        · have hlt := counted_lt htallied hcounted
          rw [base_of_lt (show r.ptr < (w.awake r.server clock).next from hlt)] at hnumber
          rw [hsame r.ptr hlt] at hobject
          have hold := h.counted hobject hcounted
          rw [Above, hnumber.1, hnumber.2]
          exact hold
        · obtain ⟨o', k, id, hcommand, hfind, -⟩ := countsFor_max hcounts
          exact absurd hfind (hother o' k id hcommand)
    · rcases hsource with hcounted | ⟨hserver, -⟩
      · exact h.counted hobject hcounted
      · exact absurd hserver.symm hs

end World

/-- An action after which daemon `a` still holds a ticket, and in which no ticket
gets the largest number. -/
def FairStep (c : Cluster) (a o tk : QString) (p : Ptr) (w : World) (act : Action)
    (w' : World) : Prop :=
  (w.OnReceive c act (fun _ _ packet => BelowLimit packet.message.command) ∧
    (((w.step c act).daemon a).fTickets.group o).find? tk = some p) ∧ w' = w.step c act

/-- What holds after the ticket ⟨a, p⟩ of number `n` is filed, about a ticket `r`
that did not exist then. -/
structure Fair (n : ℕ) (o a : QString) (p : Ptr) (r : TicketRef) (w : World) : Prop where
  sound : Sound w
  tallied : Tallied w
  unsaturated : Unsaturated r w
  allocated : p < (w.daemon a).next
  added : ((w.daemon a).heap p).fAddedTicket = true
  number : ((w.daemon a).heap p).fOurTicket.toNat = n
  below : Below n o a r w

theorem fairStep_fair {c : Cluster} {a o tk : QString} {p : Ptr} {n : ℕ} {r : TicketRef}
    {w w' : World} {act : Action} (h : FairStep c a o tk p w act w') (hw : Fair n o a p r w) :
    Fair n o a p r w' := by
  obtain ⟨⟨hlimit, hfiled⟩, rfl⟩ := h
  obtain ⟨hsound, hgrows⟩ := step_sound hw.sound c act
  have hadv := hgrows.ticket a p hw.allocated
  obtain ⟨hadded, -, hnumber⟩ := hadv.added hw.added
  have hn : (((w.step c act).daemon a).heap p).fOurTicket.toNat = n := by
    rw [hnumber, hw.number]
  have hboth : Unsaturated r (w.step c act) ∧ Below n o a r (w.step c act) := by
    obtain hsame | ⟨server, clock, packet, hr, ⟨e, -, hstop⟩ | ⟨d, hd, hrun⟩⟩ :=
      World.step_cases c w act
    · rw [hsame]
      exact ⟨hw.unsaturated, hw.below⟩
    · rw [hstop]
      refine ⟨?_, ⟨fun z hz => hw.below.flight z (World.mem_before_channel hz), ?_⟩⟩
      · have hold := hw.unsaturated
        unfold Unsaturated at hold ⊢
        simpa using hold
      · simp only [World.before_daemon, World.before_ledger]
        exact hw.below.counted
    · rw [hrun] at hfiled hn ⊢
      have hlimit' := hlimit.of_receives hr
      refine ⟨unsaturated_received hw.unsaturated hw.sound hr hd hlimit',
        below_received hw.below hw.sound hw.tallied hw.unsaturated hr hd hlimit' ?_⟩
      rintro rfl - k -
      rw [World.received_daemon, if_pos rfl] at hfiled hn
      rw [← hn]
      exact UInt32.le_iff_toNat_le.mp (le_lastTicket d o tk p hfiled)
  exact ⟨hsound, tallied_step hw.tallied hw.sound c act, hboth.1,
    hw.allocated.trans_le (hgrows.next_le a), hadded, hn, hboth.2⟩

theorem below_of_new {w : World} (hw : Sound w) (htallied : Tallied w) (n : ℕ) (o x : QString)
    {r : TicketRef} (hnew : (w.daemon r.server).next ≤ r.ptr) : Below n o x r w where
  flight := by
    intro z hz horigin k id hcommand
    have hcontent := (hw.packets x r.server z hz).content
    rw [horigin, hcommand] at hcontent
    generalize horigin' : some r = origin at hcontent
    cases hcontent with
    | said p _ hp hown hc => cases hc
    | heard p _ hp hown hc =>
      have hptr : r.ptr = p := congrArg TicketRef.ptr (Option.some.inj horigin')
      exact absurd (hptr ▸ hp) (not_lt.mpr hnew)
    | notice _ _ hc => cases hc
  counted := fun _ hcounted => absurd (counted_lt htallied hcounted) (not_lt.mpr hnew)

theorem run_tallied (debugBuild : Bool) (computers : QString → OrderedMap QString Bool)
    (c : Cluster) (actions : List Action) :
    Tallied ((World.initial debugBuild computers).run c actions) := by
  have hinit : Sound (World.initial debugBuild computers) ∧
      Tallied (World.initial debugBuild computers) :=
    ⟨sound_initial debugBuild computers, tallied_initial debugBuild computers⟩
  have hboth := List.foldlRecOn (motive := fun w => Sound w ∧ Tallied w) actions (World.step c)
    hinit (fun _ hw a _ => ⟨(step_sound hw.1 c a).1, tallied_step hw.2 hw.1 c a⟩)
  exact hboth.2

/-- A ticket filed on daemon `a` under its key, one of a request processed later,
and a run in which `a` keeps the first one and no MAXTICKET has the largest number:
if the second ticket counted the MAXTICKET of `a`, its number is larger, so that its
key sorts after the key of the first one. -/
theorem later_number_of_counted (debugBuild : Bool)
    (computers : QString → OrderedMap QString Bool) (c : Cluster) (earlier later : List Action)
    (w w' : World) (hw : w = (World.initial debugBuild computers).run c earlier)
    (a b o tk : QString) (p q : Ptr)
    (hfiled : ((w.daemon a).fTickets.group o).find? tk = some p)
    (hadded : ((w.daemon a).heap p).fAddedTicket = true)
    (hkey : ((w.daemon a).heap p).fTicketKey = tk)
    (hnew : (w.daemon b).next ≤ q) (hrun : Runs (FairStep c a o tk p) w later w')
    (hobject : ((w'.daemon b).heap q).fObjectName = o)
    (hadded' : ((w'.daemon b).heap q).fAddedTicket = true)
    (hcounted : (Stage.max, ⟨b, q⟩, a) ∈ w'.ledger.counted) :
    ((w'.daemon a).heap p).fOurTicket < ((w'.daemon b).heap q).fOurTicket ∧
      tk < ((w'.daemon b).heap q).fTicketKey := by
  have hsound : Sound w := hw ▸ LockHeld.run_sound debugBuild computers c earlier
  have htallied : Tallied w := hw ▸ run_tallied debugBuild computers c earlier
  have hinit : Fair ((w.daemon a).heap p).fOurTicket.toNat o a p ⟨b, q⟩ w :=
    ⟨hsound, htallied, fun hq => absurd hq (not_lt.mpr hnew),
      (hsound.filed a).ticket_lt o tk p hfiled, hadded, rfl,
      below_of_new hsound htallied _ o a hnew⟩
  have hfair := hrun.invariant (Fair ((w.daemon a).heap p).fOurTicket.toNat o a p ⟨b, q⟩) hinit
    (fun _ _ _ hx hstep => fairStep_fair hstep hx)
  have habove := (hfair.below.counted hobject hcounted).2 hadded'
  have hlt : ((w.daemon a).heap p).fOurTicket < ((w'.daemon b).heap q).fOurTicket :=
    UInt32.lt_iff_toNat_lt.mpr habove
  refine ⟨?_, ?_⟩
  · rw [UInt32.lt_iff_toNat_lt, hfair.number]
    exact habove
  · rw [(hfair.sound.keyed b q).added hadded', ← hkey, (hsound.keyed a p).added hadded]
    exact (hex8_append_lt _ _ _ _).mpr (Or.inl hlt)

/-- A client of daemon `b` asks while a client of `a` has the lock. -/
def secondActions : List Action :=
  askFor [98] [111] 100 10 :: exchange [98] [97] ++
    deliverFirst [97] [98] :: exchange [98] [97]

theorem later_number_of_counted_pair :
    let w' := LockHeld.hourWorld.run pair secondActions
    ((w'.daemon [97]).heap 0).fOurTicket < ((w'.daemon [98]).heap 1).fOurTicket ∧
      Ticket.ticketKeyOf 1 [97, 47, 49] < ((w'.daemon [98]).heap 1).fTicketKey := by
  intro w'
  have hrun := Runs.of_checked (World.step pair) (fun w act =>
    w.OnReceive pair act (fun _ _ packet => BelowLimit packet.message.command) ∧
      (((w.step pair act).daemon [97]).fTickets.group [111]).find?
        (Ticket.ticketKeyOf 1 [97, 47, 49]) = some 0)
    LockHeld.hourWorld secondActions (by decide)
  exact later_number_of_counted false (knownTo pair) pair LockHeld.hourActions secondActions
    LockHeld.hourWorld w' rfl [97] [98] [111] _ 0 1 (by decide) (by decide)
    (by decide) (by decide) hrun (by decide) (by decide)
    (by decide)

/-- Actions of a run at time zero in which channels are first in first out. -/
def Calm : Action → Prop
  | .lock _ clock _ _ _ _ timeout _ => clock = ⟨0, []⟩ ∧ ∃ t ∈ timeout, 0 < t
  | .unlock _ clock _ _ => clock = ⟨0, []⟩
  | .deliver _ _ index clock => index = 0 ∧ clock = ⟨0, []⟩
  | .gone .. | .status .. => False

instance (act : Action) : Decidable (Calm act) :=
  match act with
  | .lock _ clock _ _ _ _ none _ => decidable_of_iff False (by simp [Calm])
  | .lock _ clock _ _ _ _ (some t) _ => decidable_of_iff (clock = ⟨0, []⟩ ∧ 0 < t)
      (by simp [Calm])
  | .unlock _ clock _ _ => inferInstanceAs (Decidable (clock = ⟨0, []⟩))
  | .deliver _ _ index clock => inferInstanceAs (Decidable (index = 0 ∧ clock = ⟨0, []⟩))
  | .gone .. | .status .. => inferInstanceAs (Decidable False)

/-- Daemons `a` and `b` of three add a ticket of a client of `a`. -/
def firstActions : List Action :=
  askFor [97] [111] 100 10 :: exchange [97] [98] ++ exchange [97] [98] ++ exchange [97] [98]

/-- A client of `b` asks, and `b` and `c` answer. -/
def missedActions : List Action :=
  askFor [98] [111] 100 10 :: exchange [98] [99] ++ exchange [98] [99]

/-- The copy of the first ticket on `b` has no number, so both tickets get number one. -/
theorem later_number_not_larger :
    ¬ ∀ (c : Cluster) (earlier later : List Action) (a b o tk : QString) (p q : Ptr),
      let w := (World.initial false (knownTo c)).run c earlier
      let w' := w.run c later
      (∀ act ∈ earlier ++ later, Calm act) →
      ((w.daemon a).heap p).fAddedTicketQuorum = true →
      ((w.daemon a).heap p).fTicketKey = tk →
      (w.daemon b).next ≤ q →
      ((w'.daemon a).fTickets.group o).find? tk = some p →
      ((w'.daemon b).heap q).fObjectName = o → ((w'.daemon b).heap q).fAddedTicket = true →
      ((w'.daemon a).heap p).fOurTicket < ((w'.daemon b).heap q).fOurTicket := by
  intro hall
  have hlt := hall triple firstActions missedActions [97] [98] [111]
    (Ticket.ticketKeyOf 1 [97, 47, 49]) 0 1 (by decide) (by decide)
    (by decide) (by decide) (by decide) (by decide)
    (by decide)
  revert hlt
  decide

end SnapCpp.LockFairness
