import SnapCpp.Ensures
import SnapCpp.LockDaemon

/-!
What `cleanup()` and `activate_first_lock()` can do. Both read the clock, let
tickets fail, erase entries whose ticket timed out and activate locks. Each of
these is one `Sweep` step; a property kept by all of them is kept by both
functions, whatever the maps hold and the clock says.
-/
namespace SnapCpp.LockDaemon

open QString LockTicket

inductive Sweep (readings : List ℤ) : Daemon → Daemon → Prop
  | tick (d : Daemon) : Sweep readings d d.tick
  | fail (d : Daemon) (o key : QString) (p : Ptr)
      (hfind : (d.fTickets.group o).find? key = some p) : Sweep readings d (d.lockFailed p)
  | activate (d : Daemon) (o key : QString) (p : Ptr)
      (hfind : (d.fTickets.group o).find? key = some p) : Sweep readings d (d.activateLock p)
  | eraseTicket (d : Daemon) (o key : QString) (p : Ptr) (now : ℤ)
      (hfind : (d.fTickets.group o).find? key = some p) (hnow : now ∈ readings)
      (hout : (d.heap p).timedOut now = true) : Sweep readings d (d.eraseTicket o key)
  | eraseEntering (d : Daemon) (o key : QString) (p : Ptr) (now : ℤ)
      (hfind : (d.fEnteringTickets.group o).find? key = some p) (hnow : now ∈ readings)
      (hout : (d.heap p).timedOut now = true) : Sweep readings d (d.eraseEntering o key)

abbrev Sweeps (readings : List ℤ) : Daemon → Daemon → Prop :=
  Relation.ReflTransGen (Sweep readings)

variable {d d' : Daemon} {readings : List ℤ}

theorem Sweeps.invariant (inv : Daemon → Prop)
    (h : Sweeps readings d d') (hinit : inv d)
    (hstep : ∀ a b, inv a → Sweep readings a b → inv b) : inv d' := by
  induction h with
  | refl => exact hinit
  | tail _ hlast ih => exact hstep _ _ ih hlast

def Within (readings : List ℤ) (d : Daemon) : Prop := ∀ t ∈ d.clock.readings, t ∈ readings

theorem within_self (d : Daemon) : Within d.clock.readings d := fun _ ht => ht

theorem Within.now_mem (h : Within readings d) :
    d.clock.now ∈ readings := h _ d.clock.now_mem_readings

theorem Within.tick (h : Within readings d) :
    Within readings d.tick := fun t ht => h t (d.clock.readings_next t ht)

section Frame

variable (d : Daemon) (p : Ptr) (o key : QString) {readings : List ℤ}

@[simp] theorem tick_fTickets : d.tick.fTickets = d.fTickets := rfl

@[simp] theorem tick_fEnteringTickets : d.tick.fEnteringTickets = d.fEnteringTickets := rfl

@[simp] theorem tick_heap : d.tick.heap = d.heap := rfl

@[simp] theorem lockFailed_fTickets : (d.lockFailed p).fTickets = d.fTickets := rfl

@[simp] theorem lockFailed_fEnteringTickets :
    (d.lockFailed p).fEnteringTickets = d.fEnteringTickets := rfl

@[simp] theorem activateLock_fTickets : (d.activateLock p).fTickets = d.fTickets := rfl

@[simp] theorem activateLock_fEnteringTickets :
    (d.activateLock p).fEnteringTickets = d.fEnteringTickets := rfl

@[simp] theorem eraseTicket_heap : (d.eraseTicket o key).heap = d.heap := rfl

@[simp] theorem eraseTicket_fEnteringTickets :
    (d.eraseTicket o key).fEnteringTickets = d.fEnteringTickets := rfl

@[simp] theorem eraseEntering_heap : (d.eraseEntering o key).heap = d.heap := rfl

@[simp] theorem eraseEntering_fTickets : (d.eraseEntering o key).fTickets = d.fTickets := rfl

@[simp] theorem eraseTicket_group (o' : QString) : ((d.eraseTicket o key).fTickets.group o') =
    if o' = o then (d.fTickets.group o).erase key else d.fTickets.group o' := by
  simp [Daemon.eraseTicket]

@[simp] theorem eraseEntering_group (o' : QString) :
    ((d.eraseEntering o key).fEnteringTickets.group o') =
      if o' = o then (d.fEnteringTickets.group o).erase key else d.fEnteringTickets.group o' := by
  simp [Daemon.eraseEntering]

theorem setTicket_heap (t : Ticket) (q : Ptr) :
    (d.setTicket p t).heap q = if q = p then t else d.heap q := by
  by_cases hq : q = p
  · subst hq
    simp [Daemon.setTicket]
  · simp [Daemon.setTicket, hq]

theorem store_heap (r : Ticket × List Message) (q : Ptr) :
    (d.store p r).heap q = if q = p then r.1 else d.heap q := setTicket_heap d p r.1 q

theorem store_self (ms : List Message) : d.store p (d.heap p, ms) = d.post (some p) ms := by
  simp [Daemon.store, Daemon.setTicket]

theorem lockFailed_heap (q : Ptr) : (d.lockFailed p).heap q =
    if q = p then ((d.heap p).lockFailed d.host).1 else d.heap q := store_heap d p _ q

theorem activateLock_heap (q : Ptr) : (d.activateLock p).heap q =
    if q = p then ((d.heap p).activateLock d.host d.clock).1 else d.heap q :=
  setTicket_heap d p _ q

theorem removeEntering_heap (q : Ptr) : (d.removeEntering key p).heap q =
    if q = p then ((d.heap p).removeEntering d.heap key d.clock).1 else d.heap q :=
  setTicket_heap d p _ q

theorem Ticket.lockFailed_timedOut (h : Host) (t : Ticket) (now : ℤ) :
    (t.lockFailed h).1.timedOut now = t.timedOut now := by
  unfold Ticket.lockFailed
  split_ifs <;> rfl

theorem lockFailed_heap_timedOut (q : Ptr) (now : ℤ) :
    ((d.lockFailed p).heap q).timedOut now = (d.heap q).timedOut now := by
  rw [lockFailed_heap]
  split_ifs with hq
  · subst hq
    exact Ticket.lockFailed_timedOut ..
  · rfl

theorem activateLock_within (h : Within readings d) :
    Within readings (d.activateLock p) := by
  intro t ht
  have hclock : (d.activateLock p).clock = d.clock ∨
      (d.activateLock p).clock = d.clock.next := by
    simp only [Daemon.activateLock, Ticket.activateLock]
    split_ifs
    · exact Or.inr rfl
    · exact Or.inl rfl
  rcases hclock with hclock | hclock
  · exact h t (by rwa [hclock] at ht)
  · exact h t (d.clock.readings_next t (by rwa [hclock] at ht))

theorem dropTimedOut_within (heap : Ptr → Ticket)
    (l : List (QString × Ptr)) (still : OrderedMap QString Ptr) (c : Clock)
    (h : ∀ t ∈ c.readings, t ∈ readings) :
    ∀ t ∈ (Ticket.dropTimedOut heap l still c).2.readings, t ∈ readings := by
  induction l generalizing still c with
  | nil => exact h
  | cons e rest ih =>
    have hnext : ∀ t ∈ c.next.readings, t ∈ readings := fun t ht => h t (c.readings_next t ht)
    unfold Ticket.dropTimedOut
    split_ifs
    · exact ih _ _ hnext
    · exact ih _ _ hnext

theorem removeEntering_within (h : Within readings d) :
    Within readings (d.removeEntering key p) := by
  unfold Within Daemon.removeEntering Ticket.removeEntering
  dsimp only
  split_ifs
  · exact dropTimedOut_within _ _ _ _ h
  · exact dropTimedOut_within _ _ _ _ h
  · exact h
  · exact h

end Frame

theorem Sweep.within (h : Sweep readings d d')
    (hc : Within readings d) : Within readings d' := by
  cases h with
  | tick => exact hc.tick
  | fail o key p hfind => exact hc
  | activate o key p hfind => exact activateLock_within d p hc
  | eraseTicket o key p now hfind hnow hout => exact hc
  | eraseEntering o key p now hfind hnow hout => exact hc

theorem Sweeps.within (h : Sweeps readings d d')
    (hc : Within readings d) : Within readings d' :=
  h.invariant (Within readings) hc (fun _ _ ha hab => hab.within ha)

/-- The entries a loop still has to visit are in the map and have distinct keys. -/
structure Pending (m : OrderedMap QString Ptr) (l : List (QString × Ptr)) : Prop where
  found : ∀ e ∈ l, m.find? e.1 = some e.2
  distinct : l.Pairwise (fun a b => a.1 ≠ b.1)

theorem pending_entries (m : OrderedMap QString Ptr) : Pending m m.entries where
  found := fun e he => (m.mem_entries_iff e.1 e.2).mp he
  distinct := m.sorted.imp (fun hlt => ne_of_lt hlt)

theorem Pending.tail {m : OrderedMap QString Ptr} {e : QString × Ptr} {l : List (QString × Ptr)}
    (h : Pending m (e :: l)) : Pending m l where
  found := (List.forall_mem_cons.mp h.found).2
  distinct := (List.pairwise_cons.mp h.distinct).2

theorem Pending.tail_erase {m : OrderedMap QString Ptr} {e : QString × Ptr}
    {l : List (QString × Ptr)} (h : Pending m (e :: l)) : Pending (m.erase e.1) l where
  found := by
    intro a ha
    have hne : a.1 ≠ e.1 := Ne.symm ((List.pairwise_cons.mp h.distinct).1 a ha)
    rw [OrderedMap.find?_erase, if_neg hne]
    exact h.found a (List.mem_cons_of_mem _ ha)
  distinct := h.tail.distinct

theorem sweeps_expire (d : Daemon) (o key : QString) (p : Ptr)
    (hfind : (d.fTickets.group o).find? key = some p) (hc : Within readings d)
    (hout : (d.heap p).timedOut d.clock.now = true) :
    Sweeps readings d ((d.tick.lockFailed p).eraseTicket o key) := by
  have htick : Sweeps readings d d.tick := .single (.tick d)
  have hfail : Sweeps readings d (d.tick.lockFailed p) := htick.tail (.fail _ o key p hfind)
  refine hfail.tail (.eraseTicket _ o key p d.clock.now hfind hc.now_mem ?_)
  rw [lockFailed_heap_timedOut]
  exact hout

theorem expire_pending {o key : QString} {p : Ptr} {rest : List (QString × Ptr)}
    (h : Pending (d.fTickets.group o) ((key, p) :: rest)) :
    Pending (((d.tick.lockFailed p).eraseTicket o key).fTickets.group o) rest := by
  have hgroup : (((d.tick.lockFailed p).eraseTicket o key).fTickets.group o) =
      (d.fTickets.group o).erase key := by simp
  rw [hgroup]
  exact h.tail_erase

theorem activateFirst_sweeps (o : QString) (l : List (QString × Ptr))
    (d : Daemon) (hl : Pending (d.fTickets.group o) l) (hc : Within readings d) :
    Sweeps readings d (Daemon.activateFirst o l d) := by
  induction l generalizing d with
  | nil => exact .refl
  | cons e rest ih =>
    obtain ⟨key, p⟩ := e
    have hfind : (d.fTickets.group o).find? key = some p := hl.found (key, p) (by simp)
    unfold Daemon.activateFirst
    split_ifs with hout
    · have hhead := sweeps_expire d o key p hfind hc hout
      exact hhead.trans (ih _ (expire_pending hl) (hhead.within hc))
    · exact Relation.ReflTransGen.tail (.single (.tick d)) (.activate _ o key p hfind)

theorem activateFirstLock_sweeps (o : QString) (d : Daemon)
    (hc : Within readings d) : Sweeps readings d (d.activateFirstLock o) :=
  activateFirst_sweeps o _ d (pending_entries _) hc

theorem activateFirst_fEnteringTickets (o : QString) (l : List (QString × Ptr)) (d : Daemon) :
    (Daemon.activateFirst o l d).fEnteringTickets = d.fEnteringTickets := by
  induction l generalizing d with
  | nil => rfl
  | cons e rest ih =>
    unfold Daemon.activateFirst
    split_ifs
    · exact ih _
    · rfl

@[simp] theorem activateFirstLock_fEnteringTickets (o : QString) (d : Daemon) :
    (d.activateFirstLock o).fEnteringTickets = d.fEnteringTickets :=
  activateFirst_fEnteringTickets o _ d

theorem expireTickets_sweeps (o : QString) (l : List (QString × Ptr))
    (b : Bool) (d : Daemon) (hl : Pending (d.fTickets.group o) l) (hc : Within readings d) :
    Sweeps readings d (Daemon.expireTickets o l b d).2 := by
  induction l generalizing b d with
  | nil => exact .refl
  | cons e rest ih =>
    obtain ⟨key, p⟩ := e
    have hfind : (d.fTickets.group o).find? key = some p := hl.found (key, p) (by simp)
    unfold Daemon.expireTickets
    split_ifs with hout
    · have hhead := sweeps_expire d o key p hfind hc hout
      exact hhead.trans (ih _ _ (expire_pending hl) (hhead.within hc))
    · exact Relation.ReflTransGen.head (.tick d) (ih _ d.tick hl.tail hc.tick)

theorem cleanupTickets_sweeps (os : List QString) (d d' : Daemon)
    (hc : Within readings d) (h : Daemon.cleanupTickets os d = .ok d') :
    Sweeps readings d d' := by
  induction os generalizing d with
  | nil =>
    cases h
    exact .refl
  | cons o rest ih =>
    have hexpire := expireTickets_sweeps o _ false d (pending_entries _) hc
    simp only [Daemon.cleanupTickets] at h
    split_ifs at h with hempty htry hgone
    · exact hexpire.trans (ih _ (hexpire.within hc) h)
    · have hfirst := activateFirstLock_sweeps o _ (hexpire.within hc)
      have hboth := hexpire.trans hfirst
      exact hboth.trans (ih _ (Sweeps.within hboth hc) h)
    · exact hexpire.trans (ih _ (hexpire.within hc) h)

theorem expireEntering_sweeps (o : QString) (l : List (QString × Ptr))
    (d : Daemon) (hl : Pending (d.fEnteringTickets.group o) l) (hc : Within readings d) :
    Sweeps readings d (Daemon.expireEntering o l d) := by
  induction l generalizing d with
  | nil => exact .refl
  | cons e rest ih =>
    obtain ⟨key, p⟩ := e
    have hfind : (d.fEnteringTickets.group o).find? key = some p := hl.found (key, p) (by simp)
    have htick : Sweeps readings d d.tick := .single (.tick d)
    unfold Daemon.expireEntering
    split_ifs with hout
    · have hgroup : ((d.tick.eraseEntering o key).fEnteringTickets.group o) =
          (d.fEnteringTickets.group o).erase key := by simp
      refine (htick.tail (.eraseEntering _ o key p d.clock.now hfind hc.now_mem hout)).trans ?_
      refine ih _ ?_ hc.tick
      rw [hgroup]
      exact hl.tail_erase
    · exact htick.trans (ih d.tick hl.tail hc.tick)

theorem cleanupEntering_sweeps (os : List QString) (d : Daemon)
    (hc : Within readings d) : Sweeps readings d (Daemon.cleanupEntering os d) := by
  induction os generalizing d with
  | nil => exact .refl
  | cons o rest ih =>
    have hexpire := expireEntering_sweeps o _ d (pending_entries _) hc
    exact hexpire.trans (ih _ (hexpire.within hc))

/-- All that `cleanup()` does is sweeping. -/
theorem cleanup_sweeps (h : d.cleanup = .ok d')
    (hc : Within readings d) : Sweeps readings d d' := by
  unfold Daemon.cleanup at h
  obtain ⟨d₁, hfirst, h⟩ := bind_eq_ok h
  cases h
  have htickets := cleanupTickets_sweeps _ d d₁ hc hfirst
  exact htickets.trans (cleanupEntering_sweeps _ d₁ (htickets.within hc))

end SnapCpp.LockDaemon
