import SnapCpp.LockCleanup
import SnapCpp.LockHandlers
import SnapCpp.Runs

/-!
What a ticket waits for. Once its ADDTICKET is acknowledged by a quorum a
ticket waits for the tickets that were entering at that time, and LOCKEXITING
is the only message that ends the wait for one of them. DROPTICKET and the
expiry of an entering record remove the record without telling the waiting
tickets; where they leave awaited records alone, every ticket waits for
entering tickets only.
-/
namespace SnapCpp.LockWaiting

open QString LockTicket LockDaemon

def Waiting (t : Ticket) : Prop := t.fAddedTicketQuorum = true ∧ t.fTicketReady = false

def CoveredBy (entering : GroupedMap QString QString Ptr) (d : Daemon) : Prop :=
  ∀ o key p, (d.fTickets.group o).find? key = some p → Waiting (d.heap p) →
    ∀ k, (d.heap p).fStillEntering.Has k → (entering.group o).Has k

def NoStaleWaiting (d : Daemon) : Prop := CoveredBy d.fEnteringTickets d

def Expires (readings : List ℤ) (t : Ticket) : Prop :=
  ∃ now ∈ readings, t.timedOut now = true ∨
    t.fTicketReady = true ∧ t.fLocked = false ∧
      ∃ earlier ∈ readings, t.fLockDuration + earlier < now

/-- A test at some reading leaves the ticket where it is. -/
def Stays (readings : List ℤ) (t : Ticket) : Prop := ∃ now ∈ readings, t.timedOut now = false

def AwaitedPast (d : Daemon) (o : QString) (readings : List ℤ) (k : QString) : Prop :=
  ∃ key p, (d.fTickets.group o).find? key = some p ∧ Waiting (d.heap p) ∧
    (d.heap p).fStillEntering.Has k ∧ Stays readings (d.heap p)

def AwaitedBut (d : Daemon) (o : QString) (except : Option QString) (k : QString) : Prop :=
  ∃ key p, some key ≠ except ∧ (d.fTickets.group o).find? key = some p ∧ Waiting (d.heap p) ∧
    (d.heap p).fStillEntering.Has k

def droppedKeys (key : QString) : Option QString × QString :=
  match splitSlash key with
  | [_, serverName, pidText] => (some key, joinSlash serverName pidText)
  | _ => (none, key)

def Undisturbed (d : Daemon) (label : Clock × Message) : Prop :=
  match label.2.command with
  | .lockEntering .. | .getMaxTicket .. =>
      ∀ o k p, (d.fEnteringTickets.group o).find? k = some p →
        Expires label.1.readings (d.heap p) → ¬ AwaitedPast d o label.1.readings k
  | .addTicket o key _ =>
      ∀ k p, KeyOf key k → (d.fEnteringTickets.group o).find? k = some p → ¬ Waiting (d.heap p)
  | .dropTicket o key => ¬ AwaitedBut d o (droppedKeys key).1 (droppedKeys key).2
  | _ => True

section Covered

variable {d d' : Daemon} {m : Message} {readings : List ℤ}
  {entering : GroupedMap QString QString Ptr}

structure SameWait (t t' : Ticket) : Prop where
  quorum : t'.fAddedTicketQuorum = t.fAddedTicketQuorum
  ready : t'.fTicketReady = t.fTicketReady
  still : t'.fStillEntering = t.fStillEntering

theorem SameWait.refl (t : Ticket) : SameWait t t := ⟨rfl, rfl, rfl⟩

theorem SameWait.trans {a b c : Ticket} (hab : SameWait a b) (hbc : SameWait b c) : SameWait a c :=
  ⟨hbc.quorum.trans hab.quorum, hbc.ready.trans hab.ready, hbc.still.trans hab.still⟩

theorem CoveredBy.shrink (hd : CoveredBy entering d)
    (htickets : ∀ o key p, (d'.fTickets.group o).find? key = some p →
      (d.fTickets.group o).find? key = some p ∧ SameWait (d.heap p) (d'.heap p)) :
    CoveredBy entering d' := by
  intro o key p hfind hwait k hk
  obtain ⟨hold, hsame⟩ := htickets o key p hfind
  refine hd o key p hold ?_ k ?_
  · rwa [Waiting, hsame.quorum, hsame.ready] at hwait
  · rwa [hsame.still] at hk

theorem CoveredBy.grow {entering' : GroupedMap QString QString Ptr}
    (hd : CoveredBy entering d)
    (hsub : ∀ o k, (entering.group o).Has k → (entering'.group o).Has k) :
    CoveredBy entering' d :=
  fun o key p hfind hwait k hk => hsub o k (hd o key p hfind hwait k hk)

theorem sameWait_store {d : Daemon} {p : Ptr} {r : Ticket × List Message}
    (h : SameWait (d.heap p) r.1) (q : Ptr) : SameWait (d.heap q) ((d.store p r).heap q) := by
  rw [store_heap]
  split_ifs with hq
  · exact hq ▸ h
  · exact SameWait.refl _

theorem lockFailed_sameWait (h : Host) (t : Ticket) : SameWait t (t.lockFailed h).1 := by
  rcases t.lockFailed_cases h with hr | ⟨-, -, hr⟩ | ⟨-, -, hr⟩
  all_goals
    rw [hr]
    exact ⟨rfl, rfl, rfl⟩

theorem activateLock_sameWait (h : Host) (c : Clock) (t : Ticket) :
    SameWait t (t.activateLock h c).1 := by
  rcases t.activateLock_cases h c with ⟨hr, -⟩ | ⟨-, -, -, -, hr⟩
  all_goals
    rw [hr]
    exact ⟨rfl, rfl, rfl⟩

theorem entered_sameWait (h : Host) (t : Ticket) : SameWait t (t.entered h).1 := by
  rcases t.entered_cases h with ⟨-, hr⟩ | ⟨-, -, hr⟩ | ⟨-, -, hr⟩
  all_goals
    rw [hr]
    exact ⟨rfl, rfl, rfl⟩

theorem maxTicket_sameWait {h : Host} {t : Ticket} {n : ℤ} {r : Ticket × List Message}
    (hr : t.maxTicket n h = .ok r) : SameWait t r.1 := by
  rcases t.maxTicket_cases h n with ⟨-, hcase⟩ | ⟨-, -, hcase⟩ | ⟨-, -, hcase⟩
  all_goals
    rw [hr] at hcase
    cases hcase
    exact ⟨rfl, rfl, rfl⟩

theorem sweep_sameWait (h : Sweep readings d d') (p : Ptr) :
    SameWait (d.heap p) (d'.heap p) := by
  cases h with
  | fail o key q hfind => exact sameWait_store (lockFailed_sameWait d.host _) p
  | activate o key q hfind =>
    exact sameWait_store (r := (_, _)) (activateLock_sameWait d.host d.clock _) p
  | _ => exact SameWait.refl _

theorem sweeps_coveredBy (h : Sweeps readings d d') (hd : CoveredBy entering d) :
    CoveredBy entering d' :=
  h.invariant (CoveredBy entering) hd (fun _ _ ha hab => ha.shrink
    (fun o key p hfind => ⟨hab.shrunk.tickets o key p hfind, sweep_sameWait hab p⟩))

end Covered

section Expiry

variable {d d' : Daemon} {readings : List ℤ}

/-- How activations and failures of one step change the deadline of a ticket. -/
structure Aged (readings : List ℤ) (t t' : Ticket) : Prop where
  obtention : t'.fObtentionTimeout = t.fObtentionTimeout
  duration : t'.fLockDuration = t.fLockDuration
  ready : t'.fTicketReady = t.fTicketReady
  locked : t'.fLocked = t.fLocked ∧ t'.fLockTimeout = t.fLockTimeout ∨
    t.fTicketReady = true ∧ t.fLocked = false ∧ t'.fLocked = true ∧
      ∃ earlier ∈ readings, t'.fLockTimeout = t.fLockDuration + earlier

theorem Aged.refl (t : Ticket) : Aged readings t t := ⟨rfl, rfl, rfl, Or.inl ⟨rfl, rfl⟩⟩

theorem Aged.trans {a b c : Ticket} (hab : Aged readings a b) (hbc : Aged readings b c) :
    Aged readings a c := by
  refine ⟨hbc.obtention.trans hab.obtention, hbc.duration.trans hab.duration,
    hbc.ready.trans hab.ready, ?_⟩
  rcases hab.locked with ⟨hl, ht⟩ | ⟨hr, hf, hl, e, he, ht⟩
  · rcases hbc.locked with ⟨hl', ht'⟩ | ⟨hr', hf', hl', e', he', ht'⟩
    · exact Or.inl ⟨hl'.trans hl, ht'.trans ht⟩
    · refine Or.inr ⟨?_, ?_, hl', e', he', ?_⟩
      · rw [← hab.ready]
        exact hr'
      · rw [← hl]
        exact hf'
      · rw [ht', hab.duration]
  · rcases hbc.locked with ⟨hl', ht'⟩ | ⟨-, hf', -⟩
    · exact Or.inr ⟨hr, hf, hl'.trans hl, e, he, ht'.trans ht⟩
    · rw [hl] at hf'
      cases hf'

theorem Aged.timedOut {t t' : Ticket} (h : Aged readings t t') {now : ℤ} (hnow : now ∈ readings)
    (hout : t'.timedOut now = true) : Expires readings t := by
  refine ⟨now, hnow, ?_⟩
  rcases h.locked with ⟨hl, ht⟩ | ⟨hr, hf, hl, e, he, ht⟩
  · exact Or.inl (by rwa [Ticket.timedOut, hl, ht, h.obtention] at hout)
  · refine Or.inr ⟨hr, hf, e, he, ?_⟩
    simpa [Ticket.timedOut, hl, ht] using hout

theorem Aged.stays {t t' : Ticket} (h : Aged readings t t') (hready : t.fTicketReady = false)
    (hstays : Stays readings t') : Stays readings t := by
  obtain ⟨now, hnow, hout⟩ := hstays
  rcases h.locked with ⟨hl, ht⟩ | ⟨hr, -⟩
  · exact ⟨now, hnow, by rwa [Ticket.timedOut, hl, ht, h.obtention] at hout⟩
  · rw [hready] at hr
    cases hr

theorem aged_store {d : Daemon} {p : Ptr} {r : Ticket × List Message}
    (h : Aged readings (d.heap p) r.1) (q : Ptr) :
    Aged readings (d.heap q) ((d.store p r).heap q) := by
  rw [store_heap]
  split_ifs with hq
  · exact hq ▸ h
  · exact Aged.refl _

theorem lockFailed_aged (h : Host) (t : Ticket) : Aged readings t (t.lockFailed h).1 := by
  rcases t.lockFailed_cases h with hr | ⟨-, -, hr⟩ | ⟨-, -, hr⟩
  all_goals
    rw [hr]
    exact ⟨rfl, rfl, rfl, Or.inl ⟨rfl, rfl⟩⟩

theorem activateLock_aged (h : Host) {c : Clock} (hc : c.now ∈ readings) (t : Ticket) :
    Aged readings t (t.activateLock h c).1 := by
  rcases t.activateLock_cases h c with ⟨hr, -⟩ | ⟨hready, hlocked, -, -, hr⟩
  · rw [hr]
    exact Aged.refl t
  · rw [hr]
    exact ⟨rfl, rfl, rfl, Or.inr ⟨hready, hlocked, rfl, c.now, hc, rfl⟩⟩

theorem sweep_aged (h : Sweep readings d d') (hc : Within readings d) (p : Ptr) :
    Aged readings (d.heap p) (d'.heap p) := by
  cases h with
  | fail o key q hfind => exact aged_store (lockFailed_aged d.host _) p
  | activate o key q hfind =>
    exact aged_store (r := (_, _)) (activateLock_aged d.host hc.now_mem _) p
  | _ => exact Aged.refl _

theorem sweeps_aged (h : Sweeps readings d d') (hc : Within readings d) (p : Ptr) :
    Aged readings (d.heap p) (d'.heap p) := by
  have hinv := h.invariant (fun x => Within readings x ∧ Aged readings (d.heap p) (x.heap p))
    ⟨hc, Aged.refl _⟩ (fun a b ha hab => ⟨hab.within ha.1, ha.2.trans (sweep_aged hab ha.1 p)⟩)
  exact hinv.2

/-- A record whose ticket does not expire is still there. -/
theorem sweeps_keep (h : Sweeps readings d d') (hc : Within readings d) {o k : QString} {p : Ptr}
    (hfind : (d.fEnteringTickets.group o).find? k = some p)
    (halive : ¬ Expires readings (d.heap p)) :
    (d'.fEnteringTickets.group o).find? k = some p := by
  have hinv := h.invariant (fun x => Within readings x ∧ Aged readings (d.heap p) (x.heap p) ∧
      (x.fEnteringTickets.group o).find? k = some p) ⟨hc, Aged.refl _, hfind⟩ ?_
  · exact hinv.2.2
  · rintro a b ⟨hwithin, haged, hkept⟩ hab
    refine ⟨hab.within hwithin, haged.trans (sweep_aged hab hwithin p), ?_⟩
    cases hab with
    | eraseEntering o' k' q now hq hnow hout =>
      rw [eraseEntering_group]
      split_ifs with ho
      · subst ho
        rw [OrderedMap.find?_erase]
        split_ifs with hk
        · subst hk
          rw [hkept] at hq
          cases hq
          exact absurd (haged.timedOut hnow hout) halive
        · exact hkept
      · exact hkept
    | _ => exact hkept

theorem survivors_stays (heap : Ptr → Ticket) (l : List (QString × Ptr)) (c : Clock)
    (hc : ∀ t ∈ c.readings, t ∈ readings) {e : QString × Ptr} (he : e ∈ survivors heap l c) :
    Stays readings (heap e.2) := by
  induction l generalizing c with
  | nil => cases he
  | cons a rest ih =>
    have hnext : ∀ t ∈ c.next.readings, t ∈ readings := fun t ht => hc t (c.readings_next t ht)
    rw [survivors] at he
    split_ifs at he with hout
    · exact ih _ hnext he
    · rcases List.mem_cons.mp he with rfl | hrest
      · exact ⟨c.now, hc _ c.now_mem_readings, by simpa using hout⟩
      · exact ih _ hnext hrest

variable {o key : QString} {p : Ptr}

/-- A turn tests every ticket of its object. -/
theorem visit_stays (h : d.visit o = .ok d') (hc : Within readings d)
    (hfind : (d'.fTickets.group o).find? key = some p) : Stays readings (d.heap p) := by
  obtain ⟨hleft, -⟩ := expireTickets_spec (d.fTickets.group o).entries [] false d rfl
  have hexpire := expireTickets_sweeps o _ false d (pending_entries (d.fTickets.group o)) hc
  have hfirst : ((Daemon.expireTickets o (d.fTickets.group o).entries false d).2.fTickets.group
      o).find? key = some p := by
    simp only [Daemon.visit] at h
    split_ifs at h
    · rwa [Except.ok.inj h]
    · rw [← Except.ok.inj h] at hfind
      exact (activateFirstLock_sweeps o _ (hexpire.within hc)).shrunk.tickets o key p hfind
    · rwa [Except.ok.inj h]
  have hmem := (OrderedMap.mem_entries_iff _ key p).mpr hfirst
  rw [hleft] at hmem
  exact survivors_stays d.heap _ d.clock hc hmem

theorem cleanupTickets_stays (names : List QString) (d : Daemon)
    (h : Daemon.cleanupTickets names d = .ok d') (hc : Within readings d) (ho : o ∈ names)
    (hfind : (d'.fTickets.group o).find? key = some p)
    (hready : (d.heap p).fTicketReady = false) : Stays readings (d.heap p) := by
  induction names generalizing d with
  | nil => cases ho
  | cons a rest ih =>
    rw [cleanupTickets_cons] at h
    obtain ⟨d₁, hvisit, hrun⟩ := bind_eq_ok h
    have hturn : Sweeps readings d d₁ :=
      cleanupTickets_sweeps [a] d d₁ hc (by rw [cleanupTickets_cons, hvisit]; rfl)
    have hwithin := hturn.within hc
    rcases List.mem_cons.mp ho with rfl | hrest
    · have hback := (cleanupTickets_sweeps rest d₁ d' hwithin hrun).shrunk.tickets o key p hfind
      exact visit_stays hvisit hc hback
    · have haged := sweeps_aged hturn hc p
      exact haged.stays hready (ih d₁ hrun hwithin hrest (haged.ready.trans hready))

theorem cleanup_stays (h : d.cleanup = .ok d') (hc : Within readings d)
    (hfind : (d'.fTickets.group o).find? key = some p)
    (hready : (d.heap p).fTicketReady = false) : Stays readings (d.heap p) := by
  have hold := (cleanup_sweeps h hc).shrunk.tickets o key p hfind
  obtain ⟨d₁, hfirst, h⟩ := bind_eq_ok h
  obtain rfl := Except.ok.inj h
  have hwithin := (cleanupTickets_sweeps _ d d₁ hc hfirst).within hc
  have hback := (cleanupEntering_sweeps d₁.fEnteringTickets.names d₁ hwithin).shrunk.tickets
    o key p hfind
  refine cleanupTickets_stays _ d hfirst hc ?_ hback hready
  exact (GroupedMap.mem_names_iff _ o).mpr
    (List.ne_nil_of_mem ((OrderedMap.mem_entries_iff _ key p).mpr hold))

end Expiry

section Exiting

variable {d : Daemon} {key : QString} {p : Ptr}

structure Relaxed (t t' : Ticket) : Prop where
  waiting : Waiting t' → Waiting t
  still : ∀ k, t'.fStillEntering.Has k → t.fStillEntering.Has k

theorem Relaxed.refl (t : Ticket) : Relaxed t t := ⟨fun h => h, fun _ h => h⟩

theorem Relaxed.trans {a b c : Ticket} (hab : Relaxed a b) (hbc : Relaxed b c) : Relaxed a c :=
  ⟨fun h => hab.waiting (hbc.waiting h), fun k h => hab.still k (hbc.still k h)⟩

theorem dropTimedOut_has (heap : Ptr → Ticket) (l : List (QString × Ptr))
    (still : OrderedMap QString Ptr) (c : Clock) {k : QString}
    (h : (Ticket.dropTimedOut heap l still c).1.Has k) : still.Has k := by
  obtain ⟨p, hp⟩ := Option.ne_none_iff_exists'.mp h
  have hfind := Ticket.dropTimedOut_sub c heap l still k p hp
  exact Option.ne_none_iff_exists'.mpr ⟨p, hfind⟩

theorem has_erase {m : OrderedMap QString Ptr} {key k : QString} :
    (m.erase key).Has k ↔ k ≠ key ∧ m.Has k := by
  unfold OrderedMap.Has
  rw [OrderedMap.find?_erase]
  split_ifs with hk
  · simp [hk]
  · simp [hk]

theorem removeEntering_relaxed (heap : Ptr → Ticket) (key : QString) (c : Clock) (t : Ticket) :
    Relaxed t (t.removeEntering heap key c).1 := by
  rcases t.removeEntering_cases c heap key with ⟨hr, -⟩ | ⟨hquorum, hready, -, hr⟩
  · rw [hr]
    exact Relaxed.refl t
  · rw [hr]
    exact ⟨fun _ => ⟨hquorum, hready⟩, fun k hk => (has_erase.mp (dropTimedOut_has _ _ _ _ hk)).2⟩

theorem removeEntering_clears (heap : Ptr → Ticket) (key : QString) (c : Clock) (t : Ticket)
    (hwait : Waiting t) : ¬ (t.removeEntering heap key c).1.fStillEntering.Has key := by
  rcases t.removeEntering_cases c heap key with ⟨hr, hquorum | hready | hhas⟩ | ⟨-, -, -, hr⟩
  · rw [hwait.1] at hquorum
    cases hquorum
  · rw [hwait.2] at hready
    cases hready
  · rwa [hr]
  · rw [hr]
    intro hk
    exact (has_erase.mp (dropTimedOut_has _ _ _ _ hk)).1 rfl

theorem removeEntering_heap_relaxed (d : Daemon) (key : QString) (p q : Ptr) :
    Relaxed (d.heap q) ((d.removeEntering key p).heap q) := by
  rw [removeEntering_heap]
  split_ifs with hq
  · subst hq
    exact removeEntering_relaxed ..
  · exact Relaxed.refl _

theorem loop_relaxed (l : List (QString × Ptr)) (d : Daemon) (key : QString) (q : Ptr) :
    Relaxed (d.heap q) ((l.foldl (fun x e => x.removeEntering key e.2) d).heap q) :=
  foldl_removeEntering (fun x => Relaxed (d.heap q) (x.heap q)) d key l (Relaxed.refl _)
    (fun x p _ hx => hx.trans (removeEntering_heap_relaxed x key p q))

theorem loop_clears (l : List (QString × Ptr)) (d : Daemon) (key : QString) (e : QString × Ptr)
    (he : e ∈ l) (hwait : Waiting (d.heap e.2)) :
    ¬ ((l.foldl (fun x e => x.removeEntering key e.2) d).heap e.2).fStillEntering.Has key := by
  induction l generalizing d with
  | nil => cases he
  | cons a rest ih =>
    rw [List.foldl_cons]
    by_cases ha : e.2 = a.2
    · intro hk
      have hfirst := (loop_relaxed rest (d.removeEntering key a.2) key e.2).still key hk
      rw [removeEntering_heap, if_pos ha] at hfirst
      rw [ha] at hwait
      exact removeEntering_clears d.heap key d.clock _ hwait hfirst
    · have hrest : e ∈ rest := by
        rcases List.mem_cons.mp he with rfl | hrest
        · exact absurd rfl ha
        · exact hrest
      refine ih (d.removeEntering key a.2) hrest ?_
      rwa [removeEntering_heap, if_neg ha]

theorem loop_frame (l : List (QString × Ptr)) (d : Daemon) (key : QString) :
    (l.foldl (fun x e => x.removeEntering key e.2) d).fTickets = d.fTickets ∧
      (l.foldl (fun x e => x.removeEntering key e.2) d).fEnteringTickets = d.fEnteringTickets :=
  foldl_removeEntering (fun x => x.fTickets = d.fTickets ∧
    x.fEnteringTickets = d.fEnteringTickets) d key l ⟨rfl, rfl⟩ (fun _ _ _ hx => hx)

theorem loop_coveredBy (d : Daemon) (o key : QString) (hd : NoStaleWaiting d) :
    CoveredBy (d.eraseEntering o key).fEnteringTickets
      ((d.fTickets.group o).entries.foldl (fun x e => x.removeEntering key e.2)
        (d.eraseEntering o key)) := by
  intro o' key' p hfind hwait k hk
  rw [(loop_frame _ _ key).1] at hfind
  have hrelaxed := loop_relaxed (d.fTickets.group o).entries (d.eraseEntering o key) key p
  have hold : Waiting (d.heap p) := hrelaxed.waiting hwait
  have hcovered := hd o' key' p hfind hold k (hrelaxed.still k hk)
  rw [eraseEntering_group]
  split_ifs with ho
  · subst ho
    refine has_erase.mpr ⟨?_, hcovered⟩
    rintro rfl
    have hmem := (OrderedMap.mem_entries_iff _ key' p).mpr hfind
    exact loop_clears _ (d.eraseEntering o' k) k (key', p) hmem hold hk
  · exact hcovered

end Exiting

section Steps

variable {d d' : Daemon} {m : Message} {o key : QString} {timeout : Option ℤ}

theorem assign_has (g : GroupedMap QString QString Ptr) (o key : QString) (p : Ptr) (o' k : QString)
    (h : (g.group o').Has k) : ((g.assign o key p).group o').Has k := by
  rw [GroupedMap.group_assign]
  split_ifs with ho
  · subst ho
    unfold OrderedMap.Has at *
    rw [OrderedMap.find?_insert]
    split_ifs
    · simp
    · exact h
  · exact h

theorem create_covered (hd : NoStaleWaiting d) (hf : Filed d) (o key : QString) (t : Ticket) :
    NoStaleWaiting ((d.allocate t).putEntering o key d.next) := by
  refine CoveredBy.grow ?_ (assign_has d.fEnteringTickets o key d.next)
  refine hd.shrink (fun o' key' p hfind => ⟨hfind, ?_⟩)
  have hne : p ≠ d.next := ne_of_lt (hf.ticket_lt o' key' p hfind)
  have hheap : ((d.allocate t).putEntering o key d.next).heap p = d.heap p := by
    simp [Daemon.putEntering, Daemon.allocate, hne]
  rw [hheap]
  exact SameWait.refl _

theorem cleanup_noStaleWaiting {readings : List ℤ} (h : d.cleanup = .ok d')
    (hc : Within readings d) (hd : NoStaleWaiting d)
    (hexpire : ∀ o k p, (d.fEnteringTickets.group o).find? k = some p →
      Expires readings (d.heap p) → ¬ AwaitedPast d o readings k) : NoStaleWaiting d' := by
  intro o key p hfind hwait k hk
  have hsweeps := cleanup_sweeps h hc
  have hcovered := sweeps_coveredBy hsweeps hd o key p hfind hwait k hk
  obtain ⟨q, hq⟩ := Option.ne_none_iff_exists'.mp hcovered
  have hold := hsweeps.shrunk.tickets o key p hfind
  have hsame : SameWait (d.heap p) (d'.heap p) :=
    hsweeps.invariant (fun x => SameWait (d.heap p) (x.heap p)) (SameWait.refl _)
      (fun a b ha hab => ha.trans (sweep_sameWait hab p))
  rw [Waiting, hsame.quorum, hsame.ready] at hwait
  rw [hsame.still] at hk
  have hstays := cleanup_stays h hc hfind hwait.2
  have hkept := sweeps_keep hsweeps hc hq
    (fun hexp => hexpire o k q hq hexp ⟨key, p, hold, hwait, hk, hstays⟩)
  exact Option.ne_none_iff_exists'.mpr ⟨q, hkept⟩

theorem lock_noStaleWaiting {pid duration : ℤ} (h : d.lock m o pid timeout duration = .ok d')
    (hf : Filed d) (hd : NoStaleWaiting d) :
    NoStaleWaiting d' := by
  obtain ⟨-, c, -, rfl | ⟨deadline, t, rfl, -, rfl⟩⟩ := lock_cases h
  · exact hd
  · exact create_covered (d := d.withClock c) hd (hf.withClock c) o _ _

theorem lockEntering_noStaleWaiting {source : QString} {duration : ℤ}
    (h : d.lockEntering m o key timeout duration source = .ok d')
    (hf : Filed d) (hd : NoStaleWaiting d)
    (hexpire : ∀ o k p, (d.fEnteringTickets.group o).find? k = some p →
      Expires d.clock.readings (d.heap p) → ¬ AwaitedPast d o d.clock.readings k) :
    NoStaleWaiting d' := by
  obtain ⟨-, c, d₁, hc, hclean, hcases⟩ := lockEntering_cases h
  have hwithin := Sweeps.within hc (within_self d)
  rcases hcases with ⟨-, rfl⟩ | ⟨-, rfl⟩ | ⟨hnew, deadline, serverName, serviceName, -, -, rfl⟩
  · exact cleanup_noStaleWaiting hclean hwithin hd hexpire
  · exact cleanup_noStaleWaiting hclean hwithin hd hexpire
  · refine cleanup_noStaleWaiting hclean hwithin
      (create_covered (d := d.withClock c) hd (hf.withClock c) o key _) ?_
    -- an awaited record was there before, so it is not the one just created
    rintro o' k p hfind hexp ⟨key', q, hq, hwait, hk, hstays⟩
    have hqlt := hf.ticket_lt o' key' q hq
    have hheap : ∀ x, x < d.next → (((d.withClock c).allocate (Ticket.create o key deadline
        (int32 duration) serverName serviceName)).putEntering o key d.next).heap x =
        d.heap x := by
      intro x hx
      simp [Daemon.putEntering, Daemon.allocate, ne_of_lt hx]
    have hwait' : Waiting (d.heap q) := hheap q hqlt ▸ hwait
    have hk' : (d.heap q).fStillEntering.Has k := hheap q hqlt ▸ hk
    have hold := hd o' key' q hq hwait' k hk'
    rcases putEntering_find hfind with ⟨rfl, rfl, -⟩ | hfind'
    · exact hnew hold
    · have hp : p < d.next := hf.entering_lt o' k p hfind'
      have hexp' : Expires d.clock.readings (d.heap p) := hheap p hp ▸ hexp
      exact hexpire o' k p hfind' hexp' ⟨key', q, hq, hwait', hk', hheap q hqlt ▸ hstays⟩

theorem store_noStaleWaiting {p : Ptr} {r : Ticket × List Message} (hd : NoStaleWaiting d)
    (h : SameWait (d.heap p) r.1) : NoStaleWaiting (d.store p r) :=
  CoveredBy.shrink hd (fun _ _ q hfind => ⟨hfind, sameWait_store h q⟩)

theorem addTicket_noStaleWaiting (h : d.addTicket m o key timeout = .ok d') (hd : NoStaleWaiting d)
    (hnew : ∀ k p, KeyOf key k → (d.fEnteringTickets.group o).find? k = some p →
      ¬ Waiting (d.heap p)) : NoStaleWaiting d' := by
  obtain ⟨c, number, serverName, pidText, rest, p, -, hsplit, hfind, rfl⟩ := addTicket_cases h
  intro o' key' q hq hwait k hk
  rcases putTicket_find hq with ⟨rfl, rfl, rfl⟩ | hold
  · exact absurd hwait (hnew _ q ⟨number, serverName, pidText, rest, hsplit, rfl⟩ hfind)
  · exact hd o' key' q hold hwait k hk

/-- The awaited records are those of the object at the time of the quorum. -/
theorem ticketAdded_noStaleWaiting (h : d.ticketAdded o key = .ok d')
    (hf : Filed d) (hd : NoStaleWaiting d) : NoStaleWaiting d' := by
  obtain ⟨rfl, -⟩ | ⟨p, hfind, -, rfl⟩ := ticketAdded_cases h
  · exact hd
  · rcases (d.heap p).ticketAdded_cases d.host (d.fEnteringTickets.group o) with
      ⟨-, hr⟩ | ⟨-, -, hr⟩ | ⟨-, -, hr⟩
    · rw [hr]
      exact store_noStaleWaiting hd (SameWait.refl _)
    · rw [hr]
      exact store_noStaleWaiting hd ⟨rfl, rfl, rfl⟩
    · rw [hr]
      intro o' key' q hq hwait k hk
      by_cases hqp : q = p
      · subst hqp
        have ho : o' = o := by
          rw [← hf.ticket_object o' key' q hq, hf.ticket_object o key q hfind]
        subst ho
        simpa [Daemon.store, Daemon.setTicket, Daemon.post] using hk
      · simp only [Daemon.store, Daemon.setTicket, Daemon.post, Function.update_of_ne hqp]
          at hwait hk
        exact hd o' key' q hq hwait k hk

theorem lockExiting_noStaleWaiting (h : d.lockExiting o key = .ok d')
    (hd : NoStaleWaiting d) : NoStaleWaiting d' := by
  rcases lockExiting_cases h with ⟨-, rfl⟩ | ⟨-, rfl⟩
  · exact hd
  · have hsweeps := activateFirstLock_sweeps o _ (within_self
      ((d.fTickets.group o).entries.foldl (fun x e => x.removeEntering key e.2)
        (d.eraseEntering o key)))
    have hcovered := sweeps_coveredBy hsweeps (loop_coveredBy d o key hd)
    rw [NoStaleWaiting, activateFirstLock_fEnteringTickets, (loop_frame _ _ key).2]
    exact hcovered

theorem dropTicket_noStaleWaiting (h : d.dropTicket o key = .ok d')
    (hd : NoStaleWaiting d)
    (hdrop : ¬ AwaitedBut d o (droppedKeys key).1 (droppedKeys key).2) : NoStaleWaiting d' := by
  have hkeep : ∀ x : Daemon, CoveredBy d.fEnteringTickets x →
      x.fEnteringTickets = d.fEnteringTickets →
      (∀ key' p, (x.fTickets.group o).find? key' = some p →
        some key' ≠ (droppedKeys key).1 ∧ (d.fTickets.group o).find? key' = some p ∧
          SameWait (d.heap p) (x.heap p)) →
      NoStaleWaiting (x.eraseEntering o (droppedKeys key).2) := by
    intro x hx hentering hback o' key' p hfind hwait k hk
    have hcovered := hx o' key' p hfind hwait k hk
    rw [eraseEntering_group, hentering]
    split_ifs with ho
    · subst ho
      refine has_erase.mpr ⟨?_, hcovered⟩
      rintro rfl
      obtain ⟨hne, hold, hsame⟩ := hback key' p hfind
      refine hdrop ⟨key', p, hne, hold, ?_, ?_⟩
      · rwa [eraseEntering_heap, Waiting, hsame.quorum, hsame.ready] at hwait
      · rwa [eraseEntering_heap, hsame.still] at hk
    · exact hcovered
  rcases dropTicket_cases h with ⟨number, serverName, pidText, hsplit, rfl⟩ | ⟨rfl, hlength⟩
  · have hkeys : droppedKeys key = (some key, joinSlash serverName pidText) := by
      simp [droppedKeys, hsplit]
    have hsweeps := activateFirstLock_sweeps o _ (within_self (d.eraseTicket o key))
    have herase : CoveredBy d.fEnteringTickets (d.eraseTicket o key) :=
      hd.shrink (fun o' key' p hfind =>
        ⟨(eraseTicket_shrunk d o key).tickets o' key' p hfind, SameWait.refl _⟩)
    have hback := hsweeps.invariant (fun x => ∀ key' p, (x.fTickets.group o).find? key' = some p →
      some key' ≠ some key ∧ (d.fTickets.group o).find? key' = some p ∧
        SameWait (d.heap p) (x.heap p)) ?_ ?_
    · rw [hkeys] at hkeep
      exact hkeep _ (sweeps_coveredBy hsweeps herase) (by simp) hback
    · intro key' p hfind
      rw [eraseTicket_group, if_pos rfl, OrderedMap.find?_erase] at hfind
      split_ifs at hfind with hk
      exact ⟨by simpa using hk, hfind, SameWait.refl _⟩
    · intro a b ha hab key' p hfind
      obtain ⟨hne, hold, hsame⟩ := ha key' p (hab.shrunk.tickets o key' p hfind)
      exact ⟨hne, hold, hsame.trans (sweep_sameWait hab p)⟩
  · have hkeys : droppedKeys key = (none, key) := by
      unfold droppedKeys
      split
      · rename_i a b c hsplit
        rw [hsplit] at hlength
        exact absurd rfl hlength
      · rfl
    rw [hkeys] at hkeep
    exact hkeep d hd rfl (fun _ _ hfind => ⟨nofun, hfind, SameWait.refl _⟩)

def UndisturbedStep (d : Daemon) (label : Clock × Message) (d' : Daemon) : Prop :=
  Undisturbed d label ∧ (d.withClock label.1).processMessage label.2 = .ok d'

theorem undisturbedStep_noStaleWaiting {label : Clock × Message}
    (h : UndisturbedStep d label d') (hf : Filed d) (hd : NoStaleWaiting d) :
    NoStaleWaiting d' := by
  obtain ⟨c, m⟩ := label
  obtain ⟨hquiet, hprocess⟩ := h
  have hf' : Filed (d.withClock c) := hf.withClock c
  have hd' : NoStaleWaiting (d.withClock c) := hd
  simp only [Daemon.processMessage] at hprocess
  simp only [Undisturbed] at hquiet
  split at hprocess <;> rename_i hm <;> simp only [hm] at hquiet
  · exact lock_noStaleWaiting hprocess hf' hd'
  · obtain ⟨-, rfl | ⟨key, p, -, -, -, rfl⟩⟩ := unlock_cases hprocess
    · exact hd'
    · exact hd'
  · exact lockEntering_noStaleWaiting hprocess hf' hd' hquiet
  · obtain ⟨-, rfl⟩ | ⟨p, -, rfl⟩ := lockEntered_cases hprocess
    · exact hd'
    · exact store_noStaleWaiting hd' (entered_sameWait _ _)
  · obtain ⟨d₁, hclean, rfl⟩ := getMaxTicket_cases hprocess
    have hclear : NoStaleWaiting d₁ :=
      cleanup_noStaleWaiting hclean (within_self _) hd' hquiet
    exact hclear
  · obtain ⟨-, rfl⟩ | ⟨p, r, -, hr, rfl⟩ := maxTicket_cases hprocess
    · exact hd'
    · exact store_noStaleWaiting hd' (maxTicket_sameWait hr)
  · exact addTicket_noStaleWaiting hprocess hd' hquiet
  · exact ticketAdded_noStaleWaiting hprocess hf' hd'
  · exact lockExiting_noStaleWaiting hprocess hd'
  · exact dropTicket_noStaleWaiting hprocess hd' hquiet
  · obtain ⟨-, ⟨-, rfl⟩ | ⟨-, -, rfl⟩ | ⟨-, -, rfl⟩⟩ := lockReady_cases hprocess
    · exact hd'
    · exact hd'
    · exact hd'
  · cases hprocess
    unfold Daemon.lockGone
    split_ifs
    · exact hd'
    · exact hd'
  · cases hprocess
    unfold Daemon.interpretStatus
    split_ifs
    · exact hd'
    · exact hd'
  · cases hprocess
    exact hd'
  · cases hprocess
    exact hd'
  · cases hprocess
    exact hd'

end Steps

theorem lockExiting_ends_wait {d d' : Daemon} {o key k : QString} {p : Ptr}
    (hfind : (d.fTickets.group o).find? key = some p) (hwait : Waiting (d.heap p))
    (hentering : (d.fEnteringTickets.group o).Has k) (h : d.lockExiting o k = .ok d') :
    ¬ (d'.heap p).fStillEntering.Has k := by
  rcases lockExiting_cases h with ⟨hnot, -⟩ | ⟨-, rfl⟩
  · exact absurd hentering hnot
  · have hclear := loop_clears (d.fTickets.group o).entries (d.eraseEntering o k) k (key, p)
      ((OrderedMap.mem_entries_iff _ key p).mpr hfind) hwait
    have hsame := (activateFirstLock_sweeps o _ (within_self
      ((d.fTickets.group o).entries.foldl (fun x e => x.removeEntering k e.2)
        (d.eraseEntering o k)))).invariant
      (fun x => ¬ (x.heap p).fStillEntering.Has k) hclear ?_
    · exact hsame
    · intro a b ha hab
      rwa [(sweep_sameWait hab p).still]

/-- In every run whose messages leave awaited records alone, tickets wait for
entering tickets only, and the LOCKEXITING of such a ticket ends the wait. -/
theorem noStaleWaiting_of_undisturbed (server : QString) (computers : OrderedMap QString Bool)
    (c : Clock) (labels : List (Clock × Message)) (d : Daemon)
    (h : Runs UndisturbedStep { fServerName := server, fComputers := computers, clock := c }
      labels d) :
    NoStaleWaiting d ∧ ∀ o key p k, (d.fTickets.group o).find? key = some p →
      Waiting (d.heap p) → (d.heap p).fStillEntering.Has k →
      ∀ c' d', (d.withClock c').lockExiting o k = .ok d' →
        ¬ (d'.heap p).fStillEntering.Has k := by
  obtain ⟨-, hd⟩ := h.invariant (fun x => Filed x ∧ NoStaleWaiting x)
    ⟨filed_start server computers c, by simp [NoStaleWaiting, CoveredBy]⟩
    (fun a label b ha hstep => ⟨processMessage_filed hstep.2 (ha.1.withClock label.1),
      undisturbedStep_noStaleWaiting hstep ha.1 ha.2⟩)
  refine ⟨hd, fun o key p k hfind hwait hk c' d' hexit => ?_⟩
  exact lockExiting_ends_wait (d := d.withClock c') hfind hwait (hd o key p hfind hwait k hk) hexit

def afterMessage (d : Daemon) (label : Clock × Message) : Daemon :=
  match (d.withClock label.1).processMessage label.2 with
  | .ok d' => d'
  | .error _ => d

theorem undisturbedStep_afterMessage (d : Daemon) (label : Clock × Message)
    (hquiet : Undisturbed d label)
    (hok : ((d.withClock label.1).processMessage label.2).isOk = true) :
    UndisturbedStep d label (afterMessage d label) := by
  refine ⟨hquiet, ?_⟩
  unfold afterMessage
  split
  · assumption
  · rename_i hresult
    rw [hresult] at hok
    cases hok

def aloneLock : Message :=
  { sentFromServer := [97], sentFromService := [99], command := .lock [111] 1 (some 100) 10 }

def aloneEntered : Message := { command := .lockEntered [111] [97, 47, 49] }

def aloneMax : Message := { command := .maxTicket [111] [97, 47, 49] 0 }

def aloneAdd : Message :=
  { command := .addTicket [111] (Ticket.ticketKeyOf 1 [97, 47, 49]) (some 100) }

def aloneAdded : Message := { command := .ticketAdded [111] (Ticket.ticketKeyOf 1 [97, 47, 49]) }

def aloneStart : Daemon :=
  { fServerName := [97], fComputers := OrderedMap.empty.insert [97] true, clock := ⟨0, []⟩ }

def aloneBefore : Daemon :=
  [aloneLock, aloneEntered, aloneMax].foldl (fun d m => afterMessage d (⟨0, []⟩, m)) aloneStart

theorem aloneBefore_undisturbed : Undisturbed aloneBefore (⟨0, []⟩, aloneAdd) := by
  rintro k p ⟨number, serverName, pidText, rest, hsplit, rfl⟩ hfind hwait
  have hkey : splitSlash (Ticket.ticketKeyOf 1 [97, 47, 49]) =
      [[48, 48, 48, 48, 48, 48, 48, 49], [97], [49]] := by decide
  rw [hkey] at hsplit
  cases hsplit
  have hrecord : (aloneBefore.fEnteringTickets.group [111]).find? (joinSlash [97] [49]) =
      some 0 := by decide
  rw [hrecord] at hfind
  cases hfind
  have hflag : (aloneBefore.heap 0).fAddedTicketQuorum = false := by decide
  rw [hwait.1] at hflag
  cases hflag

/-- The ticket of a client alone waits for its own LOCKEXITING. -/
theorem noStaleWaiting_of_undisturbed_alone :
    ∃ d : Daemon, NoStaleWaiting d ∧ (d.fTickets.group [111]).find?
      (Ticket.ticketKeyOf 1 [97, 47, 49]) = some 0 ∧ Waiting (d.heap 0) := by
  have hrun : Runs UndisturbedStep _ _ _ := Runs.nil aloneStart
  have hrun := hrun.snoc (undisturbedStep_afterMessage _ (⟨0, []⟩, aloneLock) trivial
    (by decide))
  have hrun := hrun.snoc (undisturbedStep_afterMessage _ (⟨0, []⟩, aloneEntered) trivial
    (by decide))
  have hrun := hrun.snoc (undisturbedStep_afterMessage _ (⟨0, []⟩, aloneMax) trivial
    (by decide))
  have hrun := hrun.snoc (undisturbedStep_afterMessage _ (⟨0, []⟩, aloneAdd)
    aloneBefore_undisturbed (by decide))
  have hrun := hrun.snoc (undisturbedStep_afterMessage _ (⟨0, []⟩, aloneAdded) trivial
    (by decide))
  exact ⟨_, (noStaleWaiting_of_undisturbed _ _ _ _ _ hrun).1, by decide,
    by decide, by decide⟩

def Handles (d : Daemon) (label : Clock × Message) (d' : Daemon) : Prop :=
  (d.withClock label.1).processMessage label.2 = .ok d'

def expiringMessages : List (Clock × Message) :=
  [(⟨0, []⟩, { sentFromServer := [97], sentFromService := [99],
               command := .lock [111] 1 (some 100) 10 }),
    (⟨0, []⟩, { command := .lockEntering [111] [97, 47, 49] (some 100) 10 [97, 47, 99] }),
    (⟨0, []⟩, { command := .lockEntered [111] [97, 47, 49] }),
    (⟨0, []⟩, { command := .getMaxTicket [111] [97, 47, 49] }),
    (⟨0, []⟩, { command := .maxTicket [111] [97, 47, 49] 0 }),
    (⟨0, []⟩, { command := .addTicket [111] (Ticket.ticketKeyOf 1 [97, 47, 49]) (some 100) }),
    (⟨0, []⟩, { sentFromServer := [97], sentFromService := [99],
                command := .lock [111] 2 (some 5) 10 }),
    (⟨0, []⟩, { command := .ticketAdded [111] (Ticket.ticketKeyOf 1 [97, 47, 49]) }),
    (⟨0, []⟩, { command := .lockExiting [111] [97, 47, 49] }),
    (⟨6, []⟩, { command := .getMaxTicket [111] [97, 47, 50] })]

def waitsInVain (d : Daemon) : Bool :=
  decide ((d.fTickets.group [111]).find? (Ticket.ticketKeyOf 1 [97, 47, 49]) = some 0) &&
    (d.heap 0).fAddedTicketQuorum && !(d.heap 0).fTicketReady &&
    decide ((d.heap 0).fStillEntering.Has [97, 47, 50]) &&
    decide (¬ (d.fEnteringTickets.group [111]).Has [97, 47, 50])

theorem not_noStaleWaiting_of_waitsInVain {d : Daemon} (h : waitsInVain d = true) :
    ¬ NoStaleWaiting d := by
  simp only [waitsInVain, Bool.and_eq_true, decide_eq_true_eq, Bool.not_eq_true'] at h
  obtain ⟨⟨⟨⟨hfind, hquorum⟩, hready⟩, hk⟩, hgone⟩ := h
  intro hd
  exact hgone (hd [111] _ 0 hfind ⟨hquorum, hready⟩ [97, 47, 50] hk)

/-- The expiry of an entering record leaves a ticket waiting for it. -/
theorem stale_waiting_after_expiry :
    ¬ ∀ (server : QString) (computers : OrderedMap QString Bool) (c : Clock)
      (labels : List (Clock × Message)) (d : Daemon),
      Runs Handles { fServerName := server, fComputers := computers, clock := c } labels d →
        NoStaleWaiting d := by
  intro hall
  let start : Daemon :=
    { fServerName := [97], fComputers := OrderedMap.empty.insert [97] true, clock := ⟨0, []⟩ }
  have hcheck : (match expiringMessages.foldlM
      (fun d label => (d.withClock label.1).processMessage label.2) start with
    | .ok d => waitsInVain d
    | .error _ => false) = true := by decide
  cases hfold : expiringMessages.foldlM
      (fun d label => (d.withClock label.1).processMessage label.2) start with
  | error e =>
    rw [hfold] at hcheck
    cases hcheck
  | ok d =>
    rw [hfold] at hcheck
    exact not_noStaleWaiting_of_waitsInVain hcheck
      (hall _ _ _ _ d (Runs.of_foldlM _ expiringMessages start d hfold))

end SnapCpp.LockWaiting
