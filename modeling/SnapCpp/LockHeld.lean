import SnapCpp.LockCleanup
import SnapCpp.LockOrigin

/-!
How long the other daemons keep the copy of a ticket that is locked. A copy is
never locked itself, so `timed_out()` compares the clock with the obtention
timeout of the request and not with the end of the lock. `cleanup()` and
`activate_first_lock()` leave the copy alone as long as that earlier deadline
has not passed, and may erase it afterwards.
-/
namespace SnapCpp.LockHeld

open QString LockTicket LockDaemon LockNetwork LockNumber LockOrigin

/-- The commands whose handler calls `cleanup()`, or `activate_first_lock()` for the object. -/
def expires (o : QString) : Command → Bool
  | .lockEntering .. | .getMaxTicket .. => true
  | .lockExiting o' _ | .dropTicket o' _ => o' = o
  | _ => false

section Processing

variable {server o tk : QString} {d d' : Daemon} {m : Message} {readings : List ℤ} {T : ℤ}

theorem activateFirstLock_group {o' : QString} (hne : o' ≠ o) (d : Daemon) :
    (d.activateFirstLock o').fTickets.group o = d.fTickets.group o :=
  LockDaemon.activateFirst_group hne.symm _ d

theorem processMessage_group (h : d.processMessage m = .ok d')
    (hm : expires o m.command = false) : d'.fTickets.group o = d.fTickets.group o ∨
      ∃ o' key p, d'.fTickets = d.fTickets.assign o' key p := by
  unfold Daemon.processMessage at h
  split at h
  · obtain ⟨-, c, -, rfl | ⟨deadline, t, -, -, rfl⟩⟩ := lock_cases h
    · exact Or.inl rfl
    · exact Or.inl rfl
  · obtain ⟨-, rfl | ⟨k, p, -, -, -, rfl⟩⟩ := unlock_cases h
    · exact Or.inl rfl
    · exact Or.inl rfl
  · simp [expires, *] at hm
  · rcases lockEntered_cases h with ⟨-, rfl⟩ | ⟨p, -, rfl⟩
    · exact Or.inl rfl
    · exact Or.inl rfl
  · simp [expires, *] at hm
  · rcases maxTicket_cases h with ⟨-, rfl⟩ | ⟨p, r, -, -, rfl⟩
    · exact Or.inl rfl
    · exact Or.inl rfl
  · obtain ⟨c, number, serverName, pidText, rest, p, -, -, -, rfl⟩ := addTicket_cases h
    exact Or.inr ⟨_, _, p, rfl⟩
  · rcases ticketAdded_cases h with ⟨rfl, -⟩ | ⟨p, -, -, rfl⟩
    · exact Or.inl rfl
    · exact Or.inl rfl
  · rename_i o' key hcommand
    have hne : o' ≠ o := by simpa [expires, hcommand] using hm
    left
    rcases lockExiting_cases h with ⟨-, rfl⟩ | ⟨-, rfl⟩
    · rfl
    · have hloop := foldl_removeEntering (fun x => x.fTickets = d.fTickets)
        (d.eraseEntering o' key) key (d.fTickets.group o').entries rfl fun _ _ _ hx => hx
      rw [activateFirstLock_group hne, hloop]
  · rename_i o' key hcommand
    have hne : o' ≠ o := by simpa [expires, hcommand] using hm
    left
    rcases dropTicket_cases h with ⟨number, serverName, pidText, -, rfl⟩ | ⟨rfl, -⟩
    · rw [eraseEntering_fTickets, activateFirstLock_group hne, eraseTicket_group, if_neg hne.symm]
    · rfl
  · obtain ⟨-, ⟨-, rfl⟩ | ⟨-, -, rfl⟩ | ⟨-, -, rfl⟩⟩ := lockReady_cases h
    · exact Or.inl rfl
    · exact Or.inl rfl
    · exact Or.inl rfl
  · cases h
    unfold Daemon.lockGone
    split_ifs
    · exact Or.inl rfl
    · exact Or.inl rfl
  · cases h
    unfold Daemon.interpretStatus
    split_ifs
    · exact Or.inl rfl
    · exact Or.inl rfl
  · cases h
    exact Or.inl rfl
  · cases h
    exact Or.inl rfl
  · cases h
    exact Or.inl rfl

theorem has_of_assign {tickets tickets' : GroupedMap QString QString Ptr}
    (h : tickets'.group o = tickets.group o ∨ ∃ o' key p, tickets' = tickets.assign o' key p)
    (hhas : (tickets.group o).Has tk) : (tickets'.group o).Has tk := by
  rcases h with h | ⟨o', key, p, rfl⟩
  · rwa [h]
  · rw [GroupedMap.group_assign]
    split_ifs with ho
    · rw [OrderedMap.Has, OrderedMap.find?_insert]
      split_ifs
      · simp
      · rwa [← ho]
    · exact hhas

/-- The copy is there and does not time out before `T`. -/
def Copy (o tk : QString) (T : ℤ) (d : Daemon) : Prop :=
  ∃ p, (d.fTickets.group o).find? tk = some p ∧ (d.heap p).fObtentionTimeout = T

def Foreign (server key : QString) : Prop := ∀ k, KeyOf key k → ¬ OwnKey server k

theorem Copy.heap (h : Copy o tk T d) (hd : Filed d) (htickets : d'.fTickets = d.fTickets)
    (hstable : Stable d d') : Copy o tk T d' := by
  obtain ⟨p, hfind, htimeout⟩ := h
  refine ⟨p, htickets ▸ hfind, ?_⟩
  rw [(hstable.ticket p (hd.ticket_lt o tk p hfind)).obtentionTimeout]
  exact htimeout

theorem Copy.erase (h : Copy o tk T d) {o' key : QString} (hne : ¬ (o' = o ∧ key = tk)) :
    Copy o tk T (d.eraseTicket o' key) := by
  obtain ⟨p, hfind, htimeout⟩ := h
  refine ⟨p, ?_, htimeout⟩
  rw [eraseTicket_group]
  split_ifs with ho
  · subst ho
    rw [OrderedMap.find?_erase, if_neg (fun hk => hne ⟨rfl, hk.symm⟩)]
    exact hfind
  · exact hfind

theorem copy_timedOut {p : Ptr} {now : ℤ} (hd : LocalOk server m d)
    (hforeign : Foreign server tk) (hfind : (d.fTickets.group o).find? tk = some p) :
    (d.heap p).timedOut now = decide ((d.heap p).fObtentionTimeout < now) := by
  have hkey := hd.filed.ticket_key o tk p hfind
  rcases hd.home p (hd.filed.ticket_lt o tk p hfind) with hown | hunt
  · exact absurd hown (hforeign _ hkey)
  · simp [Ticket.timedOut, hunt.locked]

theorem effect_copy (h : Effect m readings d d') (hd : LocalOk server m d)
    (hforeign : Foreign server tk) (hm : expires o m.command = true)
    (hdrop : m.command ≠ .dropTicket o tk) (hT : ∀ t ∈ readings, t ≤ T) (hcopy : Copy o tk T d) :
    Copy o tk T d' := by
  have hstable := h.stable
  cases h with
  | sweep _ hsweep =>
    cases hsweep with
    | eraseTicket o' key p now hfind hnow hout =>
      refine hcopy.erase ?_
      rintro ⟨rfl, rfl⟩
      obtain ⟨q, hq, htimeout⟩ := hcopy
      cases hfind.symm.trans hq
      rw [copy_timedOut hd hforeign hfind, htimeout, decide_eq_true_eq] at hout
      exact absurd (hT now hnow) (not_le.mpr hout)
    | _ => exact hcopy.heap hd.filed rfl hstable
  | putTicket o' key number serverName pidText rest p timeout hcommand hsplit hfind =>
    rw [hcommand] at hm
    cases hm
  | eraseTicket o' key hcommand =>
    refine hcopy.erase ?_
    rintro ⟨rfl, rfl⟩
    exact hdrop hcommand
  | _ => exact hcopy.heap hd.filed rfl hstable

def KeepsCopy (o tk : QString) (d : Daemon) (readings : List ℤ) (c : Command) : Prop :=
  c ≠ .dropTicket o tk ∧ (expires o c = true →
    ∀ p, (d.fTickets.group o).find? tk = some p → ∀ t ∈ readings, t ≤ (d.heap p).fObtentionTimeout)

instance (o tk : QString) (d : Daemon) (readings : List ℤ) (c : Command) :
    Decidable (KeepsCopy o tk d readings c) :=
  match hfind : (d.fTickets.group o).find? tk with
  | none => decidable_of_iff (c ≠ .dropTicket o tk)
      ⟨fun h => ⟨h, fun _ p hp => by rw [hfind] at hp; cases hp⟩, fun h => h.1⟩
  | some p => decidable_of_iff (c ≠ .dropTicket o tk ∧ (expires o c = true →
      ∀ t ∈ readings, t ≤ (d.heap p).fObtentionTimeout))
      ⟨fun h => ⟨h.1, fun hc q hq => by rw [hfind] at hq; cases hq; exact h.2 hc⟩,
        fun h => ⟨h.1, fun hc => h.2 hc p hfind⟩⟩

theorem processMessage_has (h : d.processMessage m = .ok d') (hd : LocalOk server m d)
    (hown : ForOwn server m.command) (hforeign : Foreign server tk)
    (hkeeps : KeepsCopy o tk d d.clock.readings m.command) (hhas : (d.fTickets.group o).Has tk) :
    (d'.fTickets.group o).Has tk := by
  cases hm : expires o m.command with
  | false => exact has_of_assign (processMessage_group h hm) hhas
  | true =>
    obtain ⟨p, hfind⟩ := Option.ne_none_iff_exists'.mp hhas
    have hboth := (processMessage_effects h).invariant
      (fun x => LocalOk server m x ∧ Copy o tk (d.heap p).fObtentionTimeout x)
      ⟨hd, p, hfind, rfl⟩ (fun _ _ ha hab => ⟨effect_localOk hab ha.1 hown,
        effect_copy hab ha.1 hforeign hm hkeeps.1 (hkeeps.2 hm p hfind) ha.2⟩)
    obtain ⟨q, hq, -⟩ := hboth.2
    simp [OrderedMap.Has, hq]

end Processing

def HeldStep (c : Cluster) (b o tk : QString) (w : World) (a : Action) (w' : World) : Prop :=
  w.OnReceive c a (fun server clock packet => server = b →
    KeepsCopy o tk (w.daemon b) clock.readings packet.message.command) ∧ w' = w.step c a

theorem heldStep_has {c : Cluster} {b o tk : QString} {w w' : World} {a : Action}
    (h : HeldStep c b o tk w a w') (hw : Sound w) (hforeign : Foreign b tk)
    (hhas : ((w.daemon b).fTickets.group o).Has tk) :
    ((w'.daemon b).fTickets.group o).Has tk := by
  obtain ⟨hkeeps, rfl⟩ := h
  refine World.daemon_invariant (fun s d => s = b → (d.fTickets.group o).Has tk) c w a
    (fun s hs => hs ▸ hhas) ?_ b rfl
  rintro server clock packet d hreceives hd rfl
  exact processMessage_has hd (hw.localOk server clock _) (hw.forOwn hreceives) hforeign
    (hkeeps.of_receives hreceives rfl) hhas

theorem run_sound (debugBuild : Bool) (computers : QString → OrderedMap QString Bool)
    (c : Cluster) (actions : List Action) :
    Sound ((World.initial debugBuild computers).run c actions) :=
  List.foldlRecOn actions _ (sound_initial debugBuild computers)
    (fun _ hw a _ => (step_sound hw c a).1)

theorem ownKey_inj {a b k : QString} (ha : slash ∉ a) (hb : slash ∉ b) (hka : OwnKey a k)
    (hkb : OwnKey b k) : a = b := by
  obtain ⟨i, rfl⟩ := hka
  obtain ⟨j, hj⟩ := hkb
  have hsplit := splitSlash_two a (decimal i) ha (slash_notMem_decimal i)
  rw [hj, splitSlash_two b (decimal j) hb (slash_notMem_decimal j)] at hsplit
  exact (List.cons.inj hsplit).1.symm

theorem KeyOf.unique {key k k' : QString} (h : KeyOf key k) (h' : KeyOf key k') : k = k' := by
  obtain ⟨number, serverName, pidText, rest, hsplit, rfl⟩ := h
  obtain ⟨number', serverName', pidText', rest', hsplit', rfl⟩ := h'
  rw [hsplit] at hsplit'
  cases hsplit'
  rfl

theorem foreign_of_locked {c : Cluster} {w : World} (hw : Sound w) {a b o tk : QString}
    (ha : a ∈ c.servers) (hb : b ∈ c.servers) (hne : b ≠ a) {p : Ptr}
    (hfind : ((w.daemon a).fTickets.group o).find? tk = some p)
    (hlocked : ((w.daemon a).heap p).fLocked = true) : Foreign b tk := by
  intro k hk hkb
  rcases hw.home a p ((hw.filed a).ticket_lt o tk p hfind) with hown | hunt
  · rw [KeyOf.unique ((hw.filed a).ticket_key o tk p hfind) hk] at hown
    exact hne (ownKey_inj (c.valid b hb).2 (c.valid a ha).2 hkb hown)
  · rw [hunt.locked] at hlocked
    cases hlocked

/-- A lock obtained on daemon `a` and known to daemon `b` stays known to `b` in
every run in which `b` processes no DROPTICKET of it and runs `cleanup()`, and
`activate_first_lock()` of its object, only while the obtention timeout of its copy has not
passed. -/
theorem copy_kept_of_obtention (debugBuild : Bool)
    (computers : QString → OrderedMap QString Bool) (c : Cluster) (earlier later : List Action)
    (w w' : World) (hw : w = (World.initial debugBuild computers).run c earlier)
    (a b o tk : QString) (p : Ptr) (ha : a ∈ c.servers) (hb : b ∈ c.servers) (hne : b ≠ a)
    (hfind : ((w.daemon a).fTickets.group o).find? tk = some p)
    (hlocked : ((w.daemon a).heap p).fLocked = true)
    (hcopy : ((w.daemon b).fTickets.group o).Has tk)
    (hrun : Runs (HeldStep c b o tk) w later w') : ((w'.daemon b).fTickets.group o).Has tk := by
  have hsound : Sound w := hw ▸ run_sound debugBuild computers c earlier
  have hforeign := foreign_of_locked hsound ha hb hne hfind hlocked
  have hboth := hrun.invariant
    (fun x => Sound x ∧ ((x.daemon b).fTickets.group o).Has tk) ⟨hsound, hcopy⟩
    (fun x l y hx hstep => ⟨hstep.2 ▸ (step_sound hx.1 c l).1,
      heldStep_has hstep hx.1 hforeign hx.2⟩)
  exact hboth.2

/-- Client 1 of daemon `a` asks at time 0 for the object for an hour, to be
obtained before time 5, and gets it; daemon `b` processes the ADDTICKET. -/
def hourActions : List Action :=
  askFor [97] [111] 5 3600 :: exchange [97] [98] ++ exchange [97] [98] ++ exchange [97] [98] ++
    [deliverFirst [97] [97]]

def hourWorld : World := (World.initial false (knownTo pair)).run pair hourActions

/-- A client of daemon `b` asks for another object. -/
def otherLock (now : ℤ) : Action := .lock [98] ⟨now, []⟩ [98] [99] [120] 2 (some 100) 10

/-- Until time 5 another request does no harm. -/
theorem copy_kept_of_obtention_hour :
    let w' := hourWorld.run pair [otherLock 4, .deliver [98] [98] 0 ⟨4, []⟩]
    ((w'.daemon [98]).fTickets.group [111]).Has (Ticket.ticketKeyOf 1 [97, 47, 49]) := by
  intro w'
  have hrun := Runs.of_checked (World.step pair) (fun w a => w.OnReceive pair a
    (fun server clock packet => server = [98] → KeepsCopy [111]
      (Ticket.ticketKeyOf 1 [97, 47, 49]) (w.daemon [98]) clock.readings packet.message.command))
    hourWorld [otherLock 4, .deliver [98] [98] 0 ⟨4, []⟩] (by decide)
  exact copy_kept_of_obtention false (knownTo pair) pair hourActions _ hourWorld w' rfl [97] [98]
    [111] (Ticket.ticketKeyOf 1 [97, 47, 49]) 0 (by decide) (by decide) (by decide)
    (by decide) (by decide) (by decide) hrun

def clockOf : Action → Clock
  | .lock _ clock .. | .unlock _ clock .. | .gone _ clock _ | .status _ clock _
  | .deliver _ _ _ clock => clock

/-- At time 6 the request for the other object makes `b` forget the lock that
`a` granted until time 3600. -/
theorem held_copy_removed :
    ¬ ∀ (debugBuild : Bool) (computers : QString → OrderedMap QString Bool) (c : Cluster)
      (actions : List Action) (last : Action) (a b o tk : QString) (p : Ptr),
      let w := (World.initial debugBuild computers).run c actions
      let w' := w.step c last
      ((actions ++ [last]).flatMap (fun x => (clockOf x).readings)).Pairwise (· ≤ ·) →
      b ∈ c.servers → b ≠ a → ((w.daemon a).fTickets.group o).find? tk = some p →
      ((w'.daemon a).heap p).fLocked = true →
      (∀ t ∈ (clockOf last).readings, t ≤ ((w'.daemon a).heap p).fLockTimeout) →
      ⟨a, p⟩ ∉ w'.ledger.released →
      ((w.daemon b).fTickets.group o).Has tk → ((w'.daemon b).fTickets.group o).Has tk := by
  intro hall
  have hkept := hall false (knownTo pair) pair (hourActions ++ [otherLock 6])
    (.deliver [98] [98] 0 ⟨6, []⟩) [97] [98] [111] (Ticket.ticketKeyOf 1 [97, 47, 49]) 0
    (by decide) (by decide) (by decide) (by decide) (by decide)
    (by decide) (by decide) (by decide)
  revert hkept
  decide

end SnapCpp.LockHeld
