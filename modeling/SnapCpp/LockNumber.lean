import SnapCpp.LockHandlers
import SnapCpp.Runs

/-!
Ticket numbers and ticket keys. A ticket writes its number into its key when
it sends ADDTICKET. On the daemon that sent it the entry under that key is the
numbered ticket; any other daemon files the copy it made at the LOCKENTERING,
which never got a number.
-/
namespace SnapCpp.LockNumber

open QString LockTicket LockDaemon LockNetwork

def keyNumber (key : QString) : ℕ := readHex ((splitSlash key).headD [])

theorem keyNumber_ticketKeyOf (n : UInt32) (k : QString) :
    keyNumber (Ticket.ticketKeyOf n k) = n.toNat := by
  have hsplit : splitSlash (Ticket.ticketKeyOf n k) = hex8 n :: splitSlash k := by
    unfold Ticket.ticketKeyOf joinSlash splitSlash
    exact List.splitOn_append_cons_self_of_not_mem (slash_notMem_hex8 n) k
  rw [keyNumber, hsplit]
  exact readHex_hex8 n

structure WellKeyed (t : Ticket) : Prop where
  added : t.fAddedTicket = true → t.fTicketKey = Ticket.ticketKeyOf t.fOurTicket t.fEnteringKey
  fresh : t.fAddedTicket = false → t.fTicketKey = []

/-- How a call changes the key and the number: not at all once there is a key. -/
structure KeepsKey (t t' : Ticket) : Prop where
  wellKeyed : WellKeyed t → WellKeyed t'
  key : t.fAddedTicket = true → t'.fTicketKey = t.fTicketKey ∧ t'.fAddedTicket = true

theorem KeepsKey.of_eq {t t' : Ticket} (hadded : t'.fAddedTicket = t.fAddedTicket)
    (hkey : t'.fTicketKey = t.fTicketKey) (hnumber : t'.fOurTicket = t.fOurTicket)
    (hentering : t'.fEnteringKey = t.fEnteringKey) : KeepsKey t t' where
  wellKeyed := fun h => ⟨by rw [hadded, hkey, hnumber, hentering]; exact h.added,
    by rw [hadded, hkey]; exact h.fresh⟩
  key := fun h => ⟨hkey, hadded.trans h⟩

theorem KeepsKey.refl (t : Ticket) : KeepsKey t t := .of_eq rfl rfl rfl rfl

theorem keepsKey_of_moves (t t' : Ticket) (h : t.Moves t') : KeepsKey t t' := by
  cases h with
  | raised n hadded =>
    refine ⟨fun hw => ⟨fun ha => ?_, hw.fresh⟩, fun ha => ?_⟩
    · rw [hadded] at ha
      cases ha
    · rw [hadded] at ha
      cases ha
  | numbered n hadded =>
    refine ⟨fun _ => ⟨fun _ => rfl, nofun⟩, fun ha => ?_⟩
    rw [hadded] at ha
    cases ha
  | _ => exact .of_eq rfl rfl rfl rfl

structure Numbered (d : Daemon) : Prop where
  wellKeyed : ∀ p, WellKeyed (d.heap p)
  filed : ∀ o key p, (d.fTickets.group o).find? key = some p →
    (d.heap p).fAddedTicket = true ∧ (d.heap p).fTicketKey = key

section Effects

variable {d d' : Daemon} {m : Message} {readings : List ℤ}

theorem wellKeyed_create (o key : QString) (deadline duration : ℤ) (server service : QString) :
    WellKeyed (Ticket.create o key deadline duration server service) := ⟨nofun, fun _ => rfl⟩

theorem effect_wellKeyed (h : Effect m readings d d') (hd : ∀ p, WellKeyed (d.heap p)) (p : Ptr) :
    WellKeyed (d'.heap p) := by
  rcases h.heap p with hsame | hmove | ⟨-, -, o, key, deadline, duration, server, service, hnew⟩
  · rw [hsame]
    exact hd p
  · exact (keepsKey_of_moves _ _ hmove).wellKeyed (hd p)
  · rw [hnew]
    exact wellKeyed_create ..

theorem effect_filed_key (h : Effect m readings d d') (hf : Filed d) (hd : Numbered d)
    {o key : QString} {p : Ptr} (hfind : (d.fTickets.group o).find? key = some p) :
    (d'.heap p).fAddedTicket = true ∧ (d'.heap p).fTicketKey = key := by
  obtain ⟨hadded, hkey⟩ := hd.filed o key p hfind
  obtain ⟨hkey', hadded'⟩ := (h.ticket KeepsKey.refl keepsKey_of_moves p
    (hf.ticket_lt o key p hfind)).key hadded
  exact ⟨hadded', hkey'.trans hkey⟩

/-- ADDTICKET is the only message with a condition. -/
theorem effect_numbered (h : Effect m readings d d')
    (hm : ∀ o key timeout, m.command ≠ .addTicket o key timeout) (hf : Filed d)
    (hd : Numbered d) : Numbered d' := by
  refine ⟨effect_wellKeyed h hd.wellKeyed, fun o key p hfind => ?_⟩
  refine effect_filed_key (o := o) h hf hd ?_
  cases h with
  | sweep _ hsweep => exact hsweep.shrunk.tickets o key p hfind
  | putTicket o key number serverName pidText rest p timeout hcommand hsplit hfind =>
    exact absurd hcommand (hm o key timeout)
  | eraseTicket o' key' hcommand => exact (eraseTicket_shrunk d o' key').tickets o key p hfind
  | _ => exact hfind

def AddsOwn (d : Daemon) (m : Message) : Prop :=
  match m.command with
  | .addTicket o key _ =>
      match splitSlash key with
      | _ :: serverName :: pidText :: _ =>
          ∀ p ∈ (d.fEnteringTickets.group o).find? (joinSlash serverName pidText),
            (d.heap p).fTicketKey = key
      | _ => True
  | _ => True

instance (d : Daemon) (m : Message) : Decidable (AddsOwn d m) := by
  unfold AddsOwn
  split
  · split
    · infer_instance
    · infer_instance
  · infer_instance

theorem processMessage_numbered (h : d.processMessage m = .ok d') (hown : AddsOwn d m)
    (hf : Filed d) (hd : Numbered d) : Numbered d' := by
  by_cases hm : ∃ o key timeout, m.command = .addTicket o key timeout
  · obtain ⟨o, key, timeout, hm⟩ := hm
    simp only [Daemon.processMessage, hm] at h
    obtain ⟨c, number, serverName, pidText, rest, p, -, hsplit, hfind, rfl⟩ := addTicket_cases h
    have hkey : (d.heap p).fTicketKey = key := by
      simp only [AddsOwn, hm, hsplit] at hown
      exact hown p hfind
    refine ⟨hd.wellKeyed, fun o' key' q hq => ?_⟩
    rcases putTicket_find hq with ⟨rfl, rfl, rfl⟩ | hold
    · refine ⟨?_, hkey⟩
      by_contra hadded
      have hnil := (hd.wellKeyed q).fresh (Bool.eq_false_of_not_eq_true hadded)
      rw [hkey] at hnil
      rw [hnil] at hsplit
      cases hsplit
    · exact hd.filed o' key' q hold
  · have hother : ∀ o key timeout, m.command ≠ .addTicket o key timeout :=
      fun o key timeout hc => hm ⟨o, key, timeout, hc⟩
    have hboth := (processMessage_effects h).invariant (fun x => Filed x ∧ Numbered x) ⟨hf, hd⟩
      (fun _ _ ha hab => ⟨hab.filed ha.1, effect_numbered hab hother ha.1 ha.2⟩)
    exact hboth.2

end Effects

theorem le_foldl_last (heap : Ptr → Ticket) (l : List (QString × Ptr)) (start : UInt32) :
    start ≤ l.foldl (fun last e => if last < (heap e.2).fOurTicket then (heap e.2).fOurTicket
      else last) start ∧
    ∀ e ∈ l, (heap e.2).fOurTicket ≤ l.foldl (fun last e =>
      if last < (heap e.2).fOurTicket then (heap e.2).fOurTicket else last) start := by
  induction l generalizing start with
  | nil => exact ⟨UInt32.le_refl start, by simp⟩
  | cons a rest ih =>
    rw [List.foldl_cons]
    obtain ⟨hstart, hrest⟩ := ih (if start < (heap a.2).fOurTicket then (heap a.2).fOurTicket
      else start)
    refine ⟨UInt32.le_trans ?_ hstart, ?_⟩
    · split_ifs with hlt
      · exact UInt32.le_of_lt hlt
      · exact UInt32.le_refl start
    · intro e he
      rcases List.mem_cons.mp he with rfl | he
      · refine UInt32.le_trans ?_ hstart
        split_ifs with hlt
        · exact UInt32.le_refl _
        · exact UInt32.not_lt.mp hlt
      · exact hrest e he

theorem le_lastTicket (d : Daemon) (o key : QString) (p : Ptr)
    (h : (d.fTickets.group o).find? key = some p) : (d.heap p).fOurTicket ≤ d.lastTicket o :=
  (le_foldl_last d.heap _ 0).2 (key, p) ((OrderedMap.mem_entries_iff _ key p).mpr h)

/-- An action, under the condition that ADDTICKET reaches tickets that sent it. -/
def OwnStep (c : Cluster) (w : World) (a : Action) (w' : World) : Prop :=
  w.OnReceive c a (fun server _ packet => AddsOwn (w.daemon server) packet.message) ∧
    w' = w.step c a

theorem ownStep_numbered {c : Cluster} {w w' : World} {a : Action} (h : OwnStep c w a w')
    (hw : ∀ s, Filed (w.daemon s) ∧ Numbered (w.daemon s)) (s : QString) :
    Filed (w'.daemon s) ∧ Numbered (w'.daemon s) := by
  obtain ⟨hown, rfl⟩ := h
  refine World.daemon_invariant (fun _ d => Filed d ∧ Numbered d) c w a hw ?_ s
  intro server clock packet d hreceives hd
  obtain ⟨hf, hn⟩ := hw server
  have hawake : Filed (w.awake server clock) := hf.awake clock
  exact ⟨processMessage_filed hd hawake,
    processMessage_numbered hd (hown.of_receives hreceives) hawake ⟨hn.wellKeyed, hn.filed⟩⟩

theorem numbered_initial (debugBuild : Bool) (computers : QString → OrderedMap QString Bool)
    (s : QString) : Numbered ((World.initial debugBuild computers).daemon s) :=
  ⟨fun _ => ⟨nofun, fun _ => rfl⟩, by simp [World.initial]⟩

theorem getMaxTicket_ge {d d' : Daemon} {m : Message} {o key : QString}
    (h : d.getMaxTicket m o key = .ok d') (hf : Filed d) (hd : Numbered d) :
    ∃ n : ℕ, d'.outbox.getLast? = some ⟨none, replyTo m (.maxTicket o key n)⟩ ∧
      ∀ key' p, (d'.fTickets.group o).find? key' = some p →
        (d'.heap p).fOurTicket.toNat ≤ n ∧ keyNumber key' ≤ n := by
  obtain ⟨d₁, hclean, rfl⟩ := getMaxTicket_cases h
  have hother : ∀ o' key' timeout, (broadcast (.getMaxTicket o key)).command ≠
      .addTicket o' key' timeout := fun _ _ _ => nofun
  have hsweeps : Effects (broadcast (.getMaxTicket o key)) d.clock.readings d d₁ :=
    (cleanup_sweeps hclean (within_self d)).effects
  obtain ⟨-, hd₁⟩ := hsweeps.invariant (fun x => Filed x ∧ Numbered x) ⟨hf, hd⟩
    (fun _ _ ha hab => ⟨hab.filed ha.1, effect_numbered hab hother ha.1 ha.2⟩)
  refine ⟨(d₁.lastTicket o).toNat, by simp [Daemon.post], ?_⟩
  intro key' p hfind
  have hle : (d₁.heap p).fOurTicket.toNat ≤ (d₁.lastTicket o).toNat :=
    UInt32.le_iff_toNat_le.mp (le_lastTicket d₁ o key' p hfind)
  refine ⟨hle, ?_⟩
  obtain ⟨hadded, rfl⟩ := hd₁.filed o key' p hfind
  have hnumber : keyNumber (d₁.heap p).fTicketKey = (d₁.heap p).fOurTicket.toNat := by
    rw [(hd₁.wellKeyed p).added hadded]
    exact keyNumber_ticketKeyOf ..
  rw [hnumber]
  exact hle

/-- In every run in which ADDTICKET is processed only where the entering ticket
found is the one that sent it, the number of a ticket is the one in its key,
and MAXTICKET answers are no less than any of these numbers. -/
theorem numbers_agree_of_own (debugBuild : Bool) (computers : QString → OrderedMap QString Bool)
    (c : Cluster) (actions : List Action) (w : World)
    (h : Runs (OwnStep c) (World.initial debugBuild computers) actions w) (s : QString) :
    (∀ o key p, ((w.daemon s).fTickets.group o).find? key = some p →
      ((w.daemon s).heap p).fOurTicket.toNat = keyNumber key) ∧
    ∀ clock m o key d', (w.awake s clock).getMaxTicket m o key = .ok d' →
      ∃ n : ℕ, d'.outbox.getLast? = some ⟨none, replyTo m (.maxTicket o key n)⟩ ∧
        ∀ key' p, (d'.fTickets.group o).find? key' = some p →
          (d'.heap p).fOurTicket.toNat ≤ n ∧ keyNumber key' ≤ n := by
  have hinv := h.invariant (fun x => ∀ s, Filed (x.daemon s) ∧ Numbered (x.daemon s))
    (fun s => ⟨filed_initial debugBuild computers s, numbered_initial debugBuild computers s⟩)
    (fun _ _ _ hx hstep => ownStep_numbered hstep hx)
  obtain ⟨hf, hn⟩ := hinv s
  refine ⟨?_, fun clock m o key d' hmax =>
    getMaxTicket_ge hmax (hf.awake clock) ⟨hn.wellKeyed, hn.filed⟩⟩
  intro o key p hfind
  obtain ⟨hadded, rfl⟩ := hn.filed o key p hfind
  rw [(hn.wellKeyed p).added hadded, keyNumber_ticketKeyOf]

/-- On a server alone, up to its own ADDTICKET. -/
theorem numbers_agree_of_own_single :
    let w := (World.initial false (knownTo single)).run single
      (askFor [97] [111] 100 10 :: List.replicate 5 (deliverFirst [97] [97]))
    ((w.daemon [97]).heap 0).fOurTicket.toNat = 1 ∧
      ((w.daemon [97]).heap 0).fOurTicket.toNat =
        keyNumber (Ticket.ticketKeyOf 1 [97, 47, 49]) := by
  intro w
  have hrun := Runs.of_checked (World.step single) (fun w a => w.OnReceive single a
    (fun server _ packet => AddsOwn (w.daemon server) packet.message))
    (World.initial false (knownTo single))
    (askFor [97] [111] 100 10 :: List.replicate 5 (deliverFirst [97] [97])) (by decide)
  exact ⟨by decide, (numbers_agree_of_own false (knownTo single) single _ w hrun [97]).1
    [111] _ 0 (by decide)⟩

def copyActions : List Action :=
  askFor [97] [111] 100 10 :: exchange [97] [98] ++ exchange [97] [98] ++
    [deliverFirst [97] [98]]

/-- The copy of another daemon's ticket has no number. -/
theorem copy_not_numbered :
    ¬ ∀ (debugBuild : Bool) (computers : QString → OrderedMap QString Bool) (c : Cluster)
      (actions : List Action) (s o key : QString) (p : Ptr),
      let w := (World.initial debugBuild computers).run c actions
      ((w.daemon s).fTickets.group o).find? key = some p →
        ((w.daemon s).heap p).fOurTicket.toNat = keyNumber key := by
  intro hall
  have hcopy := hall false (knownTo pair) pair copyActions [98] [111]
    (Ticket.ticketKeyOf 1 [97, 47, 49]) 0 (by decide)
  have hzero : ((((World.initial false (knownTo pair)).run pair copyActions).daemon
      [98]).heap 0).fOurTicket.toNat = 0 := by decide
  rw [hzero, keyNumber_ticketKeyOf] at hcopy
  cases hcopy

end SnapCpp.LockNumber
