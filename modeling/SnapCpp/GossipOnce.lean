import SnapCpp.GossipNetwork

/-!
A message for everyone is sent at most once to each service before it times out.
A server that passes it on remembers its identifier, so that a second copy finds it
there. Only the first server has nothing to remember: it made the identifier up. It
relies on its own address among the informed ones, as other servers would write it.
-/
namespace SnapCpp.GossipOnce

open QString QNumber CommunicatorMessage SnapAddr CommunicatorServer GossipNetwork

variable {ι : Type} {c : Connection ι} {message : Message} {server : Server ι}

def Orphan (message : Message) : Prop :=
  ∀ id, message.fParameters.find? broadcastMsgid = some id → id = []

/-- The first server sends a service the message and would do so again. -/
def Forgets (net : ι → Server ι) (o : Origin ι) : Prop :=
  Orphan o.message ∧ ∃ c ∈ (net o.server).connections, c.peer = none ∧
    (c.address.networkType = .typeLoopback → c.understoodCommands.contains o.message.fCommand)

def Leads (net : ι → Server ι) (first : ι) : Prop :=
  ∃ s, ∃ c ∈ (net s).connections, c.peer = some first

def Identified (net : ι → Server ι) (o : Origin ι) : Prop :=
  Forgets net o → Leads net o.server → (net o.server).fMyAddress.isIpv4 = true

theorem pointer_inj {net : ι → Server ι} (hwired : Wired net) {s : ι} {c' : Connection ι}
    (hc : c ∈ (net s).connections) (hc' : c' ∈ (net s).connections)
    (h : c.pointer = c'.pointer) : c = c' :=
  List.inj_on_of_nodup_map (hwired.pointers s) hc hc' h

theorem lets_not_loopback {all remote : Bool} (h : lets all remote c = true) :
    c.address.networkType ≠ .typeLoopback := by
  intro hloop
  simp [lets, hloop] at h

theorem isLocal_loopback {command : QString} (h : isLocal c command = true) :
    c.address.networkType = .typeLoopback := by
  simp only [isLocal, Bool.and_eq_true, decide_eq_true_eq] at h
  exact h.1.2

theorem mem_candidates_star {hops : ℤ} (h : c ∈ candidates server message [] hops) :
    c ∈ server.connections ∧ c.address.networkType ≠ .typeLoopback := by
  simp only [candidates, List.isEmpty_nil, if_true] at h
  exact ⟨(List.mem_filter.mp h).1, lets_not_loopback (List.mem_filter.mp h).2⟩

theorem mem_locals (h : c ∈ locals server message []) :
    c ∈ server.connections ∧ c.address.networkType = .typeLoopback := by
  simp only [locals, List.isEmpty_nil, if_true] at h
  exact ⟨(List.mem_filter.mp h).1, isLocal_loopback (List.mem_filter.mp h).2⟩

theorem forgets_of_mem {net : ι → Server ι} {s : ι} {m : Memory} {incoming : Incoming} {now : ℤ}
    {tag : ℕ} {d : Delivery ι} (horphan : Orphan message)
    (h : d ∈ deliveriesOf tag s (relay (net s) m message [] incoming now).2) :
    Forgets net ⟨s, message, now⟩ := by
  obtain ⟨c, hc, -⟩ := List.mem_map.mp h
  obtain ⟨hc, hpeer⟩ := List.mem_filter.mp hc
  have hpeer := Option.isNone_iff_eq_none.mp hpeer
  rw [relay_sends, List.map_append, List.map_map, List.map_map, List.mem_append] at hc
  rcases hc with hc | hc
  · obtain ⟨c, hlocal, rfl⟩ := List.mem_map.mp hc
    simp only [locals, List.isEmpty_nil, if_true] at hlocal
    obtain ⟨hmem, hlocal⟩ := List.mem_filter.mp hlocal
    exact ⟨horphan, c, hmem, hpeer, fun _ => (Bool.and_eq_true_iff.mp hlocal).2⟩
  · obtain ⟨c, hinform, rfl⟩ := List.mem_map.mp hc
    obtain ⟨hmem, hnot⟩ := mem_candidates_star ((inform_sublist _ _).subset hinform)
    exact ⟨horphan, c, hmem, hpeer, fun hloop => absurd hloop hnot⟩

theorem relay_pointers {net : ι → Server ι} (hwired : Wired net) (s : ι) (m : Memory)
    (message : Message) (incoming : Incoming) (now : ℤ) :
    ((services (relay (net s) m message [] incoming now).2).map Connection.pointer).Nodup := by
  have hnodup := hwired.pointers s
  have hsub : ∀ p : Connection ι → Bool,
      (((net s).connections.filter p).map Connection.pointer).Nodup := fun p =>
    hnodup.sublist (List.filter_sublist.map _)
  have hlocals : ((locals (net s) message []).map Connection.pointer).Nodup := by
    simp only [locals, List.isEmpty_nil, if_true]
    exact hsub _
  have hcandidates :
      ((candidates (net s) message [] incoming.hops).map Connection.pointer).Nodup := by
    simp only [candidates, List.isEmpty_nil, if_true]
    exact hsub _
  have hall : (((relay (net s) m message [] incoming now).2.sends.map Prod.fst).map
      Connection.pointer).Nodup := by
    rw [relay_sends]
    simp only [List.map_append, List.map_map, Function.comp_def]
    refine List.Nodup.append hlocals
      (hcandidates.sublist ((inform_sublist _ _).map Connection.pointer)) ?_
    intro p hp hp'
    obtain ⟨c, hc, rfl⟩ := List.mem_map.mp hp
    obtain ⟨c', hc', heq⟩ := List.mem_map.mp hp'
    obtain ⟨hmem, hloop⟩ := mem_locals hc
    obtain ⟨hmem', hnot⟩ := mem_candidates_star ((inform_sublist _ _).subset hc')
    rw [pointer_inj hwired hmem' hmem heq] at hnot
    exact hnot hloop
  exact hall.sublist (List.filter_sublist.map _)

theorem remembered_relay {now : ℤ} {m : Memory}
    {incoming : Incoming} {id : QString} {t : ℤ}
    (hid : incoming.msgid = id) (ht : incoming.timeout = t) :
    (relay server (remember m incoming.msgid incoming.timeout now) message []
      incoming now).1.fReceivedBroadcastMessages.find? id = some t := by
  rw [relay_received, remember, OrderedMap.find?_insert, if_pos hid.symm, ht]

variable [DecidableEq ι]

structure Carries (net : ι → Server ι) (first : ι) (orphan : Prop) (id : QString) (t : ℤ)
    (c : Copy ι) : Prop where
  service : c.message.fService = star
  msgid : c.message.fParameters.find? broadcastMsgid = some id
  timeout : c.message.fParameters.find? broadcastTimeout = some (number t)
  informed : orphan → c.target ≠ first ∧ (Leads net first →
    ∀ neighbors, getParameter c.message broadcastInformedNeighbors = .ok neighbors →
      (net first).fMyAddress.getIpv4String ∈ splitComma neighbors)

/-- The message is sent once to each service, and servers that sent it remember it. -/
structure Suppressed (net : ι → Server ι) (tag : ℕ) (first : ι) (orphan : Prop) (id : QString)
    (t : ℤ) (w : World ι) : Prop where
  copies : ∀ c ∈ w.flight, c.tag = tag → Carries net first orphan id t c
  once : ∀ s p, w.deliveries.count ⟨tag, s, p⟩ ≤ 1
  remembered : ∀ s p, (⟨tag, s, p⟩ : Delivery ι) ∈ w.deliveries → orphan ∧ s = first ∨
    (w.memory s).fReceivedBroadcastMessages.find? id = some t

section Steps

variable {net : ι → Server ι} {w : World ι} {s : ι} {tag : ℕ} {message : Message} {now : ℤ}
  {first : ι} {id : QString} {orphan : Prop} {t : ℤ}

theorem process_other {tag' : ℕ}
    (h : Suppressed net tag first orphan id t w) (hne : tag' ≠ tag) (hnow : now ≤ t) :
    Suppressed net tag first orphan id t (process net w s tag' message now) := by
  have hdeliveries : ∀ (x : ι) (p : ℕ), (⟨tag, x, p⟩ : Delivery ι) ∉ deliveriesOf tag' s
      (outcome (processMessage (net s) (w.memory s) message now).2) := fun x p hmem =>
    hne (mem_deliveriesOf hmem).1.symm
  refine ⟨fun c hc htag => ?_, fun x p => ?_, fun x p hmem => ?_⟩
  · rcases List.mem_append.mp hc with hc | hc
    · exact h.copies c hc htag
    · obtain ⟨-, -, -, htag', -⟩ := mem_copies hc
      exact absurd (htag'.symm.trans htag) hne
  · change (w.deliveries ++ _).count _ ≤ 1
    rw [List.count_append, List.count_eq_zero.mpr (hdeliveries x p)]
    exact h.once x p
  · rcases List.mem_append.mp hmem with hmem | hmem
    · rcases h.remembered x p hmem with hfirst | hfind
      · exact Or.inl hfirst
      · exact Or.inr (process_memory_keeps tag' x id t hfind hnow)
    · exact absurd hmem (hdeliveries x p)

/-- A message that is not relayed leaves everything alone. -/
theorem process_quiet {tag' : ℕ}
    (h : Suppressed net tag first orphan id t w) (hnow : now ≤ t)
    (hquiet : outcome (processMessage (net s) (w.memory s) message now).2 = {}) :
    Suppressed net tag first orphan id t (process net w s tag' message now) := by
  have hworld : process net w s tag' message now =
      { w with memory := (process net w s tag' message now).memory } := by
    simp [process, hquiet, copies, deliveriesOf, services]
  rw [hworld]
  refine ⟨h.copies, h.once, fun x p hmem => ?_⟩
  rcases h.remembered x p hmem with hfirst | hfind
  · exact Or.inl hfirst
  · exact Or.inr (process_memory_keeps tag' x id t hfind hnow)

theorem first_mem_nextInformed {incoming : Incoming}
    (hipv4 : (net first).fMyAddress.isIpv4 = true)
    (hinformed : s ≠ first →
      (net first).fMyAddress.getIpv4String ∈ splitComma incoming.informedNeighbors) :
    (net first).fMyAddress.getIpv4String ∈
      splitComma (joinComma (nextInformed (net s) message [] incoming)) := by
  refine mem_splitComma_join ?_ (comma_notMem_dotted _ _) (dotted_ne_nil _ _)
  simp only [nextInformed]
  by_cases hs : s = first
  · subst hs
    have htext : originator (net s) = (net s).fMyAddress.getIpv4String :=
      getIpv4or6String_ipv4 hipv4 true
    split_ifs with hmem
    · exact htext ▸ hmem
    · simp [htext]
  · have hmem := subset_inform (candidates (net s) message [] incoming.hops) _ (hinformed hs)
    split_ifs
    · exact hmem
    · exact List.mem_append_left _ hmem

/-- A copy that a server sends on is like the one it got. -/
theorem relay_carries (hwired : Wired net)
    (hremote : ∀ s, (net s).fMyAddress.networkType ≠ .typeLoopback) {m : Memory}
    {incoming : Incoming} {c : Copy ι}
    (hservice : message.fService = star) (hid : nextId (net s) m incoming = id)
    (htimeout : (if incoming.timeout = 0 then now + 10 else incoming.timeout) = t)
    (hinformed : orphan → Leads net first → (net first).fMyAddress.isIpv4 = true ∧ (s ≠ first →
      (net first).fMyAddress.getIpv4String ∈ splitComma incoming.informedNeighbors))
    (hc : c ∈ copies tag (relay (net s) m message [] incoming now).2) :
    Carries net first orphan id t c := by
  obtain ⟨x, hx, hpeer, -, hmessage⟩ := mem_copies hc
  rw [relay_sends, List.mem_append] at hx
  rcases hx with hx | hx
  · obtain ⟨d, hd, rfl⟩ := List.mem_map.mp hx
    obtain ⟨hmem, hloop⟩ := mem_locals hd
    rw [hwired.address s d hmem c.target hpeer] at hloop
    exact absurd hloop (hremote c.target)
  · obtain ⟨d, hd, rfl⟩ := List.mem_map.mp hx
    simp only at hpeer hmessage
    have hconnection := (mem_candidates_star ((inform_sublist _ _).subset hd)).1
    constructor
    · rw [hmessage, relayed_fService, hservice]
    · rw [hmessage, relayed_msgid, hid]
    · rw [hmessage, relayed_timeout, htimeout]
    · intro horphan
      refine ⟨fun hfirst => ?_, fun hleads neighbors hneighbors => ?_⟩
      · rw [hfirst] at hpeer
        obtain ⟨hipv4, hlist⟩ := hinformed horphan ⟨s, d, hconnection, hpeer⟩
        by_cases hs : s = first
        · exact hwired.irreflexive s d hconnection (hs ▸ hpeer)
        · refine address_notMem_of_inform hd ?_
          rw [addressText, hwired.address s d hconnection first hpeer,
            getIpv4or6String_ipv4 hipv4 false]
          exact hlist hs
      · rw [hmessage, getParameter_of_find (relayed_informed ..)] at hneighbors
        cases hneighbors
        obtain ⟨hipv4, hlist⟩ := hinformed horphan hleads
        exact first_mem_nextInformed hipv4 hlist

theorem count_deliveriesOf {o : Outcome ι}
    (h : ((services o).map Connection.pointer).Nodup) (p : ℕ) :
    (deliveriesOf tag s o).count ⟨tag, s, p⟩ ≤ 1 := by
  refine List.nodup_iff_count_le_one.mp ?_ _
  refine (List.Nodup.of_map Delivery.pointer ?_)
  rw [deliveriesOf, List.map_map]
  exact h

theorem process_copy (hwired : Wired net)
    (hremote : ∀ s, (net s).fMyAddress.networkType ≠ .typeLoopback) (hid : id ≠ [])
    (hnow : 0 < now ∧ now ≤ t)
    (hipv4 : orphan → Leads net first → (net first).fMyAddress.isIpv4 = true)
    (h : Suppressed net tag first orphan id t w) {c : Copy ι}
    (hc : Carries net first orphan id t c) :
    Suppressed net tag first orphan id t (process net w c.target tag c.message now) := by
  rcases processMessage_star (net c.target) (w.memory c.target) now
    hc.service with hquiet | ⟨m', incoming, haccept, hmemory, houtcome⟩
  · exact process_quiet h hnow.2 hquiet
  · rcases accept_accepted haccept with ⟨hnone, -, -⟩ | ⟨hmsgid, htimeout, -, hhas, hlist, -, rfl⟩
    · rw [hc.msgid] at hnone
      cases hnone
    · rw [hc.msgid] at hmsgid
      obtain rfl := Option.some.inj hmsgid
      have ht : incoming.timeout = t := getIntegerParameter_number hc.timeout htimeout
      have hnew : ∀ p, (⟨tag, c.target, p⟩ : Delivery ι) ∉ w.deliveries := by
        intro p hmem
        rcases h.remembered c.target p hmem with ⟨horphan, hfirst⟩ | hfind
        · exact (hc.informed horphan).1 hfirst
        · exact hhas (by rw [OrderedMap.Has, hfind]; simp)
      refine ⟨fun d hd htag => ?_, fun x p => ?_, fun x p hmem => ?_⟩
      · rcases List.mem_append.mp hd with hd | hd
        · exact h.copies d hd htag
        · rw [houtcome] at hd
          refine relay_carries hwired hremote hc.service (if_neg hid) ?_ ?_ hd
          · rw [if_neg (by omega), ht]
          · exact fun horphan hleads =>
              ⟨hipv4 horphan hleads, fun _ => (hc.informed horphan).2 hleads _ hlist⟩
      · change (w.deliveries ++ _).count _ ≤ 1
        rw [List.count_append, houtcome]
        by_cases hx : x = c.target
        · subst hx
          rw [List.count_eq_zero.mpr (hnew p), Nat.zero_add]
          exact count_deliveriesOf (relay_pointers hwired ..) p
        · rw [List.count_eq_zero.mpr (fun hmem => hx (mem_deliveriesOf hmem).2)]
          exact h.once x p
      · by_cases hx : x = c.target
        · subst hx
          refine Or.inr ?_
          simp only [process, Function.update_self]
          rw [hmemory]
          exact remembered_relay rfl ht
        · rcases List.mem_append.mp hmem with hmem | hmem
          · rcases h.remembered x p hmem with hfirst | hfind
            · exact Or.inl hfirst
            · exact Or.inr (process_memory_keeps tag x _ t hfind hnow.2)
          · exact absurd (mem_deliveriesOf hmem).2 hx

theorem process_first (hwired : Wired net)
    (hremote : ∀ s, (net s).fMyAddress.networkType ≠ .typeLoopback)
    (hflight : ∀ c ∈ w.flight, c.tag ≠ tag) (hdeliveries : ∀ d ∈ w.deliveries, d.tag ≠ tag)
    (hservice : message.fService = star) (hidentified : Identified net ⟨s, message, now⟩)
    (hnow : 0 < now ∧ now ≤ deadline ⟨s, message, now⟩) :
    ∃ id ≠ [], Suppressed net tag s (Forgets net ⟨s, message, now⟩) id
      (deadline ⟨s, message, now⟩) (process net w s tag message now) := by
  have hnone : ∀ id, Suppressed net tag s (Forgets net ⟨s, message, now⟩) id
      (deadline ⟨s, message, now⟩) w := by
    intro id
    refine ⟨fun c hc htag => absurd htag (hflight c hc), fun x p => ?_,
      fun x p hmem => absurd rfl (hdeliveries _ hmem)⟩
    rw [List.count_eq_zero.mpr (fun hmem => absurd rfl (hdeliveries _ hmem))]
    exact Nat.zero_le 1
  rcases processMessage_star (net s) (w.memory s) now hservice with
    hquiet | ⟨m', incoming, haccept, hmemory, houtcome⟩
  · exact ⟨[0], by decide, process_quiet (hnone [0]) hnow.2 hquiet⟩
  · have htimeout := accept_deadline (s := s) haccept hnow.1
    have hremembered : ¬ Orphan message →
        (relay (net s) m' message [] incoming now).1.fReceivedBroadcastMessages.find?
          (nextId (net s) m' incoming) = some (deadline ⟨s, message, now⟩) := by
      intro horphan
      rcases accept_accepted haccept with ⟨hid, -, -⟩ | ⟨hid, ht, hle, -, -, -, rfl⟩
      · exact absurd (fun x hx => by rw [hid] at hx; cases hx) horphan
      · have hne : incoming.msgid ≠ [] := fun hnil =>
          horphan (fun x hx => by rw [hid, hnil] at hx; exact (Option.some.inj hx).symm)
        refine remembered_relay (if_neg hne).symm ?_
        rw [← htimeout, if_neg (by omega)]
    refine ⟨nextId (net s) m' incoming, nextId_ne_nil _ _ _, fun c hc htag => ?_, fun x p => ?_,
      fun x p hmem => ?_⟩
    · rcases List.mem_append.mp hc with hc | hc
      · exact absurd htag (hflight c hc)
      · rw [houtcome] at hc
        exact relay_carries hwired hremote hservice rfl htimeout
          (fun hforgets hleads => ⟨hidentified hforgets hleads, fun hs => absurd rfl hs⟩) hc
    · change (w.deliveries ++ _).count _ ≤ 1
      rw [List.count_append, List.count_eq_zero.mpr (fun hmem => absurd rfl (hdeliveries _ hmem)),
        Nat.zero_add, houtcome]
      by_cases hx : x = s
      · subst hx
        exact count_deliveriesOf (relay_pointers hwired ..) p
      · rw [List.count_eq_zero.mpr (fun hmem => hx (mem_deliveriesOf hmem).2)]
        exact Nat.zero_le 1
    · rcases List.mem_append.mp hmem with hmem | hmem
      · exact absurd rfl (hdeliveries _ hmem)
      · obtain rfl := (mem_deliveriesOf hmem).2
        by_cases horphan : Orphan message
        · rw [houtcome] at hmem
          exact Or.inl ⟨forgets_of_mem horphan hmem, rfl⟩
        · refine Or.inr ?_
          simp only [process, Function.update_self]
          rw [hmemory]
          exact hremembered horphan

end Steps

section Runs

variable {net : ι → Server ι} {w : World ι}

theorem step_suppressed (hwired : Wired net)
    (hremote : ∀ s, (net s).fMyAddress.networkType ≠ .typeLoopback) {a : Action ι} {tag : ℕ}
    {o : Origin ι} {id : QString} (hid : id ≠ []) (hidentified : Identified net o)
    (hnow : 0 < a.now ∧ a.now ≤ deadline o) (htag : tag < w.origins.length)
    (h : Suppressed net tag o.server (Forgets net o) id (deadline o) w) :
    Suppressed net tag o.server (Forgets net o) id (deadline o) (step net w a) := by
  cases a with
  | send s message now =>
    refine process_other ?_ (Nat.ne_of_gt htag) hnow.2
    exact ⟨h.copies, h.once, h.remembered⟩
  | deliver i now =>
    simp only [step]
    split
    · exact h
    · rename_i c hc
      have herase : Suppressed net tag o.server (Forgets net o) id (deadline o)
          { w with flight := w.flight.eraseIdx i } :=
        ⟨fun d hd => h.copies d (List.mem_of_mem_eraseIdx hd), h.once, h.remembered⟩
      by_cases hsame : c.tag = tag
      · rw [hsame]
        exact process_copy hwired hremote hid hnow hidentified herase
          (h.copies c (List.mem_of_getElem? hc) hsame)
      · exact process_other herase hsame hnow.2

theorem run_suppressed (hwired : Wired net)
    (hremote : ∀ s, (net s).fMyAddress.networkType ≠ .typeLoopback) {actions : List (Action ι)}
    (hrun : Reaches net actions w) {tag : ℕ} {o : Origin ι} (ho : w.origins[tag]? = some o)
    (hservice : o.message.fService = star) (hidentified : Identified net o)
    (htime : Timely actions (deadline o)) :
    ∃ id ≠ [], Suppressed net tag o.server (Forgets net o) id (deadline o) w :=
  hrun.of_origin ho htime
    (fun _ _ hv _ htag hnow => by
      have hnumbered := run_numbered hv
      subst htag
      exact process_first hwired hremote (fun c hc => Nat.ne_of_lt (hnumbered.flight c hc))
        (fun d hd => Nat.ne_of_lt (hnumbered.deliveries d hd)) hservice hidentified hnow)
    fun _ hid hnow htag h => step_suppressed hwired hremote hid hidentified hnow htag h

end Runs

/-- Before a message for everyone times out, every service of every server is sent it
at most once, if its first server has an IPv4 address, is not connected to or has no
service for it, or it came with an identifier, and snapcommunicators do not reach each
other over the loopback network. -/
theorem delivered_once (net : ι → Server ι) (hwired : Wired net)
    (hremote : ∀ s, (net s).fMyAddress.networkType ≠ .typeLoopback)
    (actions : List (Action ι)) (w : World ι) (hrun : Reaches net actions w) (tag : ℕ)
    (o : Origin ι) (ho : w.origins[tag]? = some o) (hservice : o.message.fService = star)
    (htime : Timely actions (deadline o)) (hidentified : Identified net o) (s : ι) (pointer : ℕ) :
    w.deliveries.count ⟨tag, s, pointer⟩ ≤ 1 := by
  obtain ⟨id, -, hsuppressed⟩ := run_suppressed hwired hremote hrun ho hservice hidentified htime
  exact hsuppressed.once s pointer

def pair (address : Bool → Address) : Bool → Server Bool := 
  serverOf address (fun s => [!s]) (fun _ => ascii "worker")

def pairActions : List (Action Bool) := [.send false ping 1, .deliver 0 2, .deliver 0 3]

theorem delivered_once_pair :
    (pairActions.foldl (step (pair (fun s => ⟨#v[0, 0, 0, 0, 0, 0xFFFF, 0x0A00,
      if s then 2 else 1]⟩))) {}).deliveries.count ⟨0, false, 0⟩ ≤ 1 :=
  delivered_once _ (wired_serverOf _ _ _ (by decide)) (by decide) pairActions _
    (reaches_foldl _ pairActions) 0 ⟨false, ping, 1⟩ rfl rfl (by unfold Timely; decide)
    (fun _ _ => rfl) false 0

/-- The address of a server with an IPv6 address is not recognized among the informed
ones, because of its brackets: the message comes back to it. -/
theorem ipv6_delivered_twice : ∃ (address : Bool → Address) (w : World Bool),
    Function.Injective address ∧ (∀ s, (address s).networkType ≠ .typeLoopback) ∧
      Wired (pair address) ∧ Reaches (pair address) pairActions w ∧
      w.origins[0]? = some ⟨false, ping, 1⟩ ∧ ping.fService = star ∧
      Timely pairActions (deadline (⟨false, ping, 1⟩ : Origin Bool)) ∧
      w.deliveries.count ⟨0, false, 0⟩ = 2 := by
  refine ⟨fun s => ⟨#v[0xFD00, 0, 0, 0, 0, 0, 0, if s then 2 else 1]⟩, _,
    by unfold Function.Injective; decide, by decide,
    wired_serverOf _ _ _ (by decide), reaches_foldl _ pairActions, rfl, rfl,
    by unfold Timely; decide, ?_⟩
  decide

end SnapCpp.GossipOnce
