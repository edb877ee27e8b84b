import SnapCpp.GossipNetwork

/-!
A message for one service. A server that has the service sends it there and stops
without a trace, so that nothing tells a second copy from the first one. The copies
that reach such a server come from servers that were not told it is informed. The
message arrives once if there is only one of them.
-/
namespace SnapCpp.GossipService

open QString QNumber CommunicatorMessage SnapAddr CommunicatorServer GossipNetwork

variable {ι : Type}

def routeOf (server : Server ι) (message : Message) : Except QString (Route ι) :=
  route server.isDebug (serverName server message) message.fService
    ((serverName server message).isEmpty || serverName server message == star)
    server.connections []

def accepting (server : Server ι) (message : Message) : List (Connection ι) :=
  match routeOf server message with
  | .ok (.remote l) => l
  | _ => []

def Toward (net : ι → Server ι) (message : Message) (s d : ι) : Prop :=
  ∃ c ∈ accepting (net s) message, c.peer = some d

/-- The servers that the message gets to without passing one that knows `d`. -/
inductive Unaware (net : ι → Server ι) (message : Message) (first d : ι) : ι → Prop
  | first : Unaware net message first d first
  | next {s x : ι} : Unaware net message first d s → ¬ Toward net message s d →
      Toward net message s x → Unaware net message first d x

/-- At most one of them knows `d`. -/
def Unforked (net : ι → Server ι) (message : Message) (first d : ι) : Prop :=
  ∀ s x, Unaware net message first d s → Unaware net message first d x →
    Toward net message s d → Toward net message x d → s = x

structure Named (net : ι → Server ι) (message : Message) : Prop where
  service : ∀ s, ∀ c ∈ (net s).connections, c.peer = none →
    c.isService = true ∧ c.connectionType ≠ .typeRemote
  server : ∀ s, ∀ c ∈ (net s).connections, c.peer ≠ none → c.name ≠ message.fService

section Routes

theorem route_spec {isDebug allServers : Bool} {serverName service : QString}
    {cs found : List (Connection ι)} {r : Route ι}
    (h : route isDebug serverName service allServers cs found = .ok r) :
    (∃ c ∈ cs, r = .service c ∧ c.name = service) ∨
      ∃ l, r = .remote l ∧ ∀ c ∈ l, c ∈ found ∨
        c ∈ cs ∧ (c.isService = true → c.connectionType = .typeRemote) := by
  induction cs generalizing found with
  | nil =>
    obtain rfl := Except.ok.inj h
    exact Or.inr ⟨found, rfl, fun c hc => Or.inl hc⟩
  | cons a rest ih =>
    have hskip : route isDebug serverName service allServers rest found = .ok r →
        (∃ c ∈ a :: rest, r = .service c ∧ c.name = service) ∨
          ∃ l, r = .remote l ∧ ∀ c ∈ l, c ∈ found ∨
            c ∈ a :: rest ∧ (c.isService = true → c.connectionType = .typeRemote) := by
      intro h
      rcases ih h with ⟨c, hc, hr⟩ | ⟨l, hr, hl⟩
      · exact Or.inl ⟨c, List.mem_cons_of_mem a hc, hr⟩
      · refine Or.inr ⟨l, hr, fun c hc => ?_⟩
        exact (hl c hc).imp_right (fun hmem => ⟨List.mem_cons_of_mem a hmem.1, hmem.2⟩)
    have hadd : (a.isService = true → a.connectionType = .typeRemote) →
        route isDebug serverName service allServers rest (found ++ [a]) = .ok r →
        (∃ c ∈ a :: rest, r = .service c ∧ c.name = service) ∨
          ∃ l, r = .remote l ∧ ∀ c ∈ l, c ∈ found ∨
            c ∈ a :: rest ∧ (c.isService = true → c.connectionType = .typeRemote) := by
      intro ha h
      rcases ih h with ⟨c, hc, hr⟩ | ⟨l, hr, hl⟩
      · exact Or.inl ⟨c, List.mem_cons_of_mem a hc, hr⟩
      · refine Or.inr ⟨l, hr, fun c hc => ?_⟩
        rcases hl c hc with hmem | hmem
        · rcases List.mem_append.mp hmem with hmem | hmem
          · exact Or.inl hmem
          · rw [List.mem_singleton.mp hmem]
            exact Or.inr ⟨List.mem_cons_self, ha⟩
        · exact Or.inr ⟨List.mem_cons_of_mem a hmem.1, hmem.2⟩
    rw [route] at h
    split_ifs at h with h₁ h₂ h₃ h₄ h₅ h₆
    · exact hskip h
    · obtain rfl := Except.ok.inj h
      exact Or.inl ⟨a, List.mem_cons_self, rfl, h₅⟩
    · exact hadd (fun _ => h₆) h
    · exact hskip h
    · exact hadd (fun hservice => absurd hservice h₄) h
    · exact hskip h

variable {net : ι → Server ι} {message : Message} {c : Connection ι} {s : ι}

theorem mem_accepting (h : c ∈ accepting (net s) message) :
    c ∈ (net s).connections ∧ (c.isService = true → c.connectionType = .typeRemote) := by
  unfold accepting at h
  split at h
  · rename_i l hroute
    rcases route_spec hroute with ⟨c, -, hr, -⟩ | ⟨l', hr, hl⟩
    · cases hr
    · cases hr
      rcases hl c h with hmem | hmem
      · cases hmem
      · exact hmem
  · cases h

theorem peer_of_accepting (hnamed : Named net message) (h : c ∈ accepting (net s) message) :
    c.peer ≠ none := by
  intro hpeer
  obtain ⟨hmem, htype⟩ := mem_accepting h
  obtain ⟨hservice, hremote⟩ := hnamed.service s c hmem hpeer
  exact hremote (htype hservice)

theorem routeOf_service (h : routeOf (net s) message = .ok (.service c)) :
    c ∈ (net s).connections ∧ c.name = message.fService := by
  rcases route_spec h with ⟨d, hd, hr, hname⟩ | ⟨l, hr, -⟩
  · cases hr
    exact ⟨hd, hname⟩
  · cases hr

/-- The servers and services that two messages are for are the same. -/
def SameRoute (m m' : Message) : Prop := m.fServer = m'.fServer ∧ m.fService = m'.fService

theorem routeOf_same {m m' : Message} (h : SameRoute m m') (server : Server ι) :
    routeOf server m = routeOf server m' := by
  simp only [routeOf, serverName, h.1, h.2]

def IsDirected (message : Message) : Prop :=
  message.fService ≠ star ∧ message.fService ≠ anyone ∧ message.fService ≠ here

theorem processMessage_directed (server : Server ι) (m : Memory) {message : Message} (now : ℤ)
    (h : IsDirected message) :
    (outcome (processMessage server m message now).2).sends = [] ∨
      (∃ c, routeOf server message = .ok (.service c) ∧
        (outcome (processMessage server m message now).2).sends = [(c, message)]) ∨
      ∃ m' incoming, accepting server message ≠ [] ∧
        accept m message now = .accepted m' incoming ∧
        (processMessage server m message now).1 =
          (relay server m' message (accepting server message) incoming now).1 ∧
        outcome (processMessage server m message now).2 =
          (relay server m' message (accepting server message) incoming now).2 := by
  have hstar :
      ¬ (message.fService = star ∨ message.fService = anyone ∨ message.fService = here) := by
    rw [not_or, not_or]
    exact h
  simp only [processMessage]
  split
  · exact Or.inl rfl
  · exact Or.inl rfl
  · split_ifs
    · exact Or.inl rfl
    · simp only [processDirected]
      change _ ∨ _ ∨ _
      cases hroute : routeOf server message with
      | error e =>
        rw [routeOf] at hroute
        rw [hroute]
        exact Or.inl rfl
      | ok r =>
        have hroute' := hroute
        rw [routeOf] at hroute'
        rw [hroute']
        cases r with
        | service c =>
          simp only
          split_ifs
          · exact Or.inr (Or.inl ⟨c, rfl, rfl⟩)
          · exact Or.inl rfl
        | remote l =>
          have haccepting : accepting server message = l := by rw [accepting, hroute]
          simp only
          split_ifs with hcache hself hempty
          · exact Or.inl rfl
          · exact Or.inl rfl
          · exact Or.inl rfl
          · unfold broadcastMessage
            cases haccept : accept m message now with
            | ignored => exact Or.inl rfl
            | failed m' e => exact Or.inl rfl
            | accepted m' incoming =>
              refine Or.inr (Or.inr ⟨m', incoming, ?_, rfl, ?_, ?_⟩)
              · rw [haccepting]
                simpa using hempty
              · rw [haccepting]
              · rw [haccepting]
                rfl

end Routes

def text (net : ι → Server ι) (d : ι) : QString := (net d).fMyAddress.getIpv4or6String false

/-- A copy of the message. Its target is unaware of `d`, or `d` is informed. -/
structure Carried (net : ι → Server ι) (message : Message) (first d : ι) (id : QString) (t : ℤ)
    (c : Copy ι) : Prop where
  route : SameRoute c.message message
  msgid : c.message.fParameters.find? broadcastMsgid = some id
  timeout : c.message.fParameters.find? broadcastTimeout = some (number t)
  informed : ∃ neighbors,
    c.message.fParameters.find? broadcastInformedNeighbors = some neighbors ∧
    (text net d ∈ splitComma neighbors ∨ Unaware net message first d c.target) ∧
    (Toward net message first d → text net d ∈ splitComma neighbors)

section Relays

variable {net : ι → Server ι} {message : Message} {s d : ι} {m : Memory} {incoming : Incoming}
  {now : ℤ} {tag : ℕ} {c : Connection ι} {m' : Message}

def chosen (server : Server ι) (message : Message) (incoming : Incoming) : List (Connection ι) :=
  (inform (accepting server message) (splitComma incoming.informedNeighbors)).2

theorem relay_directed (h : accepting (net s) message ≠ []) :
    (relay (net s) m message (accepting (net s) message) incoming now).2.sends =
      (chosen (net s) message incoming).map (fun c => (c, relayed (net s) m message
        (accepting (net s) message) incoming now)) := by
  have hempty : (accepting (net s) message).isEmpty = false := by simpa using h
  rw [relay_sends]
  simp [locals, candidates, hempty, chosen]

theorem mem_chosen (h : c ∈ chosen (net s) message incoming) :
    c ∈ accepting (net s) message ∧ addressText c ∉ splitComma incoming.informedNeighbors :=
  ⟨(inform_sublist _ _).subset h, address_notMem_of_inform h⟩

theorem addressText_eq (hwired : Wired net) (hc : c ∈ accepting (net s) message)
    (hpeer : c.peer = some d) : addressText c = text net d := by
  rw [addressText, hwired.address s c (mem_accepting hc).1 d hpeer]
  rfl

/-- Once a server is informed, or known to the one that relays, it stays in the list. -/
theorem text_mem_nextInformed (hwired : Wired net) (hne : accepting (net s) message ≠ [])
    (h : text net d ∈ splitComma incoming.informedNeighbors ∨ Toward net message s d) :
    text net d ∈ splitComma (joinComma (nextInformed (net s) message (accepting (net s) message)
      incoming)) := by
  have hempty : (accepting (net s) message).isEmpty = false := by simpa using hne
  have hmem : text net d ∈ (inform (accepting (net s) message)
      (splitComma incoming.informedNeighbors)).1 := by
    rcases h with h | ⟨c, hc, hpeer⟩
    · exact subset_inform _ _ h
    · rw [← addressText_eq hwired hc hpeer]
      exact address_mem_inform _ hc
  refine mem_splitComma_join ?_ (text_spec _).1 (text_spec _).2
  simp only [nextInformed, candidates, hempty, Bool.false_eq_true, if_false]
  split_ifs
  · exact hmem
  · exact List.mem_append_left _ hmem

theorem countP_le_one {α β : Type} {l : List α} {f : α → β} {p : α → Bool} {b : β}
    (hl : l.Pairwise (fun x y => f x ≠ f y)) (hp : ∀ x ∈ l, p x = true → f x = b) :
    l.countP p ≤ 1 := by
  induction l with
  | nil => simp
  | cons a rest ih =>
    obtain ⟨hhead, htail⟩ := List.pairwise_cons.mp hl
    rw [List.countP_cons]
    split_ifs with ha
    · have hrest : rest.countP p = 0 := by
        rw [List.countP_eq_zero]
        intro x hx hpx
        exact hhead x hx ((hp a List.mem_cons_self ha).trans
          (hp x (List.mem_cons_of_mem a hx) hpx).symm)
      omega
    · exact ih htail (List.forall_mem_cons.mp hp).2

theorem inform_pairwise (cs : List (Connection ι)) (informed : List QString) :
    (inform cs informed).2.Pairwise (fun x y => addressText x ≠ addressText y) := by
  induction cs generalizing informed with
  | nil => exact List.Pairwise.nil
  | cons c rest ih =>
    simp only [inform]
    split_ifs with hc
    · exact ih informed
    · refine List.pairwise_cons.mpr ⟨fun x hx heq => ?_, ih _⟩
      exact address_notMem_of_inform hx (by rw [← heq]; simp)

theorem deliveriesOf_relay (tag : ℕ) (s : ι) (m : Memory) (incoming : Incoming) (now : ℤ)
    (hnamed : Named net message) (hne : accepting (net s) message ≠ []) : deliveriesOf tag s
      (relay (net s) m message (accepting (net s) message) incoming now).2 = [] := by
  have hservices : services
      (relay (net s) m message (accepting (net s) message) incoming now).2 = [] := by
    rw [services, relay_directed hne, List.map_map]
    refine List.filter_eq_nil_iff.mpr (fun c hc => ?_)
    obtain ⟨c', hc', rfl⟩ := List.mem_map.mp hc
    simpa using peer_of_accepting hnamed (mem_chosen hc').1
  rw [deliveriesOf, hservices]
  rfl

theorem toward_same {m : Message} (h : SameRoute m m') :
    Toward net m s d ↔ Toward net m' s d := by
  rw [Toward, Toward, accepting, accepting, routeOf_same h]

theorem relay_carried (hwired : Wired net) {first : ι} {id : QString} {t : ℤ} {msg : Message}
    {c : Copy ι} (hroute : SameRoute msg message) (hne : accepting (net s) msg ≠ [])
    (hid : nextId (net s) m incoming = id)
    (htimeout : (if incoming.timeout = 0 then now + 10 else incoming.timeout) = t)
    (hunaware : text net d ∈ splitComma incoming.informedNeighbors ∨
      Unaware net message first d s)
    (hfirst : Toward net message first d → s = first ∨
      text net d ∈ splitComma incoming.informedNeighbors)
    (hc : c ∈ copies tag (relay (net s) m msg (accepting (net s) msg) incoming now).2) :
    Carried net message first d id t c := by
  obtain ⟨x, hx, hpeer, -, hmessage⟩ := mem_copies hc
  rw [relay_directed hne] at hx
  obtain ⟨a, ha, rfl⟩ := List.mem_map.mp hx
  have hout : Toward net message s c.target :=
    (toward_same hroute).mp ⟨a, (mem_chosen ha).1, hpeer⟩
  refine ⟨?_, ?_, ?_, joinComma (nextInformed (net s) msg (accepting (net s) msg) incoming),
    ?_, ?_, fun hd => ?_⟩
  · rw [hmessage]
    exact hroute
  · rw [hmessage, relayed_msgid, hid]
  · rw [hmessage, relayed_timeout, htimeout]
  · rw [hmessage, relayed_informed]
  · by_cases hd : text net d ∈ splitComma incoming.informedNeighbors ∨ Toward net msg s d
    · exact Or.inl (text_mem_nextInformed hwired hne hd)
    · rw [not_or] at hd
      refine Or.inr (Unaware.next (hunaware.resolve_left hd.1) ?_ hout)
      rw [← toward_same hroute]
      exact hd.2
  · refine text_mem_nextInformed hwired hne ?_
    rcases hfirst hd with rfl | hmem
    · exact Or.inr ((toward_same hroute).mpr hd)
    · exact Or.inl hmem

theorem named_same {m : Message} (h : SameRoute m m') (hnamed : Named net m') : Named net m :=
  ⟨hnamed.service, by rw [h.2]; exact hnamed.server⟩

theorem isDirected_same {m : Message} (h : SameRoute m m') (hdirected : IsDirected m') :
    IsDirected m := by
  rw [IsDirected, h.2]
  exact hdirected

theorem found_sends (tag : ℕ) {m : Message} {o : Outcome ι} (hnamed : Named net m)
    (hroute : routeOf (net s) m = .ok (.service c)) (ho : o.sends = [(c, m)]) :
    copies tag o = [] ∧ deliveriesOf tag s o = [⟨tag, s, c.pointer⟩] := by
  obtain ⟨hmem, hname⟩ := routeOf_service hroute
  have hpeer : c.peer = none := by
    by_contra hpeer
    exact hnamed.server s c hmem hpeer hname
  simp [copies, deliveriesOf, services, ho, hpeer]

end Relays

variable [DecidableEq ι]

/-- The copies of a message on their way to a server, and what it sent to services. -/
def pending (tag : ℕ) (d : ι) (w : World ι) : ℕ :=
  w.flight.countP (fun c => c.tag = tag ∧ c.target = d) +
    w.deliveries.countP (fun x => x.tag = tag ∧ x.server = d)

/-- At most one copy ever goes to `d`; the servers that could send another remember. -/
structure Single (net : ι → Server ι) (tag : ℕ) (message : Message) (first d : ι) (id : QString)
    (t : ℤ) (w : World ι) : Prop where
  copies : ∀ c ∈ w.flight, c.tag = tag → Carried net message first d id t c
  single : pending tag d w ≤ 1
  spent : 0 < pending tag d w → ∀ s, Unaware net message first d s → Toward net message s d →
    s = first ∨ (w.memory s).fReceivedBroadcastMessages.find? id = some t

section Steps

variable {net : ι → Server ι} {w : World ι} {s d first : ι} {tag : ℕ}
  {message : Message} {now t : ℤ}
  {id : QString}

theorem pending_process (tag' : ℕ) (m : Message) :
    pending tag d (process net w s tag' m now) = pending tag d w +
      ((copies tag' (outcome (processMessage (net s) (w.memory s) m now).2)).countP
          (fun c => c.tag = tag ∧ c.target = d) +
        (deliveriesOf tag' s (outcome (processMessage (net s) (w.memory s) m now).2)).countP
          (fun x => x.tag = tag ∧ x.server = d)) := by
  simp only [pending, process, List.countP_append]
  omega

theorem pending_take (tag : ℕ) (d : ι) {i : ℕ} {c : Copy ι} (h : w.flight[i]? = some c) :
    pending tag d w = pending tag d { w with flight := w.flight.eraseIdx i } +
      if c.tag = tag ∧ c.target = d then 1 else 0 := by
  have hcount := countP_eraseIdx (fun c => decide (c.tag = tag ∧ c.target = d)) w.flight i c h
  simp only [decide_eq_true_eq] at hcount
  simp only [pending]
  omega

/-- Nothing new about the message is sent. -/
theorem process_silent {tag' : ℕ} {m : Message} (h : Single net tag message first d id t w)
    (hnow : now ≤ t)
    (hcopies : ∀ c ∈ copies tag' (outcome (processMessage (net s) (w.memory s) m now).2),
      c.tag = tag → Carried net message first d id t c)
    (hpending : pending tag d (process net w s tag' m now) ≤ pending tag d w) :
    Single net tag message first d id t (process net w s tag' m now) := by
  refine ⟨fun c hc htag => ?_, hpending.trans h.single, fun hpos x hx hxd => ?_⟩
  · rcases List.mem_append.mp hc with hc | hc
    · exact h.copies c hc htag
    · exact hcopies c hc htag
  · rcases h.spent (lt_of_lt_of_le hpos hpending) x hx hxd with hfirst | hfind
    · exact Or.inl hfirst
    · exact Or.inr (process_memory_keeps _ x id t hfind hnow)

theorem countP_copies (l : List (Connection ι)) (m : Message) (o : Outcome ι)
    (ho : o.sends = l.map (fun c => (c, m))) :
    (copies tag o).countP (fun c => c.tag = tag ∧ c.target = d) =
      l.countP (fun c => c.peer = some d) := by
  rw [copies, ho]
  clear ho
  induction l with
  | nil => rfl
  | cons a rest ih =>
    rw [List.map_cons, List.countP_cons]
    cases hpeer : a.peer with
    | none =>
      rw [List.filterMap_cons_none (by simp [hpeer]), ih]
      simp
    | some x =>
      rw [List.filterMap_cons_some (b := ⟨x, tag, m⟩) (by simp [hpeer]), List.countP_cons, ih]
      simp

/-- A relay sends at most one copy to `d`, and none if `d` is informed. -/
theorem countP_relay (hwired : Wired net) (tag : ℕ) (d : ι) (m : Memory) (incoming : Incoming)
    (now : ℤ) (hne : accepting (net s) message ≠ []) :
    (copies tag (relay (net s) m message (accepting (net s) message) incoming now).2).countP
        (fun c => c.tag = tag ∧ c.target = d) = 0 ∨
      Toward net message s d ∧ text net d ∉ splitComma incoming.informedNeighbors ∧
      (copies tag (relay (net s) m message (accepting (net s) message) incoming now).2).countP
        (fun c => c.tag = tag ∧ c.target = d) = 1 := by
  rw [countP_copies _ _ _ (relay_directed hne)]
  have hle : (chosen (net s) message incoming).countP (fun c => c.peer = some d) ≤ 1 := by
    refine countP_le_one (inform_pairwise _ _) (b := text net d) (fun c hc hpeer => ?_)
    exact addressText_eq hwired (mem_chosen hc).1 (of_decide_eq_true hpeer)
  rcases Nat.eq_zero_or_pos ((chosen (net s) message incoming).countP
    (fun c => c.peer = some d)) with hzero | hpos
  · exact Or.inl hzero
  · obtain ⟨c, hc, hpeer⟩ := List.countP_pos_iff.mp hpos
    obtain ⟨hacc, hnot⟩ := mem_chosen hc
    have hpeer' := of_decide_eq_true hpeer
    rw [addressText_eq hwired hacc hpeer'] at hnot
    exact Or.inr ⟨⟨c, hacc, hpeer'⟩, hnot, le_antisymm hle hpos⟩

/-- One more copy is processed; `w` is the world that it was taken from. -/
theorem process_copy (hwired : Wired net) (hnamed : Named net message)
    (hdirected : IsDirected message) (hunforked : Unforked net message first d) (hid : id ≠ [])
    (hnow : 0 < now ∧ now ≤ t) (h : Single net tag message first d id t w) {i : ℕ} {c : Copy ι}
    (hget : w.flight[i]? = some c) (htag : c.tag = tag) :
    Single net tag message first d id t
      (process net { w with flight := w.flight.eraseIdx i } c.target tag c.message now) := by
  have hc := h.copies c (List.mem_of_getElem? hget) htag
  have htake := pending_take tag d hget
  rw [htag] at htake
  simp only [true_and] at htake
  have herase : Single net tag message first d id t { w with flight := w.flight.eraseIdx i } := by
    refine ⟨fun x hx => h.copies x (List.mem_of_mem_eraseIdx hx), ?_, fun hpos => ?_⟩
    · have hsingle := h.single
      omega
    · exact h.spent (by omega)
  generalize hw' : { w with flight := w.flight.eraseIdx i } = w' at *
  have hmemory : w'.memory = w.memory := by rw [← hw']
  rcases processMessage_directed (net c.target) (w'.memory c.target) now
    (isDirected_same hc.route hdirected) with
    hsilent | ⟨x, hroute, hsends⟩ | ⟨m', incoming, hne, haccept, hmem, houtcome⟩
  · have hcopies : copies tag (outcome (processMessage (net c.target) (w'.memory c.target)
        c.message now).2) = [] := by
      rw [copies, hsilent]
      rfl
    refine process_silent herase hnow.2 (fun y hy => ?_) ?_
    · rw [hcopies] at hy
      cases hy
    · rw [pending_process, hcopies]
      simp [deliveriesOf, services, hsilent]
  · obtain ⟨hcopies, hdeliveries⟩ := found_sends tag (named_same hc.route hnamed) hroute
      hsends
    have hpending : pending tag d (process net w' c.target tag c.message now) =
        pending tag d w := by
      rw [pending_process, hcopies, hdeliveries, htake]
      simp [List.countP_cons]
    refine ⟨fun y hy hytag => ?_, by rw [hpending]; exact h.single, fun hpos y hy hyd => ?_⟩
    · rcases List.mem_append.mp hy with hy | hy
      · exact herase.copies y hy hytag
      · rw [hcopies] at hy
        cases hy
    · rw [hpending] at hpos
      rcases h.spent hpos y hy hyd with hfirst | hfind
      · exact Or.inl hfirst
      · rw [← hmemory] at hfind
        exact Or.inr (process_memory_keeps _ y id t hfind hnow.2)
  · have hdeliveries := deliveriesOf_relay tag c.target m' incoming now
      (named_same hc.route hnamed) hne
    rcases accept_accepted haccept with ⟨hnone, -, -⟩ | ⟨hmsgid, htimeout, -, hhas, hlist, -, rfl⟩
    · rw [hc.msgid] at hnone
      cases hnone
    rw [hc.msgid] at hmsgid
    obtain rfl := Option.some.inj hmsgid
    have ht : incoming.timeout = t := getIntegerParameter_number hc.timeout htimeout
    obtain ⟨neighbors, hneighbors, hunaware, hfirst⟩ := hc.informed
    rw [getParameter_of_find hneighbors] at hlist
    obtain rfl := Except.ok.inj hlist
    have hcarried : ∀ y ∈ copies tag (outcome (processMessage (net c.target) (w'.memory c.target)
        c.message now).2), y.tag = tag → Carried net message first d incoming.msgid t y := by
      intro y hy _
      rw [houtcome] at hy
      refine relay_carried hwired hc.route hne (if_neg hid) ?_ hunaware
        (fun hd => Or.inr (hfirst hd)) hy
      rw [if_neg (by omega), ht]
    rcases countP_relay hwired tag d
      (remember (w'.memory c.target) incoming.msgid incoming.timeout now) incoming now hne with
      hzero | ⟨htoward, hnot, hone⟩
    · refine process_silent herase hnow.2 hcarried ?_
      rw [pending_process, houtcome, hdeliveries, hzero]
      simp
    · rw [toward_same hc.route] at htoward
      -- nothing was sent to `d` before: this server would have sent it
      have hfresh : pending tag d w' = 0 := by
        by_contra hpos
        rcases herase.spent (Nat.pos_of_ne_zero hpos) c.target (hunaware.resolve_left hnot) htoward
          with heq | hfind
        · rw [heq] at htoward
          exact hnot (hfirst htoward)
        · exact hhas (by rw [OrderedMap.Has, hfind]; simp)
      refine ⟨fun y hy hytag => ?_, ?_, fun _ y hy hyd => Or.inr ?_⟩
      · rcases List.mem_append.mp hy with hy | hy
        · exact herase.copies y hy hytag
        · exact hcarried y hy hytag
      · rw [pending_process, houtcome, hdeliveries, hone, hfresh]
        simp
      · obtain rfl := hunforked y c.target hy (hunaware.resolve_left hnot) hyd htoward
        simp only [process, Function.update_self]
        rw [hmem, relay_received, remember, OrderedMap.find?_insert, if_pos rfl, ht]

theorem process_first (hwired : Wired net) (hnamed : Named net message)
    (hdirected : IsDirected message) (hunforked : Unforked net message s d)
    (hother : ∀ c, routeOf (net s) message ≠ .ok (.service c))
    (hflight : ∀ c ∈ w.flight, c.tag ≠ tag) (hdeliveries : ∀ x ∈ w.deliveries, x.tag ≠ tag)
    (hnow : 0 < now ∧ now ≤ deadline ⟨s, message, now⟩) :
    ∃ id ≠ [], Single net tag message s d id (deadline ⟨s, message, now⟩)
      (process net w s tag message now) := by
  have hzero : pending tag d w = 0 := by
    have hcopies : w.flight.countP (fun c => c.tag = tag ∧ c.target = d) = 0 :=
      List.countP_eq_zero.mpr (fun c hc => by simp [hflight c hc])
    have hdel : w.deliveries.countP (fun x => x.tag = tag ∧ x.server = d) = 0 :=
      List.countP_eq_zero.mpr (fun x hx => by simp [hdeliveries x hx])
    rw [pending, hcopies, hdel]
  have hnone : ∀ id, Single net tag message s d id (deadline ⟨s, message, now⟩) w := fun id =>
    ⟨fun c hc htag => absurd htag (hflight c hc), by rw [hzero]; exact Nat.zero_le 1,
      fun hpos => absurd hzero (Nat.ne_of_gt hpos)⟩
  rcases processMessage_directed (net s) (w.memory s) now hdirected with
    hsilent | ⟨x, hroute, -⟩ | ⟨m', incoming, hne, haccept, hmem, houtcome⟩
  · refine ⟨[0], by decide, process_silent (hnone [0]) hnow.2 (fun y hy => ?_) ?_⟩
    · rw [copies, hsilent] at hy
      cases hy
    · rw [pending_process]
      simp [copies, deliveriesOf, services, hsilent]
  · exact absurd hroute (hother x)
  · have htimeout := accept_deadline (s := s) haccept hnow.1
    have hnew := deliveriesOf_relay tag s m' incoming now hnamed hne
    refine ⟨nextId (net s) m' incoming, nextId_ne_nil _ _ _, fun c hc htag => ?_, ?_,
      fun hpos x hx hxd => ?_⟩
    · rcases List.mem_append.mp hc with hc | hc
      · exact absurd htag (hflight c hc)
      · rw [houtcome] at hc
        exact relay_carried hwired ⟨rfl, rfl⟩ hne rfl htimeout (Or.inr Unaware.first)
          (fun _ => Or.inl rfl) hc
    · rw [pending_process, hzero, houtcome, hnew]
      rcases countP_relay hwired tag d m' incoming now hne with hcount | ⟨-, -, hcount⟩
      · rw [hcount]
        simp
      · rw [hcount]
        simp
    · rw [pending_process, hzero, houtcome, hnew] at hpos
      rcases countP_relay hwired tag d m' incoming now hne with hcount | ⟨htoward, -, -⟩
      · rw [hcount] at hpos
        simp at hpos
      · exact Or.inl (hunforked x s hx Unaware.first hxd htoward)

theorem step_single (hwired : Wired net) (hnamed : Named net message)
    (hdirected : IsDirected message) (hunforked : Unforked net message first d) {a : Action ι}
    (hid : id ≠ []) (hnow : 0 < a.now ∧ a.now ≤ t) (htag : tag < w.origins.length)
    (h : Single net tag message first d id t w) :
    Single net tag message first d id t (step net w a) := by
  have hother : ∀ {v : World ι} {s : ι} {tag' : ℕ} {m : Message}, tag' ≠ tag →
      Single net tag message first d id t v →
      Single net tag message first d id t (process net v s tag' m a.now) := by
    intro v s tag' m hne hv
    have hcopies : ∀ c ∈ copies tag' (outcome (processMessage (net s) (v.memory s) m a.now).2),
        c.tag ≠ tag := fun c hc htag => by
      obtain ⟨-, -, -, htag', -⟩ := mem_copies hc
      exact hne (htag'.symm.trans htag)
    refine process_silent hv hnow.2 (fun c hc htag => absurd htag (hcopies c hc)) ?_
    rw [pending_process, List.countP_eq_zero.mpr (fun c hc => by simp [hcopies c hc]),
      List.countP_eq_zero.mpr (fun x hx => by simp [(mem_deliveriesOf hx).1, hne])]
    exact le_rfl
  cases a with
  | send s m now =>
    refine hother (Nat.ne_of_gt htag) ?_
    exact ⟨h.copies, h.single, h.spent⟩
  | deliver i now =>
    simp only [step]
    split
    · exact h
    · rename_i c hc
      by_cases hsame : c.tag = tag
      · rw [hsame]
        exact process_copy hwired hnamed hdirected hunforked hid hnow h hc hsame
      · have htake := pending_take tag d hc
        refine hother hsame ⟨fun x hx => h.copies x (List.mem_of_mem_eraseIdx hx), ?_,
          fun hpos => ?_⟩
        · exact le_trans (by omega) h.single
        · exact h.spent (by omega)

end Steps

structure Forwarded (net : ι → Server ι) (o : Origin ι) : Prop where
  directed : IsDirected o.message
  other : ∀ c, routeOf (net o.server) o.message ≠ .ok (.service c)

theorem run_single {net : ι → Server ι} (hwired : Wired net) {actions : List (Action ι)}
    {w : World ι} (hrun : Reaches net actions w) {tag : ℕ} {o : Origin ι}
    (ho : w.origins[tag]? = some o) (hforwarded : Forwarded net o) (hnamed : Named net o.message)
    (htime : Timely actions (deadline o)) {d : ι} (hunforked : Unforked net o.message o.server d) :
    ∃ id ≠ [], Single net tag o.message o.server d id (deadline o) w :=
  hrun.of_origin ho htime
    (fun _ _ hv _ htag hnow => by
      have hnumbered := run_numbered hv
      subst htag
      exact process_first hwired hnamed hforwarded.directed hunforked hforwarded.other
        (fun c hc => Nat.ne_of_lt (hnumbered.flight c hc))
        (fun d hd => Nat.ne_of_lt (hnumbered.deliveries d hd)) hnow)
    fun _ hid hnow htag h => step_single hwired hnamed hforwarded.directed hunforked hid hnow htag h

/-- Before a message for a service times out, a server sends it to that service at most
once, if among the servers it gets to unaware of that server at most one knows it. -/
theorem service_delivered_once (net : ι → Server ι) (hwired : Wired net)
    (actions : List (Action ι)) (w : World ι) (hrun : Reaches net actions w) (tag : ℕ)
    (o : Origin ι) (ho : w.origins[tag]? = some o) (hforwarded : Forwarded net o)
    (hnamed : Named net o.message) (htime : Timely actions (deadline o)) (d : ι)
    (hunforked : Unforked net o.message o.server d) (pointer : ℕ) :
    w.deliveries.count ⟨tag, d, pointer⟩ ≤ 1 := by
  obtain ⟨id, -, hsingle⟩ := run_single hwired hrun ho hforwarded hnamed htime hunforked
  have hcount : w.deliveries.count ⟨tag, d, pointer⟩ ≤
      w.deliveries.countP (fun x => x.tag = tag ∧ x.server = d) := by
    refine List.countP_mono_left (fun x _ hx => ?_)
    rw [beq_iff_eq.mp hx]
    simp
  exact hcount.trans ((Nat.le_add_left _ _).trans hsingle.single)

def call : Message where
  fService := ascii "worker"
  fCommand := ascii "PING"

def cluster {n : ℕ} (neighbors : Fin n → List (Fin n)) : Fin n → Server (Fin n) :=
  serverOf (fun s => ⟨#v[0, 0, 0, 0, 0, 0xFFFF, 0x0A00, s.val.toUInt16 + 1]⟩) neighbors
    (fun s => if s.val + 1 = n then ascii "worker" else ascii "idle")

theorem named_cluster {n : ℕ} (neighbors : Fin n → List (Fin n)) :
    Named (cluster neighbors) call := by
  refine ⟨fun s c hc hpeer => ?_, fun s c hc hpeer => ?_⟩
  · rcases mem_serverOf hc with rfl | ⟨i, x, -, rfl⟩
    · exact ⟨rfl, fun h => by cases h⟩
    · cases hpeer
  · rcases mem_serverOf hc with rfl | ⟨i, x, -, rfl⟩
    · exact absurd rfl hpeer
    · change ascii "remote" ≠ ascii "worker"
      decide

def line : Fin 3 → Server (Fin 3) := cluster ![[1], [0, 2], [1]]

def lineActions : List (Action (Fin 3)) := [.send 0 call 1, .deliver 0 2, .deliver 0 3]

theorem service_delivered_once_line :
    (lineActions.foldl (step line) {}).deliveries.count ⟨0, 2, 0⟩ ≤ 1 := by
  refine service_delivered_once line (wired_serverOf _ _ _ (by decide)) lineActions _
    (reaches_foldl line lineActions) 0 ⟨0, call, 1⟩ rfl ⟨by unfold IsDirected; decide, ?_⟩
    (named_cluster _) (by unfold Timely; decide) 2 ?_ 0
  · intro c hc
    have hremote : ∀ d, routeOf (line 0) call ≠ .ok (.service d) := by
      intro d hd
      cases hd
    exact absurd hc (hremote c)
  · have honly : ∀ s x : Fin 3, (∃ c ∈ accepting (line s) call, c.peer = some 2) →
        (∃ c ∈ accepting (line x) call, c.peer = some 2) → s = x := by decide
    exact fun s x _ _ => honly s x

def diamond : Fin 4 → Server (Fin 4) := cluster ![[1, 2], [0, 3], [0, 3], [1, 2]]

def diamondActions : List (Action (Fin 4)) :=
  [.send 0 call 1, .deliver 0 2, .deliver 0 2, .deliver 0 3, .deliver 0 3]

/-- Both neighbors of the server that has the service send it the message, and neither
copy is remembered. -/
theorem service_delivered_twice : ∃ w, Wired diamond ∧ Named diamond call ∧ IsDirected call ∧
    Reaches diamond diamondActions w ∧ w.origins[0]? = some ⟨0, call, 1⟩ ∧
    (∀ c ∈ (diamond 0).connections, c.name ≠ call.fService) ∧
    Timely diamondActions (deadline (⟨0, call, 1⟩ : Origin (Fin 4))) ∧
    w.deliveries.count ⟨0, 3, 0⟩ = 2 := by
  refine ⟨_, wired_serverOf _ _ _ (by decide), named_cluster _, by unfold IsDirected; decide,
    reaches_foldl diamond diamondActions, rfl, by decide, by unfold Timely; decide, ?_⟩
  decide

end SnapCpp.GossipService
