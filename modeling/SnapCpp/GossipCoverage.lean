import SnapCpp.GossipIdentifiers

/-!
How far a message for everyone gets. A server passes it on unless it made five hops
already, and then only the first copy that a server gets counts. So the message may
stop at a server that is close to the first one but got it along a detour. Whoever is
told of by a copy has the message or is about to get it: the neighbors of a server
that passes the message on are all informed in the end. Other messages may be on their
way at the same time; their identifiers are others.
-/
namespace SnapCpp.GossipCoverage

open QString QNumber CommunicatorMessage SnapAddr CommunicatorServer GossipNetwork GossipIdentifiers

variable {ι : Type} {message : Message} {n : ℕ}

/-- Snapcommunicators have different names and private IPv4 addresses, and services connect
over the loopback network. -/
structure PrivateNetwork (net : ι → Server ι) : Prop extends Wired net where
  ipv4 : ∀ s, (net s).fMyAddress.isIpv4 = true
  privateAddress : ∀ s, (net s).fMyAddress.networkType = .typePrivate
  distinct : ∀ s x, (net s).fMyAddress = (net x).fMyAddress → s = x
  names : ∀ s x, (net s).fServerName = (net x).fServerName → s = x
  loopback : ∀ s, ∀ c ∈ (net s).connections, c.peer = none →
    c.address.networkType = .typeLoopback

def Adjacent (net : ι → Server ι) (s x : ι) : Prop := ∃ c ∈ (net s).connections, c.peer = some x

/-- The servers at the end of a path of `n` connections. -/
inductive Path (net : ι → Server ι) (first : ι) : ℕ → ι → Prop
  | first : Path net first 0 first
  | next {n : ℕ} {s x : ι} : Path net first n s → Adjacent net s x → Path net first (n + 1) x

/-- A server at most `n` connections away. -/
def Within (net : ι → Server ι) (first : ι) (n : ℕ) (x : ι) : Prop :=
  ∃ k ≤ n, Path net first k x

/-- A server that ran `broadcast_message()` for a message. -/
def Executed (tag : ℕ) (w : World ι) (x : ι) : Prop :=
  ∃ hops, (⟨tag, x, hops⟩ : Execution ι) ∈ w.executions

def Informed (tag : ℕ) (w : World ι) (x : ι) : Prop :=
  Executed tag w x ∨ ∃ c ∈ w.flight, c.tag = tag ∧ c.target = x

def text (net : ι → Server ι) (x : ι) : QString := (net x).fMyAddress.getIpv4String

section Texts

variable {net : ι → Server ι}

theorem text_injective (h : PrivateNetwork net) {s x : ι} (heq : text net s = text net x) : s = x :=
  h.distinct s x (ipv4_injective (h.ipv4 s) (h.ipv4 x) heq)

theorem originator_eq (h : PrivateNetwork net) (s : ι) : originator (net s) = text net s :=
  getIpv4or6String_ipv4 (h.ipv4 s) true

theorem addressText_eq (h : PrivateNetwork net) {s x : ι} {c : Connection ι}
    (hc : c ∈ (net s).connections) (hpeer : c.peer = some x) : addressText c = text net x := by
  rw [addressText, h.address s c hc x hpeer]
  exact getIpv4or6String_ipv4 (h.ipv4 x) false

theorem text_word (x : ι) : comma ∉ text net x ∧ text net x ≠ [] :=
  ⟨comma_notMem_dotted _ _, dotted_ne_nil _ _⟩

end Texts

section Relaying

theorem inform_eq (cs : List (Connection ι)) (informed : List QString) :
    (inform cs informed).1 = informed ++ (inform cs informed).2.map addressText := by
  induction cs generalizing informed with
  | nil => simp [inform]
  | cons c rest ih =>
    simp only [inform]
    split_ifs with hc
    · exact ih informed
    · simp [ih]

theorem destination_star {message : Message} (h : message.fService = star) :
    destination message = star := by
  rw [destination, if_neg (by simp [h]), h]

variable {net : ι → Server ι} {message : Message} {s : ι} {c : Connection ι} {incoming : Incoming}

theorem mem_candidates (h : PrivateNetwork net) (hservice : message.fService = star) {hops : ℤ}
    : c ∈ candidates (net s) message [] hops ↔
      hops < 5 ∧ c ∈ (net s).connections ∧ c.peer ≠ none := by
  simp only [candidates, List.isEmpty_nil, if_true, List.mem_filter, destination_star hservice]
  constructor
  · rintro ⟨hc, hlets⟩
    have hpeer : c.peer ≠ none := by
      intro hpeer
      rw [lets, h.loopback s c hc hpeer] at hlets
      cases hlets
    obtain ⟨x, hx⟩ := Option.ne_none_iff_exists'.mp hpeer
    rw [lets, h.address s c hc x hx, h.privateAddress x] at hlets
    simp at hlets
    exact ⟨hlets.1, hc, hpeer⟩
  · rintro ⟨hhops, hc, hpeer⟩
    obtain ⟨x, hx⟩ := Option.ne_none_iff_exists'.mp hpeer
    rw [lets, h.address s c hc x hx, h.privateAddress x]
    simp [hhops, hc]

theorem peer_of_local (h : PrivateNetwork net) (hc : c ∈ locals (net s) message []) :
    c.peer = none := by
  simp only [locals, List.isEmpty_nil, if_true, List.mem_filter, isLocal, Bool.and_eq_true,
    decide_eq_true_eq] at hc
  by_contra hpeer
  obtain ⟨x, hx⟩ := Option.ne_none_iff_exists'.mp hpeer
  have hloop := hc.2.1.2
  rw [h.address s c hc.1 x hx, h.privateAddress x] at hloop
  cases hloop

def chosen (server : Server ι) (message : Message) (incoming : Incoming) : List (Connection ι) :=
  (inform (candidates server message [] incoming.hops) (splitComma incoming.informedNeighbors)).2

theorem mem_chosen (h : PrivateNetwork net) (hservice : message.fService = star)
    (hc : c ∈ chosen (net s) message incoming) :
    incoming.hops < 5 ∧ c ∈ (net s).connections ∧ c.peer ≠ none :=
  (mem_candidates h hservice).mp ((inform_sublist _ _).subset hc)

theorem copies_relay (h : PrivateNetwork net) {m : Memory} {now : ℤ}
    {tag : ℕ} {c : Copy ι} : c ∈ copies tag (relay (net s) m message [] incoming now).2 ↔
      c.tag = tag ∧ c.message = relayed (net s) m message [] incoming now ∧
        ∃ a ∈ chosen (net s) message incoming, a.peer = some c.target := by
  constructor
  · intro hc
    obtain ⟨x, hx, hpeer, htag, hmessage⟩ := mem_copies hc
    rw [relay_sends, List.mem_append] at hx
    rcases hx with hx | hx
    · obtain ⟨a, ha, rfl⟩ := List.mem_map.mp hx
      rw [peer_of_local h ha] at hpeer
      cases hpeer
    · obtain ⟨a, ha, rfl⟩ := List.mem_map.mp hx
      exact ⟨htag, hmessage, a, ha, hpeer⟩
  · rintro ⟨rfl, hmessage, a, ha, hpeer⟩
    refine List.mem_filterMap.mpr ⟨(a, relayed (net s) m message [] incoming now), ?_, ?_⟩
    · rw [relay_sends]
      exact List.mem_append_right _ (List.mem_map.mpr ⟨a, ha, rfl⟩)
    · rw [hpeer, ← hmessage]
      rfl

/-- The words of the list that the copies carry. -/
theorem mem_nextInformed (h : PrivateNetwork net) {word : QString} :
    word ∈ nextInformed (net s) message [] incoming ↔
      word ∈ splitComma incoming.informedNeighbors ∨
      (∃ a ∈ chosen (net s) message incoming, word = addressText a) ∨ word = text net s := by
  have hlist : word ∈ nextInformed (net s) message [] incoming ↔
      word ∈ (inform (candidates (net s) message [] incoming.hops)
        (splitComma incoming.informedNeighbors)).1 ∨ word = originator (net s) := by
    simp only [nextInformed]
    split_ifs with hmem
    · constructor
      · exact Or.inl
      · rintro (hw | rfl)
        · exact hw
        · exact hmem
    · simp
  rw [hlist, inform_eq, List.mem_append, List.mem_map, originator_eq h]
  simp only [chosen, eq_comm (a := word), or_assoc]

theorem informed_or_chosen (h : PrivateNetwork net) (hservice : message.fService = star)
    (incoming : Incoming) (hhops : incoming.hops < 5) {z : ι} (hz : Adjacent net s z) :
    text net z ∈ splitComma incoming.informedNeighbors ∨
      ∃ a ∈ chosen (net s) message incoming, a.peer = some z := by
  obtain ⟨c, hc, hpeer⟩ := hz
  have hcandidate : c ∈ candidates (net s) message [] incoming.hops :=
    (mem_candidates h hservice).mpr ⟨hhops, hc, by rw [hpeer]; simp⟩
  have hmem := address_mem_inform (splitComma incoming.informedNeighbors) hcandidate
  rw [inform_eq, List.mem_append, addressText_eq h hc hpeer] at hmem
  refine hmem.imp_right (fun hmap => ?_)
  obtain ⟨a, ha, hword⟩ := List.mem_map.mp hmap
  obtain ⟨-, hconnection, hsome⟩ := mem_chosen h hservice ha
  obtain ⟨y, hy⟩ := Option.ne_none_iff_exists'.mp hsome
  rw [addressText_eq h hconnection hy] at hword
  exact ⟨a, ha, by rw [hy, text_injective h hword]⟩

end Relaying

theorem getIntegerParameter_of_number {name : QString} {n : ℤ}
    (h : message.fParameters.find? name = some (number n)) (hn : IsInt64 n) :
    getIntegerParameter message name = .ok n := by
  rw [getIntegerParameter, h]
  simp [toLongLong_number hn]

structure ForEveryone (message : Message) : Prop where
  service : message.fService = star
  server : message.fServer = [] ∨ message.fServer = star

theorem processMessage_everyone {server : Server ι} {m : Memory} {now : ℤ}
    (h : ForEveryone message) : processMessage server m message now =
      match dropped m message now with
      | .error e => (m, .error e)
      | .ok true => (m, .ok {})
      | .ok false => broadcastMessage server m message [] now := by
  have hname : serverName server message = message.fServer := by
    rw [serverName, if_neg]
    rcases h.server with hs | hs <;> rw [hs] <;> decide
  have hcommand : ¬ (message.fService = [] ∨ message.fService = ascii "snapcommunicator") := by
    rw [h.service]
    decide
  have hcontradiction : ¬ (serverName server message ≠ [] ∧ serverName server message ≠ star ∧
      (message.fService = star ∨ message.fService = anyone)) := by
    rw [hname]
    rcases h.server with hs | hs <;> simp [hs]
  simp only [processMessage]
  cases hdropped : dropped m message now with
  | error e => rfl
  | ok b =>
    cases b with
    | true => rfl
    | false =>
      simp only
      rw [if_neg (fun hc => hcommand hc.2), if_pos (Or.inl h.service), if_neg hcontradiction]

/-- A copy whose parameters can be read. -/
structure Legible (id : QString) (t hops : ℤ) (neighbors : QString) (message : Message) : Prop where
  everyone : ForEveryone message
  msgid : message.fParameters.find? broadcastMsgid = some id
  timeout : message.fParameters.find? broadcastTimeout = some (number t)
  hops : message.fParameters.find? broadcastHops = some (number hops)
  informed : message.fParameters.find? broadcastInformedNeighbors = some neighbors

theorem processMessage_legible (server : Server ι) (m : Memory) {now t hops : ℤ}
    {id neighbors : QString} (h : Legible id t hops neighbors message) (ht : IsInt64 t)
    (hnow : now ≤ t) (hhops : 0 ≤ hops ∧ hops ≤ 5) :
    processMessage server m message now = if m.fReceivedBroadcastMessages.Has id then (m, .ok {})
      else ((relay server (remember m id t now) message [] ⟨id, neighbors, hops, t⟩ now).1,
        .ok (relay server (remember m id t now) message [] ⟨id, neighbors, hops, t⟩ now).2) := by
  have htimeout := getIntegerParameter_of_number h.timeout ht
  have hhopsRead := getIntegerParameter_of_number h.hops ⟨by omega, by omega⟩
  have hneighbors := getParameter_of_find h.informed
  have hint : toInt32 hops = hops := by
    rw [toInt32, Int.bmod_eq_of_le] <;> omega
  have hlate : ¬ t < now := not_lt.mpr hnow
  rw [processMessage_everyone h.everyone]
  simp only [dropped, h.msgid, htimeout, bind, Except.bind, pure, Except.pure, hlate, decide_false,
    Bool.false_or]
  by_cases hhas : m.fReceivedBroadcastMessages.Has id
  · simp [hhas]
  · simp only [hhas, decide_false, if_false]
    simp only [broadcastMessage, accept, h.msgid, htimeout, if_neg hlate, if_neg hhas, hneighbors,
      hhopsRead, hint]

theorem processMessage_fresh (server : Server ι) (m : Memory) (now : ℤ)
    (h : ForEveryone message) (hid : message.fParameters.find? broadcastMsgid = none) :
    processMessage server m message now =
      ((relay server m message [] {} now).1, .ok (relay server m message [] {} now).2) := by
  rw [processMessage_everyone h]
  simp only [dropped, hid, broadcastMessage, accept]

def Spread (net : ι → Server ι) (tag : ℕ) (first : ι) (id : QString) (t : ℤ) (w : World ι)
    (c : Copy ι) : Prop :=
  ∃ hops neighbors, Legible id t hops neighbors c.message ∧ 0 ≤ hops ∧ hops ≤ 5 ∧
    (Adjacent net first c.target → hops = 1) ∧
    (∀ word ∈ splitComma neighbors, ∃ x, word = text net x ∧ Informed tag w x) ∧
    ∀ z, Adjacent net first z → text net z ∈ splitComma neighbors

structure Spreads (net : ι → Server ι) (tag : ℕ) (first : ι) (id : QString) (t : ℤ)
    (w : World ι) : Prop where
  copies : ∀ c ∈ w.flight, c.tag = tag → Spread net tag first id t w c
  others : ∀ c ∈ w.flight, c.tag ≠ tag → ¬ Bears c.message id
  issued : ∃ n ≤ (w.memory first).gBroadcastSequence, id = made (net first) n
  remembered : ∀ x, (w.memory x).fReceivedBroadcastMessages.Has id → Executed tag w x
  started : (⟨tag, first, 0⟩ : Execution ι) ∈ w.executions
  closed : ∀ x hops, (⟨tag, x, hops⟩ : Execution ι) ∈ w.executions → hops < 5 →
    ∀ z, Adjacent net x z → Informed tag w z
  near : ∀ x hops, (⟨tag, x, hops⟩ : Execution ι) ∈ w.executions → Adjacent net first x → hops = 1

section Steps

variable {net : ι → Server ι} {tag : ℕ} {first s : ι} {id : QString} {t now : ℤ} {w w' : World ι}
  {c : Copy ι} {message : Message}

theorem Spread.mono (hinformed : ∀ x, Informed tag w x → Informed tag w' x)
    (h : Spread net tag first id t w c) : Spread net tag first id t w' c := by
  obtain ⟨hops, neighbors, hlegible, hlow, hhigh, hnear, hwords, hall⟩ := h
  refine ⟨hops, neighbors, hlegible, hlow, hhigh, hnear, fun word hword => ?_, hall⟩
  obtain ⟨x, hx, hinf⟩ := hwords word hword
  exact ⟨x, hx, hinformed x hinf⟩

/-- The list that copies carry is read back word by word. -/
theorem splitComma_nextInformed (h : PrivateNetwork net) {incoming : Incoming}
    (hservice : message.fService = star)
    (hwords : ∀ word ∈ splitComma incoming.informedNeighbors, ∃ x, word = text net x) :
    splitComma (joinComma (nextInformed (net s) message [] incoming)) =
      nextInformed (net s) message [] incoming := by
  refine splitComma_join (fun word hword => ?_)
  have hx : ∃ x, word = text net x := by
    rcases (mem_nextInformed h).mp hword with hword | ⟨a, ha, rfl⟩ | rfl
    · exact hwords word hword
    · obtain ⟨-, hc, hpeer⟩ := mem_chosen h hservice ha
      obtain ⟨y, hy⟩ := Option.ne_none_iff_exists'.mp hpeer
      exact ⟨y, addressText_eq h hc hy⟩
    · exact ⟨s, rfl⟩
  obtain ⟨x, rfl⟩ := hx
  exact text_word x

theorem relay_spread (h : PrivateNetwork net) {m : Memory}
    (incoming : Incoming) (heveryone : ForEveryone message)
    (hid : nextId (net s) m incoming = id)
    (ht : (if incoming.timeout = 0 then now + 10 else incoming.timeout) = t)
    (hhops : 0 ≤ incoming.hops)
    (hnear : s = first ∧ incoming.hops = 0 ∨
      ∀ z, Adjacent net first z → text net z ∈ splitComma incoming.informedNeighbors)
    (hwords : ∀ word ∈ splitComma incoming.informedNeighbors, ∃ x, word = text net x ∧
      Informed tag w x)
    (hself : Informed tag w s)
    (hchosen : ∀ a ∈ chosen (net s) message incoming, ∀ x, a.peer = some x → Informed tag w x)
    (hc : c ∈ copies tag (relay (net s) m message [] incoming now).2) :
    Spread net tag first id t w c := by
  obtain ⟨-, hmessage, a, ha, hpeer⟩ := (copies_relay h).mp hc
  obtain ⟨hlt, hconnection, -⟩ := mem_chosen h heveryone.service ha
  have hint : toInt32 (incoming.hops + 1) = incoming.hops + 1 := by
    rw [toInt32, Int.bmod_eq_of_le] <;> omega
  have hlist := splitComma_nextInformed (s := s) h heveryone.service
    (fun word hword => (hwords word hword).imp (fun x hx => hx.1))
  refine ⟨incoming.hops + 1, joinComma (nextInformed (net s) message [] incoming), ?_,
    by omega, by omega, fun hadj => ?_, fun word hword => ?_, fun z hz => ?_⟩
  · rw [hmessage]
    refine ⟨⟨heveryone.service, heveryone.server⟩, ?_, ?_, ?_, relayed_informed ..⟩
    · rw [relayed_msgid, hid]
    · rw [relayed_timeout, ht]
    · rw [relayed_hops, hint]
  · rcases hnear with ⟨-, hzero⟩ | hnear
    · omega
    · -- a neighbor of the first server is in the list, so that it is not sent the message
      have hnot := address_notMem_of_inform ha
      rw [addressText_eq h hconnection hpeer] at hnot
      exact absurd (hnear c.target hadj) hnot
  · rw [hlist, mem_nextInformed h] at hword
    rcases hword with hword | ⟨b, hb, rfl⟩ | rfl
    · exact hwords word hword
    · obtain ⟨-, hconnection', hsome⟩ := mem_chosen h heveryone.service hb
      obtain ⟨y, hy⟩ := Option.ne_none_iff_exists'.mp hsome
      exact ⟨y, addressText_eq h hconnection' hy, hchosen b hb y hy⟩
    · exact ⟨s, rfl, hself⟩
  · rw [hlist, mem_nextInformed h]
    rcases hnear with ⟨rfl, hzero⟩ | hnear
    · rcases informed_or_chosen h heveryone.service incoming hlt hz with hmem | ⟨b, hb, hbz⟩
      · exact Or.inl hmem
      · refine Or.inr (Or.inl ⟨b, hb, ?_⟩)
        exact (addressText_eq h (mem_chosen h heveryone.service hb).2.1 hbz).symm
    · exact Or.inl (hnear z hz)

theorem informed_of_chosen (h : PrivateNetwork net) {m : Memory} {a : Connection ι} {x : ι}
    (hflight : GossipNetwork.copies tag (relay (net s) m message [] incoming now).2 ⊆ w.flight)
    (ha : a ∈ chosen (net s) message incoming) (hx : a.peer = some x) : Informed tag w x :=
  Or.inr ⟨⟨x, tag, relayed (net s) m message [] incoming now⟩,
    hflight ((copies_relay h).mpr ⟨rfl, rfl, a, ha, hx⟩), rfl, rfl⟩

theorem mem_of_eraseIdx {l : List (Copy ι)} {i : ℕ} {x : Copy ι} (h : l[i]? = some c)
    (hx : x ∈ l) : x = c ∨ x ∈ l.eraseIdx i := by
  obtain ⟨hi, rfl⟩ := List.getElem?_eq_some_iff.mp h
  exact List.mem_cons.mp ((List.getElem_cons_eraseIdx_perm hi).symm.subset hx)

/-- A copy is dropped by a server that has the message. -/
theorem Spreads.drop (hw : Spreads net tag first id t w) {i : ℕ} (hc : w.flight[i]? = some c)
    (hexecuted : Executed tag w c.target) :
    Spreads net tag first id t { w with flight := w.flight.eraseIdx i } := by
  have hinformed : ∀ x, Informed tag w x →
      Informed tag { w with flight := w.flight.eraseIdx i } x := by
    rintro x (hx | ⟨y, hy, hytag, rfl⟩)
    · exact Or.inl hx
    · rcases mem_of_eraseIdx hc hy with rfl | hy
      · exact Or.inl hexecuted
      · exact Or.inr ⟨y, hy, hytag, rfl⟩
  exact ⟨fun y hy hytag => (hw.copies y (List.mem_of_mem_eraseIdx hy) hytag).mono hinformed,
    fun y hy => hw.others y (List.mem_of_mem_eraseIdx hy), hw.issued, hw.remembered,
    hw.started, fun x n hx hn z hz => hinformed z (hw.closed x n hx hn z hz), hw.near⟩

variable [DecidableEq ι]

/-- Another message is processed: one that was handed in, or a copy that is taken. -/
theorem process_other (h : PrivateNetwork net) (hw : Spreads net tag first id t w)
    {u : World ι} {tag' : ℕ} (hne : tag' ≠ tag) (hmessage : ¬ Bears message id)
    (hmemory : u.memory = w.memory)
    (hexecutions : u.executions = w.executions) (hsub : u.flight ⊆ w.flight)
    (hkept : ∀ c ∈ w.flight, c.tag = tag → c ∈ u.flight) :
    Spreads net tag first id t (process net u s tag' message now) := by
  let w' := process net u s tag' message now
  have hrun : ∀ x hops, (⟨tag, x, hops⟩ : Execution ι) ∈ w'.executions ↔
      (⟨tag, x, hops⟩ : Execution ι) ∈ w.executions := by
    intro x hops
    simp only [w', process, List.mem_append, hexecutions, Option.mem_toList, Option.map_eq_some_iff]
    constructor
    · rintro (hmem | ⟨n, -, heq⟩)
      · exact hmem
      · exact absurd (Execution.mk.inj heq).1 hne
    · exact Or.inl
  have hinformed : ∀ x, Informed tag w x → Informed tag w' x := by
    rintro x (⟨n, hx⟩ | ⟨c, hc, htag, rfl⟩)
    · exact Or.inl ⟨n, (hrun x n).mpr hx⟩
    · exact Or.inr ⟨c, List.mem_append_left _ (hkept c hc htag), htag, rfl⟩
  obtain ⟨n, hn, rfl⟩ := hw.issued
  have hsequence : (u.memory first).gBroadcastSequence ≤ (w'.memory first).gBroadcastSequence :=
    process_sequence tag' first
  rw [hmemory] at hsequence
  refine ⟨fun c hc htag => ?_, fun c hc htag hbears => ?_, ⟨n, hn.trans hsequence, rfl⟩,
    fun x hx => ?_, (hrun first 0).mpr hw.started, fun x hops hx hhops z hz => ?_,
    fun x hops hx => hw.near x hops ((hrun x hops).mp hx)⟩
  · rcases List.mem_append.mp hc with hc | hc
    · exact (hw.copies c (hsub hc) htag).mono hinformed
    · obtain ⟨-, -, -, htag', -⟩ := mem_copies hc
      exact absurd (htag'.symm.trans htag) hne
  · rcases process_bears (fun x hx => h.names x first hx) hc hbears with hold | hold | ⟨hlt, -⟩
    · exact hw.others c (hsub hold) htag hbears
    · exact hmessage hold
    · rw [hmemory] at hlt
      omega
  · rcases process_remembered hx with hold | hold
    · rw [hmemory] at hold
      obtain ⟨k, hk⟩ := hw.remembered x hold
      exact ⟨k, (hrun x k).mpr hk⟩
    · exact absurd hold hmessage
  · exact hinformed z (hw.closed x hops ((hrun x hops).mp hx) hhops z hz)

/-- A copy is processed by a server that has the message already, or by one that
relays it; either way no server gets less informed. -/
theorem deliver_spreads (h : PrivateNetwork net) (hid : id ≠ []) (ht : IsInt64 t)
    (hnow : 0 < now ∧ now ≤ t) (hw : Spreads net tag first id t w) {i : ℕ}
    (hc : w.flight[i]? = some c) (htag : c.tag = tag) :
    Spreads net tag first id t
      (process net { w with flight := w.flight.eraseIdx i } c.target c.tag c.message now) := by
  obtain ⟨hops, neighbors, hlegible, hlow, hhigh, hnear, hwords, hall⟩ :=
    hw.copies c (List.mem_of_getElem? hc) htag
  have hprocess := processMessage_legible (net c.target) (w.memory c.target)
    hlegible ht hnow.2 ⟨hlow, hhigh⟩
  by_cases hhas : (w.memory c.target).fReceivedBroadcastMessages.Has id
  · rw [if_pos hhas] at hprocess
    have hworld :
        process net { w with flight := w.flight.eraseIdx i } c.target c.tag c.message now =
          { w with flight := w.flight.eraseIdx i } := by
      simp [process, hprocess, outcome, GossipNetwork.copies, deliveriesOf, services,
        Function.update_eq_self]
    rw [hworld]
    exact hw.drop hc (hw.remembered c.target hhas)
  · rw [if_neg hhas] at hprocess
    let r := relay (net c.target) (remember (w.memory c.target) id t now) c.message []
      ⟨id, neighbors, hops, t⟩ now
    let w' := process net { w with flight := w.flight.eraseIdx i } c.target c.tag c.message now
    have hflight : w'.flight = w.flight.eraseIdx i ++ GossipNetwork.copies tag r.2 := by
      simp [w', r, process, hprocess, outcome, htag]
    have hexecutions : w'.executions = w.executions ++ [⟨tag, c.target, hops⟩] := by
      simp [w', process, hprocess, outcome, htag, relay_broadcast]
    have hself : Executed tag w' c.target := ⟨hops, by rw [hexecutions]; simp⟩
    have hinformed : ∀ x, Informed tag w x → Informed tag w' x := by
      rintro x (⟨n, hx⟩ | ⟨y, hy, hytag, rfl⟩)
      · exact Or.inl ⟨n, by rw [hexecutions]; exact List.mem_append_left _ hx⟩
      · rcases mem_of_eraseIdx hc hy with rfl | hy
        · exact Or.inl hself
        · exact Or.inr ⟨y, by rw [hflight]; exact List.mem_append_left _ hy, hytag, rfl⟩
    have hchosen : ∀ a ∈ chosen (net c.target) c.message ⟨id, neighbors, hops, t⟩, ∀ x,
        a.peer = some x → Informed tag w' x := fun a ha x hx =>
      informed_of_chosen h (hflight ▸ List.subset_append_right _ _) ha hx
    have hwords' : ∀ word ∈ splitComma neighbors, ∃ x, word = text net x ∧ Informed tag w' x :=
      fun word hword => (hwords word hword).imp (fun x hx => ⟨hx.1, hinformed x hx.2⟩)
    obtain ⟨n, hn, hmade⟩ := hw.issued
    have hsequence : (w.memory first).gBroadcastSequence ≤
        (w'.memory first).gBroadcastSequence := process_sequence c.tag first
    refine ⟨fun y hy hytag => ?_, fun y hy hytag => ?_, ⟨n, hn.trans hsequence, hmade⟩,
      fun x hx => ?_, ?_, fun x n hx hn z hz => ?_, fun x n hx hadj => ?_⟩
    · change y ∈ w'.flight at hy
      rw [hflight] at hy
      rcases List.mem_append.mp hy with hy | hy
      · exact (hw.copies y (List.mem_of_mem_eraseIdx hy) hytag).mono hinformed
      · refine relay_spread h ⟨id, neighbors, hops, t⟩ hlegible.everyone (if_neg hid) ?_
          hlow (Or.inr hall) hwords' (Or.inl hself) hchosen hy
        exact if_neg (show ¬ t = 0 by omega)
    · change y ∈ w'.flight at hy
      rw [hflight] at hy
      rcases List.mem_append.mp hy with hy | hy
      · exact hw.others y (List.mem_of_mem_eraseIdx hy) hytag
      · exact absurd ((copies_relay h).mp hy).1 hytag
    · by_cases hxc : x = c.target
      · rw [hxc]
        exact hself
      · have hsame : w'.memory x = w.memory x := Function.update_of_ne hxc ..
        change (w'.memory x).fReceivedBroadcastMessages.Has id at hx
        rw [hsame] at hx
        obtain ⟨n, hn⟩ := hw.remembered x hx
        exact ⟨n, by change _ ∈ w'.executions; rw [hexecutions]; exact List.mem_append_left _ hn⟩
    · change _ ∈ w'.executions
      rw [hexecutions]
      exact List.mem_append_left _ hw.started
    · change _ ∈ w'.executions at hx
      rw [hexecutions] at hx
      rcases List.mem_append.mp hx with hx | hx
      · exact hinformed z (hw.closed x n hx hn z hz)
      · obtain ⟨-, rfl, rfl⟩ := Execution.mk.inj (List.mem_singleton.mp hx)
        rcases informed_or_chosen h hlegible.everyone.service ⟨id, neighbors, n, t⟩
          hn hz with hmem | ⟨a, ha, haz⟩
        · obtain ⟨y, hy, hinf⟩ := hwords' _ hmem
          exact text_injective h hy ▸ hinf
        · exact hchosen a ha z haz
    · change _ ∈ w'.executions at hx
      rw [hexecutions] at hx
      rcases List.mem_append.mp hx with hx | hx
      · exact hw.near x n hx hadj
      · obtain ⟨-, rfl, rfl⟩ := Execution.mk.inj (List.mem_singleton.mp hx)
        exact hnear hadj

/-- The message is handed to the first server. If that has nobody to send it to, no identifier
is made, and zero stands for its number. -/
theorem send_spreads (h : PrivateNetwork net) {front : List (Action ι)}
    (hrun : Reaches net front w) (hforeign : Foreign net first front)
    (heveryone : ForEveryone message) (hid : message.fParameters.find? broadcastMsgid = none) :
    ∃ id ≠ [], Spreads net w.origins.length first id (now + 10)
      (step net w (.send first message now)) := by
  let tag := w.origins.length
  let m := w.memory first
  let r := relay (net first) m message [] {} now
  let w' := step net w (.send first message now)
  have hprocess := processMessage_fresh (net first) m now heveryone hid
  have hnumbered := run_numbered hrun
  have hflight : w'.flight = w.flight ++ GossipNetwork.copies tag r.2 := by
    simp [w', r, m, tag, step, process, hprocess, outcome]
  have hexecutions : w'.executions = w.executions ++ [⟨tag, first, 0⟩] := by
    simp [w', m, tag, step, process, hprocess, outcome, relay_broadcast]
  have hlast : ∀ x hops, (⟨tag, x, hops⟩ : Execution ι) ∈ w'.executions → x = first ∧ hops = 0 := by
    intro x hops hx
    rw [hexecutions] at hx
    rcases List.mem_append.mp hx with hx | hx
    · exact absurd (hnumbered.executions _ hx) (Nat.lt_irrefl _)
    · exact (Execution.mk.inj (List.mem_singleton.mp hx)).2
  have hcopies : ∀ c ∈ w'.flight, c.tag = tag → c ∈ GossipNetwork.copies tag r.2 := by
    intro c hc htag
    rw [hflight] at hc
    rcases List.mem_append.mp hc with hc | hc
    · exact absurd htag (Nat.ne_of_lt (hnumbered.flight c hc))
    · exact hc
  have hnone : ∀ id, ¬ Bears message id := fun id hbears => by
    rw [Bears, hid] at hbears
    cases hbears
  obtain ⟨n, hfree, hle, hmade⟩ : ∃ n, (n = 0 ∨ m.gBroadcastSequence < n) ∧
      n ≤ (w'.memory first).gBroadcastSequence ∧
      ∀ c ∈ GossipNetwork.copies tag r.2, nextId (net first) m {} = made (net first) n := by
    have hsequence : (w'.memory first).gBroadcastSequence = r.1.gBroadcastSequence := by
      simp [w', r, m, step, process, hprocess]
    rw [hsequence]
    by_cases hempty : (chosen (net first) message {}).isEmpty
    · refine ⟨0, Or.inl rfl, Nat.zero_le _, fun c hc => ?_⟩
      obtain ⟨-, -, a, ha, -⟩ := (copies_relay h).mp hc
      rw [List.isEmpty_iff.mp hempty] at ha
      cases ha
    · refine ⟨m.gBroadcastSequence + 1, Or.inr (Nat.lt_succ_self _), ?_, fun _ _ => rfl⟩
      have hmade : r.1.gBroadcastSequence = m.gBroadcastSequence + 1 := by
        simp only [r, relay]
        split_ifs with hnobody
        · exact absurd hnobody hempty
        · rfl
      exact hmade.ge
  have hunused := run_unused (fun x hx => h.names x first hx) hrun hforeign hfree
  have hself : Executed tag w' first := ⟨0, by rw [hexecutions]; simp⟩
  have hchosen : ∀ a ∈ chosen (net first) message {}, ∀ x, a.peer = some x →
      Informed tag w' x := fun a ha x hx =>
    informed_of_chosen h (hflight ▸ List.subset_append_right _ _) ha hx
  refine ⟨made (net first) n, ?_, fun c hc htag => ?_, fun c hc htag => ?_, ⟨n, hle, rfl⟩,
    fun x hx => ?_, ?_, fun x hops hx hhops z hz => ?_, fun x hops hx hadj => ?_⟩
  · simp [made, decimal_ne_nil]
  · have hcopy := hcopies c hc htag
    exact relay_spread h _ heveryone (hmade c hcopy) (if_pos rfl) le_rfl (Or.inl ⟨rfl, rfl⟩)
      (fun word hword => absurd hword List.not_mem_nil) (Or.inl hself) hchosen hcopy
  · change c ∈ w'.flight at hc
    rw [hflight] at hc
    rcases List.mem_append.mp hc with hc | hc
    · exact hunused.flight c hc
    · exact absurd ((copies_relay h).mp hc).1 htag
  · rcases process_remembered hx with hold | hold
    · exact absurd hold (hunused.memory x)
    · exact absurd hold (hnone _)
  · change _ ∈ w'.executions
    rw [hexecutions]
    simp [tag]
  · obtain ⟨rfl, rfl⟩ := hlast x hops hx
    rcases informed_or_chosen h heveryone.service {} (by decide) hz with hmem | ⟨a, ha, haz⟩
    · cases hmem
    · exact hchosen a ha z haz
  · obtain ⟨rfl, rfl⟩ := hlast x hops hx
    obtain ⟨c, hc, hpeer⟩ := hadj
    exact absurd hpeer (h.irreflexive _ c hc)

variable {actions : List (Action ι)} {o : Origin ι}

theorem step_spreads (h : PrivateNetwork net) (hid : id ≠ []) (ht : IsInt64 t) {a : Action ι}
    (hforeign : ∀ s message now, a = .send s message now →
      ∀ n, ¬ Bears message (made (net first) n))
    (hnow : 0 < a.now ∧ a.now ≤ t) (htag : tag < w.origins.length)
    (hw : Spreads net tag first id t w) : Spreads net tag first id t (step net w a) := by
  cases a with
  | send s message now =>
    obtain ⟨n, -, hmade⟩ := hw.issued
    exact process_other h hw (Nat.ne_of_gt htag) (hmade ▸ hforeign s message now rfl n) rfl rfl
      (List.Subset.refl _) (fun c hc _ => hc)
  | deliver i now =>
    cases hc : w.flight[i]? with
    | none =>
      simp only [step, hc]
      exact hw
    | some c =>
      simp only [step, hc]
      by_cases hsame : c.tag = tag
      · exact deliver_spreads h hid ht hnow hw hc hsame
      · refine process_other h hw hsame (hw.others c (List.mem_of_getElem? hc) hsame) rfl rfl
          (fun d hd => List.mem_of_mem_eraseIdx hd) (fun d hd hdtag => ?_)
        refine (mem_of_eraseIdx hc hd).resolve_left ?_
        rintro rfl
        exact hsame hdtag

theorem run_spreads (h : PrivateNetwork net) (hrun : Reaches net actions w)
    (ho : w.origins[tag]? = some o) (heveryone : ForEveryone o.message)
    (hid : o.message.fParameters.find? broadcastMsgid = none)
    (hforeign : Foreign net o.server actions) (htime : Timely actions (deadline o))
    (hlimit : deadline o < 2 ^ 63) :
    ∃ id ≠ [], Spreads net tag o.server id (deadline o) w := by
  have hdeadline : deadline o = o.now + 10 := by simp [deadline, hid]
  refine hrun.of_origin ho htime (fun front v hv hfront htag hnow => ?_)
    fun {id v a} ha hne hnow htag hspreads => ?_
  · rw [htag, hdeadline]
    exact send_spreads h hv (fun s message now hmem => hforeign s message now (hfront hmem))
      heveryone hid
  · refine step_spreads h hne ⟨by omega, hlimit⟩ ?_ hnow htag hspreads
    rintro s message now rfl
    exact hforeign s message now ha

end Steps

variable [DecidableEq ι]

/-- Once no copy of a message is in flight, every server within two connections of the first one
ran `broadcast_message()`, and so did every server within five if none within four was
handed the message after its fifth hop. -/
theorem broadcast_covers (net : ι → Server ι) (h : PrivateNetwork net)
    (actions : List (Action ι)) (w : World ι) (hrun : Reaches net actions w) (tag : ℕ)
    (o : Origin ι) (ho : w.origins[tag]? = some o) (heveryone : ForEveryone o.message)
    (hid : o.message.fParameters.find? broadcastMsgid = none)
    (hforeign : Foreign net o.server actions) (htime : Timely actions (deadline o))
    (hlimit : deadline o < 2 ^ 63) (hquiet : ∀ c ∈ w.flight, c.tag ≠ tag) :
    (∀ x, Within net o.server 2 x → Executed tag w x) ∧
      ((∀ x, Within net o.server 4 x →
        ∀ hops, (⟨tag, x, hops⟩ : Execution ι) ∈ w.executions → hops < 5) →
        ∀ x, Within net o.server 5 x → Executed tag w x) := by
  obtain ⟨id, -, hspreads⟩ := run_spreads h hrun ho heveryone hid hforeign htime hlimit
  have hexecuted : ∀ x, Informed tag w x → Executed tag w x := by
    rintro x (hx | ⟨c, hc, htag, -⟩)
    · exact hx
    · exact absurd htag (hquiet c hc)
  have hnext : ∀ x hops z, (⟨tag, x, hops⟩ : Execution ι) ∈ w.executions → hops < 5 →
      Adjacent net x z → Executed tag w z := fun x hops z hx hhops hz =>
    hexecuted z (hspreads.closed x hops hx hhops z hz)
  constructor
  · rintro x ⟨k, hk, hpath⟩
    cases hpath with
    | first => exact ⟨0, hspreads.started⟩
    | @next n y z hpath hadj =>
      cases hpath with
      | first => exact hnext o.server 0 x hspreads.started (by decide) hadj
      | @next n y' z hpath' hadj' =>
        have hfirst : Path net o.server 0 y' := by
          have hzero : n = 0 := by omega
          exact hzero ▸ hpath'
        cases hfirst
        obtain ⟨hops, hy⟩ := hnext o.server 0 y hspreads.started (by decide) hadj'
        have hone := hspreads.near y hops hy hadj'
        exact hnext y hops x hy (by omega) hadj
  · intro hearly
    have hpaths : ∀ k x, Path net o.server k x → k ≤ 5 → Executed tag w x := by
      intro k x hpath
      induction hpath with
      | first => exact fun _ => ⟨0, hspreads.started⟩
      | @next n y z hpath' hadj ih =>
        intro hk
        obtain ⟨hops, hy⟩ := ih (by omega)
        exact hnext y hops z hy (hearly y ⟨n, by omega, hpath'⟩ hops hy) hadj
    rintro x ⟨k, hk, hpath⟩
    exact hpaths k x hpath hk

def privateAddress {n : ℕ} (s : Fin n) : Address :=
  ⟨#v[0, 0, 0, 0, 0, 0xFFFF, 0x0A00, s.val.toUInt16]⟩

def network {n : ℕ} (neighbors : Fin n → List (Fin n)) (s : Fin n) : Server (Fin n) :=
  { serverOf privateAddress neighbors (fun _ => ascii "worker") s with
    fServerName := ascii "server" ++ decimal s }

theorem privateNetwork_network (neighbors : Fin n → List (Fin n))
    (hloop : ∀ s, s ∉ neighbors s)
    (hprivate : ∀ s : Fin n, (privateAddress s).networkType = .typePrivate)
    (hdistinct : ∀ s x : Fin n, privateAddress s = privateAddress x → s = x) :
    PrivateNetwork (network neighbors) := by
  have hwired := wired_serverOf privateAddress neighbors (fun _ => ascii "worker") hloop
  refine ⟨⟨hwired.pointers, hwired.irreflexive, hwired.address⟩, fun _ => rfl, hprivate, hdistinct,
    fun s x hname => ?_, fun s c hc hpeer => ?_⟩
  · exact Fin.ext (decimal_injective (List.append_cancel_left hname))
  · have hmem : c ∈ (serverOf privateAddress neighbors (fun _ => ascii "worker") s).connections :=
      hc
    rcases mem_serverOf hmem with rfl | ⟨i, x, -, rfl⟩
    · change (⟨#v[0, 0, 0, 0, 0, 0xFFFF, 0x7F00, 1]⟩ : Address).networkType = .typeLoopback
      decide
    · cases hpeer

theorem adjacent_network {neighbors : Fin n → List (Fin n)} {s x : Fin n}
    (h : x ∈ neighbors s) : Adjacent (network neighbors) s x := by
  obtain ⟨i, hi, rfl⟩ := List.getElem_of_mem h
  exact ⟨serverConnection (i + 1) (privateAddress (neighbors s)[i]) (neighbors s)[i],
    List.mem_cons_of_mem _ (List.mem_mapIdx.mpr ⟨i, hi, rfl⟩), rfl⟩

theorem ping_forEveryone : ForEveryone ping := ⟨rfl, Or.inl rfl⟩

/-- Messages that come without an identifier. -/
theorem foreign_of_pings {net : Fin n → Server (Fin n)} {first : Fin n}
    {actions : List (Action (Fin n))}
    (h : ∀ a ∈ actions, ∀ s message now, a = .send s message now → message = ping) :
    Foreign net first actions := by
  intro s message now hmem k hbears
  obtain rfl := h _ hmem s message now rfl
  cases hbears

def row : Fin 3 → Server (Fin 3) := network ![[1], [0, 2], [1]]

/-- A message of the last server is on its way all the time. -/
def rowActions : List (Action (Fin 3)) :=
  [.send 2 ping 1, .send 0 ping 2, .deliver 0 3, .deliver 0 3, .deliver 1 4]

theorem broadcast_covers_row : Executed 1 (rowActions.foldl (step row) {}) 2 := by
  have hquiet : ((rowActions.foldl (step row) {}).flight.all (fun c => c.tag ≠ 1)) = true := by
    decide +kernel
  have hcovers :=
    broadcast_covers row (privateNetwork_network _ (by decide) (by decide) (by decide))
    rowActions _ (reaches_foldl row rowActions) 1 ⟨0, ping, 2⟩ rfl ping_forEveryone rfl
    (foreign_of_pings (by simp [rowActions])) (by unfold Timely; decide) (by decide)
    (fun c hc => by simpa using List.all_eq_true.mp hquiet c hc)
  have hfirst : Adjacent row 0 1 := adjacent_network (by decide)
  have hsecond : Adjacent row 1 2 := adjacent_network (by decide)
  exact hcovers.1 2 ⟨2, le_rfl, Path.next (Path.next Path.first hfirst) hsecond⟩

def ring : Fin 8 → Server (Fin 8) :=
  network ![[1, 2], [0, 6], [0, 3], [2, 4], [3, 5], [4, 6], [1, 5, 7], [6]]

def ringActions : List (Action (Fin 8)) :=
  [.send 0 ping 1, .deliver 1 2, .deliver 1 2, .deliver 1 2, .deliver 1 2, .deliver 1 2,
    .deliver 0 3, .deliver 0 3]

/-- The message gets around the ring the long way first; the server at the other end
does not pass it on, and ignores the copy that came the short way. -/
theorem detour_not_covered : ∃ w, PrivateNetwork ring ∧ Reaches ring ringActions w ∧
    w.origins[0]? = some ⟨0, ping, 1⟩ ∧ ForEveryone ping ∧
    ping.fParameters.find? broadcastMsgid = none ∧ Foreign ring 0 ringActions ∧
    Timely ringActions (deadline (⟨0, ping, 1⟩ : Origin (Fin 8))) ∧ w.flight = [] ∧
    Within ring 0 5 7 ∧ ¬ Executed 0 w 7 := by
  have hquiet : (ringActions.foldl (step ring) {}).flight.isEmpty = true := by decide +kernel
  have hmissed : ((ringActions.foldl (step ring) {}).executions.any (fun e => e.server = 7)) =
      false := by decide +kernel
  have hfirst : Adjacent ring 0 1 := adjacent_network (by decide)
  have hsecond : Adjacent ring 1 6 := adjacent_network (by decide)
  have hthird : Adjacent ring 6 7 := adjacent_network (by decide)
  refine ⟨_, privateNetwork_network _ (by decide) (by decide) (by decide),
    reaches_foldl ring ringActions, rfl, ping_forEveryone, rfl,
    foreign_of_pings (by simp [ringActions]), by unfold Timely; decide,
    List.isEmpty_iff.mp hquiet,
    ⟨3, by decide, Path.next (Path.next (Path.next Path.first hfirst) hsecond) hthird⟩, ?_⟩
  rintro ⟨hops, hmem⟩
  have hany := List.any_eq_false.mp hmissed _ hmem
  simp at hany

end SnapCpp.GossipCoverage
