import SnapCpp.CommunicatorServer
import SnapCpp.Runs

/-!
A network of snapcommunicators. Services hand messages to their server; the copies
that servers send each other are in flight until they are processed, in any order.
Each message that was handed in has a number which its copies keep, and the world
records on which connections of services it was sent.
-/
namespace SnapCpp.GossipNetwork

open QString QNumber CommunicatorMessage SnapAddr CommunicatorServer

/-- The servers of the small networks are numbered. -/
scoped instance neZeroThree : NeZero 3 := ⟨by decide⟩

structure Copy (ι : Type) where
  target : ι
  tag : ℕ
  message : Message

structure Origin (ι : Type) where
  server : ι
  message : Message
  now : ℤ

/-- A message sent to a service. -/
structure Delivery (ι : Type) where
  tag : ℕ
  server : ι
  pointer : ℕ
  deriving DecidableEq

/-- A server that ran `broadcast_message()` to its end, and the hops it read. -/
structure Execution (ι : Type) where
  tag : ℕ
  server : ι
  hops : ℤ

structure World (ι : Type) where
  memory : ι → Memory := fun _ => {}
  flight : List (Copy ι) := []
  origins : List (Origin ι) := []
  deliveries : List (Delivery ι) := []
  executions : List (Execution ι) := []

inductive Action (ι : Type)
  | send (server : ι) (message : Message) (now : ℤ)
  | deliver (index : ℕ) (now : ℤ)

def Action.now {ι : Type} : Action ι → ℤ
  | .send _ _ now => now
  | .deliver _ now => now

variable {ι : Type}

/-- What was sent; an exception leaves the rest of a message undone. -/
def outcome (r : Except QString (Outcome ι)) : Outcome ι :=
  match r with
  | .ok o => o
  | .error _ => {}

def copies (tag : ℕ) (o : Outcome ι) : List (Copy ι) :=
  o.sends.filterMap (fun x => x.1.peer.map (fun s => ⟨s, tag, x.2⟩))

def services (o : Outcome ι) : List (Connection ι) :=
  (o.sends.map Prod.fst).filter (fun c => c.peer.isNone)

def deliveriesOf (tag : ℕ) (s : ι) (o : Outcome ι) : List (Delivery ι) :=
  (services o).map (fun c => ⟨tag, s, c.pointer⟩)

section Worlds

variable [DecidableEq ι]

def process (net : ι → Server ι) (w : World ι) (s : ι) (tag : ℕ) (message : Message) (now : ℤ) :
    World ι :=
  let r := processMessage (net s) (w.memory s) message now
  let o := outcome r.2
  { w with
    memory := Function.update w.memory s r.1
    flight := w.flight ++ copies tag o
    deliveries := w.deliveries ++ deliveriesOf tag s o
    executions := w.executions ++ (o.broadcast.map (fun hops => ⟨tag, s, hops⟩)).toList }

def step (net : ι → Server ι) (w : World ι) : Action ι → World ι
  | .send s message now =>
      process net { w with origins := w.origins ++ [⟨s, message, now⟩] } s w.origins.length
        message now
  | .deliver i now =>
      match w.flight[i]? with
      | none => w
      | some c => process net { w with flight := w.flight.eraseIdx i } c.target c.tag c.message now

def Reaches (net : ι → Server ι) (actions : List (Action ι)) (w : World ι) : Prop :=
  Runs (fun a l b => b = step net a l) {} actions w

theorem reaches_foldl (net : ι → Server ι) (actions : List (Action ι)) :
    Reaches net actions (actions.foldl (step net) {}) := by
  induction actions using List.reverseRecOn with
  | nil => exact Runs.nil _
  | append_singleton front a ih =>
    rw [List.foldl_append]
    exact Runs.snoc ih rfl

end Worlds

structure Wired (net : ι → Server ι) : Prop where
  pointers : ∀ s, ((net s).connections.map Connection.pointer).Nodup
  irreflexive : ∀ s, ∀ c ∈ (net s).connections, c.peer ≠ some s
  address : ∀ s, ∀ c ∈ (net s).connections, ∀ x, c.peer = some x → c.address = (net x).fMyAddress

/-- A message that did not time out stays in the memory of a server. -/
def Keeps (now : ℤ) (m m' : Memory) : Prop :=
  ∀ id t, m.fReceivedBroadcastMessages.find? id = some t → now ≤ t →
    m'.fReceivedBroadcastMessages.find? id = some t

theorem Keeps.refl (now : ℤ) (m : Memory) : Keeps now m m := fun _ _ h _ => h

theorem remember_keeps {now t : ℤ} {m : Memory} {id : QString}
    (h : ¬ m.fReceivedBroadcastMessages.Has id) : Keeps now m (remember m id t now) := by
  intro id' t' hfind hnow
  have hne : id' ≠ id := by
    rintro rfl
    exact h (by rw [OrderedMap.Has, hfind]; simp)
  rw [remember, OrderedMap.find?_insert, if_neg hne]
  exact OrderedMap.find?_retain hfind (by simpa using hnow)

theorem accept_cases (m : Memory) (message : Message) (now : ℤ) :
    accept m message now = .ignored ∨
    (∃ e, accept m message now = .failed m e) ∨
    (message.fParameters.find? broadcastMsgid = none ∧ accept m message now = .accepted m {}) ∨
    ∃ id t, message.fParameters.find? broadcastMsgid = some id ∧
      getIntegerParameter message broadcastTimeout = .ok t ∧ now ≤ t ∧
      ¬ m.fReceivedBroadcastMessages.Has id ∧
      ((∃ e, accept m message now = .failed (remember m id t now) e) ∨
        ∃ neighbors hops, getParameter message broadcastInformedNeighbors = .ok neighbors ∧
          getIntegerParameter message broadcastHops = .ok hops ∧
          accept m message now =
            .accepted (remember m id t now) ⟨id, neighbors, toInt32 hops, t⟩) := by
  unfold accept
  cases hid : message.fParameters.find? broadcastMsgid with
  | none => exact Or.inr (Or.inr (Or.inl ⟨rfl, rfl⟩))
  | some id =>
    cases htimeout : getIntegerParameter message broadcastTimeout with
    | error e => exact Or.inr (Or.inl ⟨e, rfl⟩)
    | ok t =>
      by_cases hlate : t < now
      · exact Or.inl (by simp [hlate])
      · by_cases hhas : m.fReceivedBroadcastMessages.Has id
        · exact Or.inl (by simp [hhas])
        · refine Or.inr (Or.inr (Or.inr ⟨id, t, rfl, rfl, not_lt.mp hlate, hhas, ?_⟩))
          simp only [if_neg hlate, if_neg hhas]
          cases hneighbors : getParameter message broadcastInformedNeighbors with
          | error e => exact Or.inl ⟨e, rfl⟩
          | ok neighbors =>
            cases hhops : getIntegerParameter message broadcastHops with
            | error e => exact Or.inl ⟨e, rfl⟩
            | ok hops => exact Or.inr ⟨neighbors, hops, rfl, rfl, rfl⟩

theorem relay_received (server : Server ι) (m : Memory) (message : Message)
    (accepting : List (Connection ι)) (incoming : Incoming) (now : ℤ) :
    (relay server m message accepting incoming now).1.fReceivedBroadcastMessages =
      m.fReceivedBroadcastMessages := by
  simp only [relay]
  split_ifs <;> rfl

theorem broadcastMessage_keeps (server : Server ι) (m : Memory) (message : Message)
    (accepting : List (Connection ι)) (now : ℤ) :
    Keeps now m (broadcastMessage server m message accepting now).1 := by
  unfold broadcastMessage
  rcases accept_cases m message now with h | ⟨e, h⟩ | ⟨-, h⟩ | ⟨id, t, -, -, -, hhas, h⟩
  · rw [h]
    exact Keeps.refl now m
  · rw [h]
    exact Keeps.refl now m
  · rw [h]
    intro id t hfind _
    simp only [relay_received]
    exact hfind
  · rcases h with ⟨e, h⟩ | ⟨neighbors, hops, -, -, h⟩
    · rw [h]
      exact remember_keeps hhas
    · rw [h]
      intro id' t' hfind hnow
      simp only [relay_received]
      exact remember_keeps hhas id' t' hfind hnow

theorem processDirected_keeps (server : Server ι) (m : Memory) (message : Message) (now : ℤ) :
    Keeps now m (processDirected server m message now).1 := by
  simp only [processDirected]
  split
  · exact Keeps.refl now m
  · split_ifs <;> exact Keeps.refl now m
  · split_ifs
    · intro id t hfind _
      simp only [keep]
      split_ifs <;> exact hfind
    · exact Keeps.refl now m
    · exact Keeps.refl now m
    · exact broadcastMessage_keeps server m message _ now

theorem processMessage_keeps (server : Server ι) (m : Memory) (message : Message) (now : ℤ) :
    Keeps now m (processMessage server m message now).1 := by
  simp only [processMessage]
  split
  · exact Keeps.refl now m
  · exact Keeps.refl now m
  · split_ifs
    · exact Keeps.refl now m
    · exact Keeps.refl now m
    · exact broadcastMessage_keeps server m message [] now
    · exact processDirected_keeps server m message now

section Relaying

theorem inform_sublist (cs : List (Connection ι)) (informed : List QString) :
    (inform cs informed).2.Sublist cs := by
  induction cs generalizing informed with
  | nil => exact List.Sublist.refl []
  | cons c rest ih =>
    simp only [inform]
    split_ifs with hc
    · exact (ih informed).cons c
    · exact (ih _).cons_cons c

theorem subset_inform (cs : List (Connection ι)) (informed : List QString) :
    informed ⊆ (inform cs informed).1 := by
  induction cs generalizing informed with
  | nil => exact List.Subset.refl informed
  | cons c rest ih =>
    simp only [inform]
    split_ifs with hc
    · exact ih informed
    · exact fun a ha => ih _ (List.mem_append_left _ ha)

theorem address_mem_inform {cs : List (Connection ι)} (informed : List QString)
    {c : Connection ι} (h : c ∈ cs) : addressText c ∈ (inform cs informed).1 := by
  induction cs generalizing informed with
  | nil => cases h
  | cons a rest ih =>
    simp only [inform]
    split_ifs with ha
    · rcases List.mem_cons.mp h with rfl | h
      · exact subset_inform rest informed ha
      · exact ih _ h
    · rcases List.mem_cons.mp h with rfl | h
      · exact subset_inform rest _ (by simp)
      · exact ih _ h

theorem address_notMem_of_inform {cs : List (Connection ι)} {informed : List QString}
    {c : Connection ι} (h : c ∈ (inform cs informed).2) : addressText c ∉ informed := by
  induction cs generalizing informed with
  | nil => cases h
  | cons a rest ih =>
    simp only [inform] at h
    split_ifs at h with ha
    · exact ih h
    · rcases List.mem_cons.mp h with rfl | h
      · exact ha
      · exact fun hmem => ih h (List.mem_append_left _ hmem)

/-- The message that `relay` sends to other servers. -/
def relayed (server : Server ι) (m : Memory) (message : Message) (accepting : List (Connection ι))
    (incoming : Incoming) (now : ℤ) : Message :=
  broadcastCopy server message incoming (m.gBroadcastSequence + 1)
    (inform (candidates server message accepting incoming.hops)
      (splitComma incoming.informedNeighbors)).1 now

theorem relay_sends (server : Server ι) (m : Memory) (message : Message)
    (accepting : List (Connection ι)) (incoming : Incoming) (now : ℤ) :
    (relay server m message accepting incoming now).2.sends =
      (locals server message accepting).map (fun c => (c, message)) ++
        (inform (candidates server message accepting incoming.hops)
          (splitComma incoming.informedNeighbors)).2.map
            (fun c => (c, relayed server m message accepting incoming now)) := by
  simp only [relay]
  split_ifs with hempty
  · rw [List.isEmpty_iff.mp hempty]
    simp
  · rfl

theorem relay_broadcast (server : Server ι) (m : Memory) (message : Message)
    (accepting : List (Connection ι)) (incoming : Incoming) (now : ℤ) :
    (relay server m message accepting incoming now).2.broadcast = some incoming.hops := by
  simp only [relay]
  split_ifs <;> rfl

def nextId (server : Server ι) (m : Memory) (incoming : Incoming) : QString :=
  if incoming.msgid = [] then
    server.fServerName ++ ascii "-" ++ decimal (m.gBroadcastSequence + 1)
  else incoming.msgid

def nextInformed (server : Server ι) (message : Message) (accepting : List (Connection ι))
    (incoming : Incoming) : List QString :=
  let informed := (inform (candidates server message accepting incoming.hops)
    (splitComma incoming.informedNeighbors)).1
  if originator server ∈ informed then informed else informed ++ [originator server]

section Parameters

variable (server : Server ι) (m : Memory) (message : Message) (accepting : List (Connection ι))
  (incoming : Incoming) (now : ℤ)

@[simp] theorem relayed_fService :
    (relayed server m message accepting incoming now).fService = message.fService := rfl

@[simp] theorem relayed_fServer :
    (relayed server m message accepting incoming now).fServer = message.fServer := rfl

@[simp] theorem relayed_fCommand :
    (relayed server m message accepting incoming now).fCommand = message.fCommand := rfl

theorem relayed_msgid :
    (relayed server m message accepting incoming now).fParameters.find? broadcastMsgid =
      some (nextId server m incoming) := by
  simp only [relayed, broadcastCopy, putParameter, OrderedMap.find?_insert]
  rw [if_neg (by decide), if_neg (by decide), if_neg (by decide), if_neg (by decide),
    if_pos trivial]
  rfl

theorem relayed_timeout :
    (relayed server m message accepting incoming now).fParameters.find? broadcastTimeout =
      some (number (if incoming.timeout = 0 then now + 10 else incoming.timeout)) := by
  simp only [relayed, broadcastCopy, putParameter, OrderedMap.find?_insert]
  rw [if_neg (by decide), if_pos trivial]

theorem relayed_hops :
    (relayed server m message accepting incoming now).fParameters.find? broadcastHops =
      some (number (toInt32 (incoming.hops + 1))) := by
  simp only [relayed, broadcastCopy, putParameter, OrderedMap.find?_insert]
  rw [if_neg (by decide), if_neg (by decide), if_neg (by decide), if_pos trivial]

theorem relayed_informed :
    (relayed server m message accepting incoming now).fParameters.find? broadcastInformedNeighbors =
      some (joinComma (nextInformed server message accepting incoming)) := by
  simp only [relayed, broadcastCopy, putParameter, OrderedMap.find?_insert]
  rw [if_pos trivial]
  rfl

end Parameters

end Relaying

section Processing

variable {message : Message} {now : ℤ} {s : ι} {tag : ℕ} {net : ι → Server ι} {w : World ι}

theorem processMessage_star (server : Server ι) (m : Memory) (now : ℤ)
    (h : message.fService = star) :
    outcome (processMessage server m message now).2 = {} ∨
      ∃ m' incoming, accept m message now = .accepted m' incoming ∧
        (processMessage server m message now).1 = (relay server m' message [] incoming now).1 ∧
        outcome (processMessage server m message now).2 =
          (relay server m' message [] incoming now).2 := by
  have hne : ¬ (message.fService = [] ∨ message.fService = ascii "snapcommunicator") := by
    rw [h]
    decide
  simp only [processMessage]
  split
  · exact Or.inl rfl
  · exact Or.inl rfl
  · rw [if_neg (fun hc => hne hc.2), if_pos (Or.inl h)]
    split_ifs
    · exact Or.inl rfl
    · unfold broadcastMessage
      cases haccept : accept m message now with
      | ignored => exact Or.inl rfl
      | failed m' e => exact Or.inl rfl
      | accepted m' incoming => exact Or.inr ⟨m', incoming, rfl, rfl, rfl⟩

theorem accept_accepted {m m' : Memory} {incoming : Incoming}
    (h : accept m message now = .accepted m' incoming) :
    (message.fParameters.find? broadcastMsgid = none ∧ m' = m ∧ incoming = {}) ∨
    (message.fParameters.find? broadcastMsgid = some incoming.msgid ∧
      getIntegerParameter message broadcastTimeout = .ok incoming.timeout ∧ now ≤ incoming.timeout ∧
      ¬ m.fReceivedBroadcastMessages.Has incoming.msgid ∧
      getParameter message broadcastInformedNeighbors = .ok incoming.informedNeighbors ∧
      (∃ hops, getIntegerParameter message broadcastHops = .ok hops ∧
        incoming.hops = toInt32 hops) ∧
      m' = remember m incoming.msgid incoming.timeout now) := by
  rcases accept_cases m message now with hc | ⟨e, hc⟩ | ⟨hnone, hc⟩ |
    ⟨id, t, hid, ht, hnow, hhas, ⟨e, hc⟩ | ⟨neighbors, hops, hn, hh, hc⟩⟩
  · rw [hc] at h
    cases h
  · rw [hc] at h
    cases h
  · rw [hc] at h
    cases h
    exact Or.inl ⟨hnone, rfl, rfl⟩
  · rw [hc] at h
    cases h
  · rw [hc] at h
    cases h
    exact Or.inr ⟨hid, ht, hnow, hhas, hn, ⟨hops, hh, rfl⟩, rfl⟩

theorem getIntegerParameter_number {name : QString} {n k : ℤ}
    (h : message.fParameters.find? name = some (number n))
    (hk : getIntegerParameter message name = .ok k) : k = n := by
  rw [getIntegerParameter, h] at hk
  have hsigned := toSigned_number n
  simp only [toLongLong, trimmed_number, hsigned, Option.filter] at hk
  split at hk
  · rename_i heq
    split_ifs at heq
    · cases heq
      cases hk
      rfl
  · cases hk

theorem getParameter_of_find {name value : QString}
    (h : message.fParameters.find? name = some value) : getParameter message name = .ok value := by
  rw [getParameter, h]

def deadline (o : Origin ι) : ℤ :=
  match o.message.fParameters.find? broadcastMsgid with
  | none => o.now + 10
  | some _ =>
      match getIntegerParameter o.message broadcastTimeout with
      | .ok t => t
      | .error _ => o.now + 10

def Timely (actions : List (Action ι)) (t : ℤ) : Prop := ∀ a ∈ actions, 0 < a.now ∧ a.now ≤ t

theorem nextId_ne_nil (server : Server ι) (m : Memory) (incoming : Incoming) :
    nextId server m incoming ≠ [] := by
  unfold nextId
  split_ifs with hid
  · simp [decimal_ne_nil]
  · exact hid

/-- The copies of a message carry the date at which it times out. -/
theorem accept_deadline {m m' : Memory} {incoming : Incoming}
    (h : accept m message now = .accepted m' incoming) (hnow : 0 < now) :
    (if incoming.timeout = 0 then now + 10 else incoming.timeout) =
      deadline ⟨s, message, now⟩ := by
  rcases accept_accepted h with ⟨hid, -, rfl⟩ | ⟨hid, ht, hle, -⟩
  · simp [deadline, hid]
  · simp only [deadline, hid, ht]
    exact if_neg (by omega)

theorem mem_copies {o : Outcome ι} {c : Copy ι} (h : c ∈ copies tag o) :
    ∃ x ∈ o.sends, x.1.peer = some c.target ∧ c.tag = tag ∧ c.message = x.2 := by
  obtain ⟨x, hx, hmap⟩ := List.mem_filterMap.mp h
  obtain ⟨y, hy, rfl⟩ := Option.map_eq_some_iff.mp hmap
  exact ⟨x, hx, hy, rfl, rfl⟩

theorem mem_deliveriesOf {o : Outcome ι} {d : Delivery ι}
    (h : d ∈ deliveriesOf tag s o) :
    d.tag = tag ∧ d.server = s := by
  obtain ⟨c, -, rfl⟩ := List.mem_map.mp h
  exact ⟨rfl, rfl⟩

variable [DecidableEq ι]

theorem process_memory_keeps (tag : ℕ) (x : ι) :
    Keeps now (w.memory x) ((process net w s tag message now).memory x) := by
  simp only [process]
  by_cases hx : x = s
  · subst hx
    rw [Function.update_self]
    exact processMessage_keeps (net x) (w.memory x) message now
  · rw [Function.update_of_ne hx]
    exact Keeps.refl now _

/-- Numbers are given to messages in the order they are handed in. -/
structure Numbered (w : World ι) : Prop where
  flight : ∀ c ∈ w.flight, c.tag < w.origins.length
  deliveries : ∀ d ∈ w.deliveries, d.tag < w.origins.length
  executions : ∀ e ∈ w.executions, e.tag < w.origins.length

theorem process_numbered (h : Numbered w)
    (htag : tag < w.origins.length) : Numbered (process net w s tag message now) := by
  refine ⟨fun c hc => ?_, fun d hd => ?_, fun e he => ?_⟩
  · rcases List.mem_append.mp hc with hc | hc
    · exact h.flight c hc
    · obtain ⟨-, -, -, rfl, -⟩ := mem_copies hc
      exact htag
  · rcases List.mem_append.mp hd with hd | hd
    · exact h.deliveries d hd
    · rw [(mem_deliveriesOf hd).1]
      exact htag
  · rcases List.mem_append.mp he with he | he
    · exact h.executions e he
    · obtain ⟨hops, -, rfl⟩ := Option.map_eq_some_iff.mp (Option.mem_toList.mp he)
      exact htag

theorem step_numbered {a : Action ι} (h : Numbered w) :
    Numbered (step net w a) := by
  cases a with
  | send s message now =>
    refine process_numbered ⟨fun c hc => ?_, fun d hd => ?_, fun e he => ?_⟩ (by simp)
    · simpa using Nat.lt_succ_of_lt (h.flight c hc)
    · simpa using Nat.lt_succ_of_lt (h.deliveries d hd)
    · simpa using Nat.lt_succ_of_lt (h.executions e he)
  | deliver i now =>
    simp only [step]
    split
    · exact h
    · rename_i c hc
      exact process_numbered
        ⟨fun d hd => h.flight d (List.mem_of_mem_eraseIdx hd), h.deliveries, h.executions⟩
        (h.flight c (List.mem_of_getElem? hc))

theorem run_numbered {actions : List (Action ι)}
    (hrun : Reaches net actions w) : Numbered w := by
  refine Runs.invariant Numbered hrun ⟨?_, ?_, ?_⟩ (fun a l b ha hb => hb ▸ step_numbered ha)
  · exact fun c hc => absurd hc List.not_mem_nil
  · exact fun d hd => absurd hd List.not_mem_nil
  · exact fun e he => absurd he List.not_mem_nil

theorem origins_step {a : Action ι} {o : Origin ι}
    (h : (step net w a).origins[tag]? = some o) : w.origins[tag]? = some o ∨
      ∃ s message now, a = .send s message now ∧ o = ⟨s, message, now⟩ ∧
        tag = w.origins.length := by
  cases a with
  | send s message now =>
    have horigins : (w.origins ++ [⟨s, message, now⟩])[tag]? = some o := h
    rw [List.getElem?_append] at horigins
    split_ifs at horigins with hlt
    · exact Or.inl horigins
    · obtain ⟨hindex, hget⟩ := List.getElem?_eq_some_iff.mp horigins
      simp only [List.length_singleton, Nat.lt_one_iff] at hindex
      simp only [hindex, List.getElem_singleton] at hget
      exact Or.inr ⟨s, message, now, rfl, hget.symm, by omega⟩
  | deliver i now =>
    have horigins : (step net w (.deliver i now)).origins = w.origins := by
      simp only [step]
      split <;> rfl
    rw [horigins] at h
    exact Or.inl h

/-- What holds of a message once the server that it is handed to has processed it, and is kept by
the steps before it times out, holds up to then. -/
theorem Reaches.of_origin {actions : List (Action ι)}
    (hrun : Reaches net actions w) {o : Origin ι} (ho : w.origins[tag]? = some o)
    (htime : Timely actions (deadline o)) {P : QString → World ι → Prop}
    (hfirst : ∀ front v, Reaches net front v → front ⊆ actions → tag = v.origins.length →
      0 < o.now ∧ o.now ≤ deadline o →
      ∃ id ≠ [], P id (step net v (.send o.server o.message o.now)))
    (hstep : ∀ {id : QString} {v : World ι} {a : Action ι}, a ∈ actions → id ≠ [] →
      0 < a.now ∧ a.now ≤ deadline o → tag < v.origins.length → P id v → P id (step net v a)) :
    ∃ id ≠ [], P id w := by
  have hfronts : ∀ front v, Reaches net front v → front ⊆ actions → v.origins[tag]? = some o →
      ∃ id ≠ [], P id v := by
    intro front v hv
    unfold Reaches at hv
    induction hv with
    | nil => exact fun _ hnone => by cases hnone
    | @snoc v u front a hfront hlast ih =>
      intro hsubset horigin
      subst hlast
      have ha : a ∈ actions := hsubset (by simp)
      have hbefore : front ⊆ actions := fun b hb => hsubset (List.mem_append_left _ hb)
      rcases origins_step horigin with hold | ⟨s, message, now, rfl, rfl, htag⟩
      · obtain ⟨id, hid, hv⟩ := ih hbefore hold
        exact ⟨id, hid, hstep ha hid (htime a ha) (List.getElem?_eq_some_iff.mp hold).1 hv⟩
      · exact hfirst front v hfront hbefore htag (htime _ ha)
  exact hfronts actions w hrun (List.Subset.refl actions) ho

end Processing

def serviceConnection (name : QString) : Connection ι where
  pointer := 0
  isService := true
  name := name
  serverName := ascii "local"
  connectionType := .typeLocal
  address := ⟨#v[0, 0, 0, 0, 0, 0xFFFF, 0x7F00, 1]⟩
  understoodCommands := [ascii "PING"]
  peer := none

def serverConnection (pointer : ℕ) (address : Address) (s : ι) : Connection ι where
  pointer := pointer
  isService := true
  name := ascii "remote"
  serverName := ascii "other"
  connectionType := .typeRemote
  address := address
  understoodCommands := []
  peer := some s

def serverOf (address : ι → Address) (neighbors : ι → List ι) (service : ι → QString) (s : ι) :
    Server ι where
  fServerName := ascii "server"
  fMyAddress := address s
  isDebug := false
  fLocalServicesList := []
  connections := serviceConnection (service s) ::
    (neighbors s).mapIdx (fun i x => serverConnection (i + 1) (address x) x)

def ping : Message where
  fService := star
  fCommand := ascii "PING"

theorem mem_serverOf {address : ι → Address} {neighbors : ι → List ι} {service : ι → QString}
    {s : ι} {c : Connection ι} (hc : c ∈ (serverOf address neighbors service s).connections) :
    c = serviceConnection (service s) ∨
      ∃ i x, x ∈ neighbors s ∧ c = serverConnection (i + 1) (address x) x := by
  rcases List.mem_cons.mp hc with rfl | hc
  · exact Or.inl rfl
  · obtain ⟨i, hi, rfl⟩ := List.mem_mapIdx.mp hc
    exact Or.inr ⟨i, _, List.getElem_mem hi, rfl⟩

theorem wired_serverOf (address : ι → Address) (neighbors : ι → List ι) (service : ι → QString)
    (h : ∀ s, s ∉ neighbors s) : Wired (serverOf address neighbors service) := by
  refine ⟨fun s => ?_, fun s c hc hpeer => ?_, fun s c hc x hpeer => ?_⟩
  · have hpointers : (serverOf address neighbors service s).connections.map Connection.pointer =
        List.range ((neighbors s).length + 1) := by
      rw [List.range_succ_eq_map]
      refine congrArg₂ List.cons rfl (List.ext_getElem (by simp) (fun i h₁ h₂ => ?_))
      simp [serverConnection]
    rw [hpointers]
    exact List.nodup_range
  · rcases mem_serverOf hc with rfl | ⟨i, x, hx, rfl⟩
    · cases hpeer
    · obtain rfl := Option.some.inj hpeer
      exact h x hx
  · rcases mem_serverOf hc with rfl | ⟨i, y, -, rfl⟩
    · cases hpeer
    · obtain rfl := Option.some.inj hpeer
      rfl

end SnapCpp.GossipNetwork
