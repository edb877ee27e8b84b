import SnapCpp.GossipNetwork

/-!
Which messages carry an identifier. A server makes one of its name and a number that
it does not use again. So the identifier stays with the message that it was made for,
as long as each server has a name of its own and no service hands in a message with
an identifier that looks like it.
-/
namespace SnapCpp.GossipIdentifiers

open QString QNumber CommunicatorMessage SnapAddr CommunicatorServer GossipNetwork

variable {ι : Type} {n : ℕ}

def made (server : Server ι) (n : ℕ) : QString := server.fServerName ++ ascii "-" ++ decimal n

def Bears (message : Message) (id : QString) : Prop :=
  message.fParameters.find? broadcastMsgid = some id

/-- The last dash of an identifier stands before the number. -/
theorem made_injective {s x : Server ι} {m : ℕ} (h : made s m = made x n) :
    s.fServerName = x.fServerName ∧ m = n := by
  have hcut : ∀ (y : Server ι) k,
      (made y k).reverse.takeWhile isDigit = (decimal k).reverse ∧
        (made y k).reverse.dropWhile isDigit = minus :: y.fServerName.reverse := by
    intro y k
    have hform : (made y k).reverse = (decimal k).reverse ++ minus :: y.fServerName.reverse := by
      rw [made, List.reverse_append, List.reverse_append]
      rfl
    have hdigits : ∀ c ∈ (decimal k).reverse, isDigit c = true := fun c hc =>
      isDigit_of_mem_decimal k c (List.mem_reverse.mp hc)
    have hminus : ¬ isDigit minus = true := by decide
    rw [hform, List.takeWhile_append_of_pos hdigits, List.dropWhile_append_of_pos hdigits,
      List.takeWhile_cons_of_neg hminus, List.dropWhile_cons_of_neg hminus, List.append_nil]
    exact ⟨rfl, rfl⟩
  have hnumber := (hcut s m).1
  have hname := (hcut s m).2
  rw [h, (hcut x n).1] at hnumber
  rw [h, (hcut x n).2, List.cons.injEq, List.reverse_inj] at hname
  exact ⟨hname.2.symm, decimal_injective (List.reverse_inj.mp hnumber).symm⟩

section Processing

/-- What processing a message does to the identifiers: the server remembers only that of the
message, and sends messages on with that one or with one that it makes of a new number. -/
structure Uses (server : Server ι) (m : Memory) (message : Message)
    (r : Memory × Except QString (Outcome ι)) : Prop where
  sequence : m.gBroadcastSequence ≤ r.1.gBroadcastSequence
  remembered : ∀ id, r.1.fReceivedBroadcastMessages.Has id →
    m.fReceivedBroadcastMessages.Has id ∨ Bears message id
  sends : ∀ x ∈ (outcome r.2).sends, ∀ id, Bears x.2 id → Bears message id ∨
    id = made server (m.gBroadcastSequence + 1) ∧ m.gBroadcastSequence < r.1.gBroadcastSequence

variable {server : Server ι} {m : Memory} {message : Message} {now : ℤ}

theorem Uses.quiet {r : Except QString (Outcome ι)}
    (h : ∀ x ∈ (outcome r).sends, x.2 = message) : Uses server m message (m, r) :=
  ⟨le_rfl, fun _ hid => Or.inl hid, fun x hx _ hid => Or.inl (h x hx ▸ hid)⟩

theorem relay_uses (accepting : List (Connection ι)) {incoming : Incoming}
    (h : incoming.msgid = [] ∨ Bears message incoming.msgid) :
    Uses server m message ((relay server m message accepting incoming now).1,
      .ok (relay server m message accepting incoming now).2) := by
  refine ⟨?_, fun id hid => Or.inl ?_, fun x hx id hid => ?_⟩
  · simp only [relay]
    split_ifs
    · exact le_rfl
    · exact Nat.le_succ _
  · simpa only [relay_received] using hid
  · change x ∈ (relay server m message accepting incoming now).2.sends at hx
    rw [relay_sends, List.mem_append] at hx
    rcases hx with hx | hx
    · obtain ⟨c, -, rfl⟩ := List.mem_map.mp hx
      exact Or.inl hid
    · have hsequence : m.gBroadcastSequence <
          (relay server m message accepting incoming now).1.gBroadcastSequence := by
        simp only [relay]
        split_ifs with hempty
        · rw [List.isEmpty_iff.mp hempty] at hx
          cases hx
        · exact Nat.lt_succ_self _
      obtain ⟨c, -, rfl⟩ := List.mem_map.mp hx
      have hnext : nextId server m incoming = id :=
        Option.some.inj ((relayed_msgid ..).symm.trans hid)
      subst hnext
      rw [nextId]
      split_ifs with hempty
      · exact Or.inr ⟨rfl, hsequence⟩
      · exact Or.inl (h.resolve_left hempty)

theorem broadcastMessage_uses (accepting : List (Connection ι)) :
    Uses server m message (broadcastMessage server m message accepting now) := by
  have hremember : ∀ {id t} {r : Memory × Except QString (Outcome ι)}, Bears message id →
      Uses server (remember m id t now) message r → Uses server m message r := by
    intro id t r hbears hr
    refine ⟨hr.sequence, fun id' hid' => ?_, hr.sends⟩
    rcases hr.remembered id' hid' with hhas | hbears'
    · by_cases hsame : id' = id
      · exact Or.inr (hsame ▸ hbears)
      · rw [OrderedMap.Has, remember, OrderedMap.find?_insert, if_neg hsame] at hhas
        exact Or.inl (OrderedMap.has_of_has_retain hhas)
    · exact Or.inr hbears'
  have hsilent : ∀ {m' : Memory} {r : Except QString (Outcome ι)}, (outcome r).sends = [] →
      Uses server m' message (m', r) := by
    intro m' r hr
    exact Uses.quiet (fun x hx => by rw [hr] at hx; cases hx)
  unfold broadcastMessage
  rcases accept_cases m message now with h | ⟨e, h⟩ | ⟨-, h⟩ | ⟨id, t, hid, -, -, -, h⟩
  · rw [h]
    exact hsilent rfl
  · rw [h]
    exact hsilent rfl
  · rw [h]
    exact relay_uses accepting (Or.inl rfl)
  · rcases h with ⟨e, h⟩ | ⟨neighbors, hops, -, -, h⟩
    · rw [h]
      exact hremember hid (hsilent rfl)
    · rw [h]
      exact hremember hid (relay_uses accepting (Or.inr hid))

theorem processDirected_uses : Uses server m message (processDirected server m message now) := by
  simp only [processDirected]
  split
  · exact Uses.quiet (fun x hx => by cases hx)
  · split_ifs
    · exact Uses.quiet (fun x hx => by rw [List.mem_singleton.mp hx])
    · exact Uses.quiet (fun x hx => by cases hx)
  · split_ifs
    · have hkeep : (keep m message now).gBroadcastSequence = m.gBroadcastSequence ∧
          (keep m message now).fReceivedBroadcastMessages = m.fReceivedBroadcastMessages := by
        simp only [keep]
        split_ifs <;> exact ⟨rfl, rfl⟩
      exact ⟨hkeep.1.ge, fun id hid => Or.inl (hkeep.2 ▸ hid), fun x hx => by cases hx⟩
    · exact Uses.quiet (fun x hx => by cases hx)
    · exact Uses.quiet (fun x hx => by cases hx)
    · exact broadcastMessage_uses _

theorem processMessage_uses : Uses server m message (processMessage server m message now) := by
  simp only [processMessage]
  split
  · exact Uses.quiet (fun x hx => by cases hx)
  · exact Uses.quiet (fun x hx => by cases hx)
  · split_ifs
    · exact Uses.quiet (fun x hx => by cases hx)
    · exact Uses.quiet (fun x hx => by cases hx)
    · exact broadcastMessage_uses []
    · exact processDirected_uses

end Processing

variable [DecidableEq ι]

section Worlds

variable {net : ι → Server ι} {w : World ι} {s : ι} {tag : ℕ} {message : Message} {now : ℤ}

theorem process_sequence (tag : ℕ) (x : ι) : (w.memory x).gBroadcastSequence ≤
    ((process net w s tag message now).memory x).gBroadcastSequence := by
  simp only [process]
  by_cases hx : x = s
  · subst hx
    rw [Function.update_self]
    exact processMessage_uses.sequence
  · rw [Function.update_of_ne hx]

theorem step_sequence {a : Action ι} (x : ι) : (w.memory x).gBroadcastSequence ≤
    ((step net w a).memory x).gBroadcastSequence := by
  cases a with
  | send s message now => exact process_sequence w.origins.length x
  | deliver i now =>
    simp only [step]
    split
    · exact le_rfl
    · rename_i c _
      exact process_sequence c.tag x

theorem process_remembered {x : ι} {id : QString}
    (h : ((process net w s tag message now).memory x).fReceivedBroadcastMessages.Has id) :
    (w.memory x).fReceivedBroadcastMessages.Has id ∨ Bears message id := by
  simp only [process] at h
  by_cases hx : x = s
  · subst hx
    rw [Function.update_self] at h
    exact processMessage_uses.remembered id h
  · rw [Function.update_of_ne hx] at h
    exact Or.inl h

/-- A number that a server used up. -/
theorem process_bears {first : ι} {n : ℕ} {c : Copy ι}
    (hname : ∀ x, (net x).fServerName = (net first).fServerName → x = first)
    (hc : c ∈ (process net w s tag message now).flight)
    (hbears : Bears c.message (made (net first) n)) :
    c ∈ w.flight ∨ Bears message (made (net first) n) ∨
      (w.memory first).gBroadcastSequence < n ∧
        n ≤ ((process net w s tag message now).memory first).gBroadcastSequence := by
  rcases List.mem_append.mp hc with hc | hc
  · exact Or.inl hc
  · obtain ⟨x, hx, -, -, hmessage⟩ := mem_copies hc
    rw [hmessage] at hbears
    rcases processMessage_uses.sends x hx _ hbears with hold | ⟨hnew, hlt⟩
    · exact Or.inr (Or.inl hold)
    · obtain ⟨hsame, rfl⟩ := made_injective hnew
      obtain rfl := hname s hsame.symm
      refine Or.inr (Or.inr ⟨Nat.lt_succ_self _, ?_⟩)
      simp only [process, Function.update_self]
      exact hlt

end Worlds

/-- No service hands in a message with an identifier like those of the server. -/
def Foreign (net : ι → Server ι) (first : ι) (actions : List (Action ι)) : Prop :=
  ∀ s message now, Action.send s message now ∈ actions → ∀ n, ¬ Bears message (made (net first) n)

/-- An identifier that is nowhere yet. -/
structure Unused (w : World ι) (id : QString) : Prop where
  flight : ∀ c ∈ w.flight, ¬ Bears c.message id
  memory : ∀ s, ¬ (w.memory s).fReceivedBroadcastMessages.Has id

theorem process_unused {net : ι → Server ι} {w : World ι} {first s : ι} {tag : ℕ}
    {message : Message} {now : ℤ}
    (hname : ∀ x, (net x).fServerName = (net first).fServerName → x = first)
    (hmessage : ¬ Bears message (made (net first) n))
    (hnew : n = 0 ∨ ((process net w s tag message now).memory first).gBroadcastSequence < n)
    (h : Unused w (made (net first) n)) :
    Unused (process net w s tag message now) (made (net first) n) := by
  refine ⟨fun c hc hbears => ?_, fun x hhas => ?_⟩
  · rcases process_bears hname hc hbears with hold | hold | ⟨hlt, hle⟩
    · exact h.flight c hold hbears
    · exact hmessage hold
    · omega
  · rcases process_remembered hhas with hold | hold
    · exact h.memory x hold
    · exact hmessage hold

/-- The numbers that a server did not get to yet are in no identifier, nor is zero. -/
theorem run_unused {net : ι → Server ι} {first : ι} {actions : List (Action ι)} {w : World ι}
    (hname : ∀ x, (net x).fServerName = (net first).fServerName → x = first)
    (hrun : Reaches net actions w) (hforeign : Foreign net first actions)
    (hn : n = 0 ∨ (w.memory first).gBroadcastSequence < n) : Unused w (made (net first) n) := by
  unfold Reaches at hrun
  induction hrun with
  | nil =>
    exact ⟨fun c hc => absurd hc List.not_mem_nil, fun s hhas => by simp [OrderedMap.Has] at hhas⟩
  | @snoc v u front a _ hlast ih =>
    subst hlast
    have hbefore : Foreign net first front := fun s message now ha =>
      hforeign s message now (List.mem_append_left _ ha)
    have hv := ih hbefore (hn.imp_right (lt_of_le_of_lt (step_sequence first)))
    cases a with
    | send s message now =>
      exact process_unused hname (hforeign s message now (by simp) n) hn ⟨hv.flight, hv.memory⟩
    | deliver i now =>
      cases hc : v.flight[i]? with
      | none =>
        simp only [step, hc]
        exact hv
      | some c =>
        simp only [step, hc] at hn ⊢
        exact process_unused hname (hv.flight c (List.mem_of_getElem? hc)) hn
          ⟨fun d hd => hv.flight d (List.mem_of_mem_eraseIdx hd), hv.memory⟩

end SnapCpp.GossipIdentifiers
