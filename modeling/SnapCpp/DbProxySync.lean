import SnapCpp.DbProxyConnection
import SnapCpp.Runs

/-!
A client and its `snapdbproxy_connection` on the two directions of a socket. The
client waits for a reply when the order it sent is blocking; the other side sends
one when the type of the order has one. The two agree as long as every blocking
order has a type with a reply and comes after no order that left a reply unread.
-/
namespace SnapCpp.DbProxySync

open CassValue CassandraOrder CassandraResult DbProxyConnection

/-- The end of `receiveOrder()`, on an order that starts as an invalid one. -/
def decodeReceived (data : Bytes) : Except String Order := do
  let (decoded, order) ← ({ fValid := false } : Order).decodeOrder data
  return if decoded then { order with fValid := true } else order

/-- `QCassandraProxy::receiveOrder()`, or nothing while it waits for more bytes. -/
def receiveOrder (stream : Bytes) : Option (Except String Order × Bytes) :=
  match bioRead 8 stream with
  | none => none
  | some (buf, stream) =>
      if buf.take 4 = Order.tag then
        match bioRead (number (buf.drop 4)) stream with
        | none => none
        | some (data, stream) => some (decodeReceived data, stream)
      else some (.ok { fValid := false }, stream)

def replyReady (stream : Bytes) : Bool :=
  match bioRead 8 stream with
  | none => false
  | some (buf, stream) => (bioRead (number (buf.drop 4)) stream).isSome

/-- Both sides and the bytes between them. The connection is gone once it is closed.
The last four fields record what happened: the orders written, how many of them the
connection has read, the results it produced and those the client returned from
blocking calls of `sendOrder()`, each with the number of its order. -/
structure World (σ κ : Type) where
  connection : Option (Connection σ κ)
  up : Bytes := []
  down : Bytes := []
  waiting : Option ℕ := none
  sent : List Order := []
  taken : ℕ := 0
  produced : List (ℕ × OrderResult) := []
  returned : List (ℕ × OrderResult) := []

/-- The client sends an order, the connection serves the next one, the client reads
the reply it waits for, or something changes behind the other connections. -/
inductive Action (σ : Type)
  | send (o : Order)
  | serve
  | receive
  | elsewhere (session : σ) (clusterDescription : Bytes)

section Steps

variable {σ κ : Type} (cass : Cass σ κ) (debug : Bool)

/-- `sendOrder()` up to the wait for a reply; nothing is written when encoding throws. -/
def World.send (w : World σ κ) (o : Order) : Option (World σ κ) :=
  match w.waiting with
  | some _ => none
  | none =>
      match o.encodeOrder with
      | .error _ => some w
      | .ok bytes => some { w with
          up := w.up ++ bytes
          sent := w.sent ++ [o]
          waiting := if o.fBlocking then some w.sent.length else none }

/-- One turn of the loop of `run()`. -/
def World.serve (w : World σ κ) : Option (World σ κ) :=
  match w.connection, receiveOrder w.up with
  | some s, some (received, up) =>
      let closed := { w with up, taken := w.taken + 1, connection := none }
      match received with
      | .error _ => some closed
      | .ok order =>
          if order.fValid && cass.isConnected s.session then
            match serveOrder cass debug order { s with output := [], replies := [] } with
            | .error _ => some closed
            | .ok (_, s) => some { closed with
                connection := some s
                down := w.down ++ s.output
                produced := w.produced ++ s.replies.map fun r => (w.taken, r) }
          else some closed
  | _, _ => none

/-- The rest of `sendOrder()` for a blocking order. The read waits for a whole reply
unless the other side is gone. -/
def World.receive (w : World σ κ) : Option (World σ κ) :=
  match w.waiting with
  | none => none
  | some k =>
      if replyReady w.down || w.connection.isNone then
        match readReply w.down with
        | .error _ => some { w with waiting := none }
        | .ok (r, down) => some { w with down, waiting := none, returned := w.returned ++ [(k, r)] }
      else none

def World.step (w : World σ κ) : Action σ → Option (World σ κ)
  | .send o => w.send o
  | .serve => w.serve cass debug
  | .receive => w.receive
  | .elsewhere session clusterDescription => some { w with
      connection := w.connection.map fun s => { s with session, clusterDescription } }

def opened (session : σ) (clusterDescription : Bytes) : World σ κ :=
  { connection := some { session, clusterDescription } }

def World.repliesTo (w : World σ κ) (k : ℕ) : List OrderResult :=
  (w.produced.filter fun p => p.1 = k).map Prod.snd

/-- Every blocking order returned the one result that was produced for it, except
the one that the client waits for, and then either that result is there to be read or
the connection still has orders to serve up to that one. -/
structure Synchronised (w : World σ κ) : Prop where
  own : ∀ k r, (k, r) ∈ w.returned → w.repliesTo k = [r]
  once : (w.returned.map Prod.fst).Nodup
  every : ∀ k o, w.sent[k]? = some o → o.fBlocking = true →
    w.waiting = some k ∨ k ∈ w.returned.map Prod.fst
  awaited : ∀ k, w.waiting = some k →
    w.taken ≤ k ∧ (w.serve cass debug).isSome ∨
      ∃ r w', w.repliesTo k = [r] ∧ w.receive = some w' ∧ w'.returned = w.returned ++ [(k, r)]

def Quiet (sent : List Order) : Prop :=
  ∀ o ∈ sent, o.fBlocking = true ∨ answers o.fTypeOfResult = false

def InStep (w : World σ κ) (o : Order) : Prop :=
  o.fBlocking = true → answers o.fTypeOfResult = true ∧ Quiet w.sent

def Servable (w : World σ κ) (a : Action σ) : Prop :=
  a = .serve → ∀ s order rest, w.connection = some s →
    receiveOrder w.up = some (.ok order, rest) → Ready cass s order

/-- The connection can run the orders that it serves, and those sent are in step. -/
structure Meets (w : World σ κ) (a : Action σ) : Prop where
  servable : Servable cass w a
  inStep : ∀ o, a = .send o → InStep w o

def orderBytes (o : Order) : Bytes := Order.tag ++ bigEndian 4 o.body.length ++ o.body

theorem receiveOrder_orderBytes {o : Order} (h : ¬o.Oversized) (rest : Bytes) :
    receiveOrder (orderBytes o ++ rest) = some (.ok (o.restored true), rest) := by
  have hsize := (not_or.mp h).2
  have hnumber : number (bigEndian 4 o.body.length) = o.body.length := by
    have hvalue := number_bigEndian 4 o.body.length
    rw [bufferMaxSize] at hsize
    omega
  have hhead : (Order.tag ++ bigEndian 4 o.body.length).length = 8 := by
    rw [List.length_append, length_bigEndian]
    rfl
  have hfirst : bioRead 8 (orderBytes o ++ rest) =
      some (Order.tag ++ bigEndian 4 o.body.length, o.body ++ rest) := by
    rw [← hhead, ← bioRead_append, orderBytes, List.append_assoc]
  have htag : Order.tag.length = 4 := rfl
  have hdecode : decodeReceived o.body = .ok (o.restored true) := by
    rw [decodeReceived, Order.decodeOrder_body h false]
    rfl
  simp only [receiveOrder, hfirst, List.take_left' htag, List.drop_left' htag, if_true, hnumber,
    bioRead_append, hdecode]

theorem replyReady_encoded {r : OrderResult} (h : r.Fits) : replyReady r.encoded = true := by
  have hlength := length_command r.fSucceeded
  have hhead : (command r.fSucceeded ++ bigEndian 4 r.body.length).length = 8 := by
    rw [List.length_append, hlength, length_bigEndian]
  have hfirst : bioRead 8 r.encoded =
      some (command r.fSucceeded ++ bigEndian 4 r.body.length, r.body) := by
    rw [← hhead, ← bioRead_append, OrderResult.encoded, List.append_assoc]
  have hbody : bioRead r.body.length r.body = some (r.body, []) := by
    have := bioRead_append r.body []
    rwa [List.append_nil] at this
  simp only [replyReady, hfirst, List.drop_left' hlength, number_size h, hbody, Option.isSome_some]

/-- What the two sides have in common after any number of steps. -/
structure Inv (w : World σ κ) : Prop where
  connected : ∃ s, w.connection = some s
  taken_le : w.taken ≤ w.sent.length
  up_eq : w.up = (w.sent.drop w.taken).flatMap orderBytes
  fits : ∀ o ∈ w.sent, ¬o.Oversized
  late : ∀ p ∈ w.produced, p.1 < w.taken
  served : ∀ k o, k < w.taken → w.sent[k]? = some o → answers o.fTypeOfResult = true →
    ∃ r, r.Fits ∧ w.repliesTo k = [r]
  own : ∀ k r, (k, r) ∈ w.returned → w.repliesTo k = [r]
  once : (w.returned.map Prod.fst).Nodup
  every : ∀ k o, w.sent[k]? = some o → o.fBlocking = true →
    w.waiting = some k ∨ k ∈ w.returned.map Prod.fst
  waits : ∀ k, w.waiting = some k → k + 1 = w.sent.length ∧
    (∃ o, w.sent[k]? = some o ∧ answers o.fTypeOfResult = true) ∧ Quiet w.sent ∧
    k ∉ w.returned.map Prod.fst
  pending : Quiet w.sent →
    w.down = w.waiting.elim [] fun k => (w.repliesTo k).flatMap OrderResult.encoded

namespace Inv

variable {w w' : World σ κ} {k : ℕ}

theorem repliesTo_eq_nil (h : Inv w) (hk : w.taken ≤ k) : w.repliesTo k = [] := by
  rw [World.repliesTo, List.map_eq_nil_iff, List.filter_eq_nil_iff]
  intro p hp heq
  have hlate := h.late p hp
  rw [of_decide_eq_true heq] at hlate
  omega

theorem returned_lt (h : Inv w) (hk : k ∈ w.returned.map Prod.fst) : k < w.taken := by
  obtain ⟨⟨k', r⟩, hmem, rfl⟩ := List.mem_map.mp hk
  by_contra hlt
  have hown := h.own k' r hmem
  rw [h.repliesTo_eq_nil (Nat.not_lt.mp hlt)] at hown
  cases hown

theorem send (h : Inv w) {o : Order} (hin : InStep w o) (hw : w.send o = some w') : Inv w' := by
  rw [World.send] at hw
  cases hwait : w.waiting with
  | some k =>
    rw [hwait] at hw
    cases hw
  | none =>
    by_cases hsize : o.Oversized
    · obtain ⟨message, he⟩ := Order.encodeOrder_error hsize
      simp only [hwait, he, Option.some.injEq] at hw
      exact hw ▸ h
    simp only [hwait, Order.encodeOrder_ok hsize, Option.some.injEq] at hw
    have hnew : ∀ k o', (w.sent ++ [o])[k]? = some o' →
        w.sent[k]? = some o' ∨ k = w.sent.length ∧ o' = o := by
      intro k o' hk
      rw [List.getElem?_append] at hk
      split_ifs at hk with hlt
      · exact .inl hk
      · obtain ⟨hidx, hval⟩ := List.getElem?_eq_some_iff.mp hk
        rw [List.length_singleton] at hidx
        refine .inr ⟨by omega, ?_⟩
        rw [← hval]
        simp
    have hlast : (w.sent ++ [o])[w.sent.length]? = some o := by simp
    have hquiet : Quiet (w.sent ++ [o]) → w.down = [] := by
      intro hq
      have := h.pending fun o' ho' => hq o' (List.mem_append_left _ ho')
      rwa [hwait] at this
    subst hw
    refine ⟨h.connected, ?_, ?_, ?_, h.late, ?_, h.own, h.once, ?_, ?_, ?_⟩
    · simp only [List.length_append]
      exact h.taken_le.trans (Nat.le_add_right _ _)
    · simp only [List.drop_append_of_le_length h.taken_le, List.flatMap_append, ← h.up_eq,
        List.flatMap_singleton]
      rfl
    · intro o' ho'
      rcases List.mem_append.mp ho' with hold | hlast
      · exact h.fits o' hold
      · rwa [List.mem_singleton.mp hlast]
    · intro k o' hk ho'
      rcases hnew k o' ho' with hold | ⟨rfl, -⟩
      · exact h.served k o' hk hold
      · exact absurd h.taken_le (Nat.not_le.mpr hk)
    · intro k o' ho' hblock
      rcases hnew k o' ho' with hold | ⟨rfl, rfl⟩
      · have := h.every k o' hold hblock
        rw [hwait] at this
        exact .inr (this.resolve_left (by simp))
      · exact .inl (if_pos hblock)
    · intro k hk
      by_cases hblock : o.fBlocking = true
      · simp only [hblock, if_true, Option.some.injEq] at hk
        subst hk
        obtain ⟨hanswers, hq⟩ := hin hblock
        refine ⟨by simp, ⟨o, hlast, hanswers⟩, ?_, ?_⟩
        · intro o' ho'
          rcases List.mem_append.mp ho' with hold | hlast
          · exact hq o' hold
          · exact .inl (List.mem_singleton.mp hlast ▸ hblock)
        · intro hmem
          exact absurd (h.returned_lt hmem) (Nat.not_lt.mpr h.taken_le)
      · simp [hblock] at hk
    · intro hq
      by_cases hblock : o.fBlocking = true
      · simp only [hblock, if_true, Option.elim_some]
        rw [hquiet hq]
        have hnil := h.repliesTo_eq_nil h.taken_le
        exact (congrArg (List.flatMap OrderResult.encoded) hnil).symm
      · simpa [hblock] using hquiet hq

theorem received (h : Inv w) (hlt : w.taken < w.sent.length) : ∃ o, w.sent[w.taken]? = some o ∧
    receiveOrder w.up =
      some (.ok (o.restored true), (w.sent.drop (w.taken + 1)).flatMap orderBytes) := by
  refine ⟨w.sent[w.taken], List.getElem?_eq_getElem hlt, ?_⟩
  rw [h.up_eq, List.drop_eq_getElem_cons hlt, List.flatMap_cons]
  exact receiveOrder_orderBytes (h.fits _ (List.getElem_mem hlt)) _

theorem serve (h : Inv w) (hmeets : Servable cass w .serve) (hw : w.serve cass debug = some w') :
    Inv w' := by
  obtain ⟨s, hs⟩ := h.connected
  by_cases hlt : w.taken < w.sent.length
  · obtain ⟨o, ho, hreceived⟩ := h.received hlt
    have hready := hmeets rfl s _ _ hs hreceived
    obtain ⟨s', results, hserve, hhandled, hcount⟩ := serveOrder_ready cass debug
      (s := { s with output := [], replies := [] }) hready
    have houtput := hhandled.output
    have hreplies := hhandled.replies
    rw [List.nil_append] at houtput hreplies
    simp only [World.serve, hs, hreceived, hready.1, Bool.and_true, hserve, houtput, hreplies] at hw
    have hvalid : (o.restored true).fValid = true := rfl
    simp only [hvalid, if_true, Option.some.injEq] at hw
    have hrepliesTo : ∀ k, w'.repliesTo k =
        w.repliesTo k ++ if k = w.taken then results else [] := by
      intro k
      subst hw
      simp only [World.repliesTo, List.filter_append, List.map_append, List.filter_map]
      congr 1
      by_cases hk : k = w.taken
      · simp [hk, Function.comp_def]
      · simp [hk, Function.comp_def, Ne.symm hk]
    have hold : ∀ k, k < w.taken → w'.repliesTo k = w.repliesTo k := by
      intro k hk
      rw [hrepliesTo, if_neg (Nat.ne_of_lt hk), List.append_nil]
    have hcurrent : w'.repliesTo w.taken = results := by
      rw [hrepliesTo, if_pos rfl, h.repliesTo_eq_nil le_rfl, List.nil_append]
    have hdown : w'.down = w.down ++ results.flatMap OrderResult.encoded := by rw [← hw]
    have hsent : w'.sent = w.sent := by rw [← hw]
    have hwaiting : w'.waiting = w.waiting := by rw [← hw]
    have hreturned : w'.returned = w.returned := by rw [← hw]
    have htaken : w'.taken = w.taken + 1 := by rw [← hw]
    refine ⟨⟨s', by rw [← hw]⟩, ?_, ?_, ?_, ?_, ?_, ?_, ?_, ?_, ?_, ?_⟩
    · rw [htaken, hsent]
      exact hlt
    · rw [← hw]
    · rw [hsent]
      exact h.fits
    · intro p hp
      rw [← hw] at hp
      rw [htaken]
      rcases List.mem_append.mp hp with hbefore | hnow
      · exact Nat.lt_succ_of_lt (h.late p hbefore)
      · obtain ⟨r, -, rfl⟩ := List.mem_map.mp hnow
        exact Nat.lt_succ_self _
    · intro k o' hk ho' hanswers
      rw [htaken] at hk
      rw [hsent] at ho'
      rcases Nat.lt_succ_iff_lt_or_eq.mp hk with hbefore | rfl
      · rw [hold k hbefore]
        exact h.served k o' hbefore ho' hanswers
      · obtain rfl := Option.some.inj (ho.symm.trans ho')
        have hone : results.length = 1 := hcount.trans (if_pos hanswers)
        obtain ⟨r, hr⟩ := List.length_eq_one_iff.mp hone
        exact ⟨r, hhandled.fits r (by simp [hr]), by rw [hcurrent, hr]⟩
    · intro k r hk
      rw [hreturned] at hk
      rw [hold k (h.returned_lt (List.mem_map_of_mem hk))]
      exact h.own k r hk
    · rw [hreturned]
      exact h.once
    · rw [hsent, hwaiting, hreturned]
      exact h.every
    · rw [hsent, hwaiting, hreturned]
      exact h.waits
    · intro hq
      rw [hsent] at hq
      rw [hdown, hwaiting, h.pending hq]
      by_cases hanswers : answers o.fTypeOfResult = true
      · -- somebody waits for the reply to an order that has one
        have hblock : o.fBlocking = true :=
          (hq o (List.mem_of_getElem? ho)).resolve_right (by simp [hanswers])
        have hwait : w.waiting = some w.taken := (h.every _ o ho hblock).resolve_right fun hmem =>
          absurd (h.returned_lt hmem) (Nat.lt_irrefl _)
        simp only [hwait, Option.elim_some]
        rw [hcurrent, h.repliesTo_eq_nil le_rfl]
        rfl
      · have hnone : results = [] := List.length_eq_zero_iff.mp (hcount.trans (if_neg hanswers))
        have hsame : ∀ k, w'.repliesTo k = w.repliesTo k := by
          intro k
          rw [hrepliesTo, hnone, ite_self, List.append_nil]
        simp only [hsame, hnone, List.flatMap_nil, List.append_nil]
  · have hnothing : w.up = [] := by
      rw [h.up_eq, List.drop_eq_nil_of_le (Nat.not_lt.mp hlt), List.flatMap_nil]
    rw [World.serve, hs, hnothing] at hw
    cases hw

/-- Once the order that the client waits for was served, its reply is all there is
on the socket. -/
theorem receive_eq (h : Inv w) (hwait : w.waiting = some k) (hk : k < w.taken) :
    ∃ r, w.repliesTo k = [r] ∧ w.receive = some { w with
      down := [], waiting := none, returned := w.returned ++ [(k, r)] } := by
  obtain ⟨-, ⟨o, ho, hanswers⟩, hquiet, -⟩ := h.waits k hwait
  obtain ⟨r, hfits, hr⟩ := h.served k o hk ho hanswers
  have hdown : w.down = r.encoded := by
    rw [h.pending hquiet, hwait, Option.elim_some, hr, List.flatMap_singleton]
  have hread := readReply_encoded hfits []
  rw [List.append_nil] at hread
  refine ⟨r, hr, ?_⟩
  simp only [World.receive, hwait, hdown, replyReady_encoded hfits, Bool.true_or, if_true, hread]

theorem receive (h : Inv w) (hw : w.receive = some w') : Inv w' := by
  cases hwait : w.waiting with
  | none =>
    rw [World.receive, hwait] at hw
    cases hw
  | some k =>
    obtain ⟨-, -, hquiet, hfresh⟩ := h.waits k hwait
    by_cases hk : k < w.taken
    · obtain ⟨r, hr, hreceive⟩ := h.receive_eq hwait hk
      rw [hreceive, Option.some.injEq] at hw
      subst hw
      refine ⟨h.connected, h.taken_le, h.up_eq, h.fits, h.late, h.served, ?_, ?_, ?_, ?_, ?_⟩
      · intro k' r' hmem
        rcases List.mem_append.mp hmem with hold | hnew
        · exact h.own k' r' hold
        · obtain ⟨rfl, rfl⟩ := Prod.mk.inj (List.mem_singleton.mp hnew)
          exact hr
      · simp only [List.map_append, List.map_cons, List.map_nil]
        exact List.nodup_append.mpr ⟨h.once, List.nodup_singleton k, fun a ha b hb heq =>
          hfresh (List.mem_singleton.mp hb ▸ heq ▸ ha)⟩
      · intro k' o ho hblock
        simp only [List.map_append, List.mem_append]
        rcases h.every k' o ho hblock with hsame | hold
        · rw [hwait, Option.some.injEq] at hsame
          exact .inr (.inr (by simp [hsame]))
        · exact .inr (.inl hold)
      · intro k' hk'
        cases hk'
      · intro _
        rfl
    · have hdown : w.down = [] := by
        rw [h.pending hquiet, hwait, Option.elim_some, h.repliesTo_eq_nil (Nat.not_lt.mp hk),
          List.flatMap_nil]
      obtain ⟨s, hs⟩ := h.connected
      simp [World.receive, hwait, hdown, hs, replyReady, bioRead] at hw

theorem opened (session : σ) (clusterDescription : Bytes) :
    Inv (opened session clusterDescription : World σ κ) where
  connected := ⟨_, rfl⟩
  taken_le := Nat.zero_le _
  up_eq := rfl
  fits := by simp [DbProxySync.opened]
  late := by simp [DbProxySync.opened]
  served := by simp [DbProxySync.opened]
  own := by simp [DbProxySync.opened]
  once := List.nodup_nil
  every := by simp [DbProxySync.opened]
  waits := by simp [DbProxySync.opened]
  pending := fun _ => rfl

theorem step (h : Inv w) {a : Action σ} (hmeets : Meets cass w a)
    (hw : w.step cass debug a = some w') : Inv w' := by
  cases a with
  | send o => exact h.send (hmeets.inStep o rfl) hw
  | serve => exact h.serve cass debug hmeets.servable hw
  | receive => exact h.receive hw
  | elsewhere session clusterDescription =>
    obtain ⟨s, hs⟩ := h.connected
    obtain rfl := Option.some.inj hw
    exact ⟨⟨_, congrArg (Option.map _) hs⟩, h.taken_le, h.up_eq, h.fits, h.late, h.served, h.own,
      h.once, h.every, h.waits, h.pending⟩

theorem synchronised (h : Inv w) : Synchronised cass debug w where
  own := h.own
  once := h.once
  every := h.every
  awaited := by
    intro k hwait
    by_cases hk : k < w.taken
    · obtain ⟨r, hr, hreceive⟩ := h.receive_eq hwait hk
      exact .inr ⟨r, _, hr, hreceive, rfl⟩
    · refine .inl ⟨Nat.not_lt.mp hk, ?_⟩
      obtain ⟨s, hs⟩ := h.connected
      have hlt : w.taken < w.sent.length := by
        have := (h.waits k hwait).1
        omega
      obtain ⟨o, -, hreceived⟩ := h.received hlt
      simp only [World.serve, hs, hreceived]
      split
      · split <;> rfl
      · rfl

end Inv

/-- Along every run whose orders are in step and can be served, each blocking order
gets its own result and no other. -/
theorem synchronised_of_meets {session : σ} {clusterDescription : Bytes}
    {actions : List (Action σ)} {w : World σ κ}
    (hrun : Runs (fun a l b => Meets cass a l ∧ a.step cass debug l = some b)
      (opened session clusterDescription) actions w) : Synchronised cass debug w := by
  have hinv : Inv w := hrun.invariant Inv (.opened session clusterDescription)
    fun a l b ha hb => ha.step cass debug hb.1 hb.2
  exact hinv.synchronised cass debug

end Steps

/-- A store that hands out its queries one after the other. -/
def plainCass : Cass ℕ ℕ where
  isConnected _ := true
  create _ n := (n, n + 1)
  query _ _ _ n := n
  bindByteArray _ _ _ n := n
  setConsistencyLevel _ _ n := n
  setTimestamp _ _ n := n
  setPagingSize _ _ n := n
  start _ n := n
  addToBatch _ n := n
  startLoggedBatch _ n := n
  endBatch _ n := n
  nextRow _ n := (none, n)
  nextRows _ n := ([], n)
  nextPage _ n := (false, n)
  encodeSessionMeta n := ([1], n)

def servableCheck (w : World ℕ ℕ) : Action ℕ → Bool
  | .serve =>
      match w.connection, receiveOrder w.up with
      | some s, some (.ok order, _) =>
          match order.fTypeOfResult with
          | .batchDeclare => true
          | .batchRollback => (at? s.fBatches order.fBatchIndex).isSome
          | .success => order.fBatchIndex = -1
          | _ => false
      | _, _ => false
  | _ => true

variable {a : Action ℕ} {w : World ℕ ℕ}

theorem servable_of_check (h : servableCheck w a = true) :
    Servable plainCass w a := by
  rintro rfl s order rest hs horder
  simp only [servableCheck, hs, horder] at h
  refine ⟨rfl, ?_⟩
  cases htype : order.fTypeOfResult with
  | batchDeclare => trivial
  | batchRollback =>
    rw [htype] at h
    exact .inr h
  | success =>
    rw [htype] at h
    exact .inl (of_decide_eq_true h)
  | _ =>
    rw [htype] at h
    cases h

def inStepCheck (w : World ℕ ℕ) : Action ℕ → Bool
  | .send o => !o.fBlocking ||
      answers o.fTypeOfResult && w.sent.all fun p => p.fBlocking || !answers p.fTypeOfResult
  | _ => true

theorem inStep_of_check (h : inStepCheck w a = true) :
    ∀ o, a = .send o → InStep w o := by
  rintro o rfl hblock
  simpa [inStepCheck, hblock, Quiet] using h

def next (w : World ℕ ℕ) (a : Action ℕ) : World ℕ ℕ := (w.step plainCass false a).getD w

theorem step_next (h : (w.step plainCass false a).isSome = true) :
    w.step plainCass false a = some (next w a) := by
  obtain ⟨w', hw'⟩ := Option.isSome_iff_exists.mp h
  rw [next, hw', Option.getD_some]

/-- The order of `QCassandraTable::startBatch()`. -/
def startBatch : Order := { fCql := Utf.utf16 "START_BATCH".toList, fTypeOfResult := .batchDeclare }

/-- The order of `QCassandraTable::rollbackBatch()`. -/
def rollbackBatch (batchIndex : Int32) : Order :=
  { fCql := Utf.utf16 "ROLLBACK_BATCH".toList, fTypeOfResult := .batchRollback,
    fBatchIndex := batchIndex }

def quietRun : List (Action ℕ) :=
  [.send startBatch, .serve, .receive, .send { rollbackBatch 0 with fBlocking := false },
    .send { fCql := Utf.utf16 "UPDATE".toList }, .serve, .serve]

theorem synchronised_quietRun :
    Synchronised plainCass false (quietRun.foldl next (opened 0 [])) := by
  have hchecked : Runs.checked next (fun w a => (w.step plainCass false a).isSome = true ∧
      servableCheck w a = true ∧ inStepCheck w a = true) (opened 0 []) quietRun = true := by
    decide +kernel
  refine synchronised_of_meets plainCass false ((Runs.of_checked _ _ _ _ hchecked).mono ?_)
  rintro w a w' ⟨⟨hsome, hservable, hstep⟩, rfl⟩
  exact ⟨⟨servable_of_check hservable, inStep_of_check hstep⟩, step_next hsome⟩

/-- A batch that is started and rolled back as `QCassandraTable` does it. -/
def rollbackRun : List (Action ℕ) :=
  [.send startBatch, .serve, .receive, .send (rollbackBatch 0), .serve]

/-- The client waits for a reply to its rollback when every order was served and the
socket is empty. -/
theorem rollback_never_answered :
    ∃ actions w, Runs (fun a l b => Servable plainCass a l ∧ a.step plainCass false l = some b)
      (opened 0 []) actions w ∧ ¬Synchronised plainCass false w := by
  have hchecked : Runs.checked next (fun w a => (w.step plainCass false a).isSome = true ∧
      servableCheck w a = true) (opened 0 []) rollbackRun = true := by
    decide +kernel
  refine ⟨rollbackRun, rollbackRun.foldl next (opened 0 []),
    (Runs.of_checked _ _ _ _ hchecked).mono ?_, ?_⟩
  · rintro w a w' ⟨⟨hsome, hservable⟩, rfl⟩
    exact ⟨servable_of_check hservable, step_next hsome⟩
  · intro h
    rcases h.awaited 1 (by decide) with ⟨htaken, -⟩ | ⟨r, w', -, hreceive, -⟩
    · exact absurd htaken (by decide)
    · have hnone : (rollbackRun.foldl next (opened 0 [])).receive.isSome = false := by
        decide
      rw [hreceive] at hnone
      cases hnone

end SnapCpp.DbProxySync
