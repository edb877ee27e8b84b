import SnapCpp.DbProxyConnection
import SnapCpp.Runs

/-!
The cursors of a `snapdbproxy_connection`. The reply to `declare_cursor` gives the
client an index of `f_cursors`, which it sends back in 16 bits to fetch the next page
and to close the cursor. A closed cursor stays as a hole until all those behind it
are closed as well, so an index comes back once no cursor uses it.
-/
namespace SnapCpp.DbProxyCursors

open CassValue CassandraOrder CassandraResult DbProxyConnection

/-- A cursor of the client: the index it obtained, and the query and the number of
columns of the `declare_cursor` that returned it. -/
structure Opened (κ : Type) where
  index : Int32
  query : κ
  columnCount : ℤ
  deriving DecidableEq

structure Client (σ κ : Type) where
  connection : Connection σ κ
  opened : List (Opened κ) := []

/-- What happens next: an order of the client, or a change behind other connections. -/
inductive Event (σ : Type)
  | order (o : Order)
  | elsewhere (session : σ) (clusterDescription : Bytes)

/-- `int32Value(result.result(0))`, the index that the client keeps. -/
def obtained (r : OrderResult) : Int32 := Int32.ofInt (number (r.fResult.headD []))

section Steps

variable {σ κ : Type} (cass : Cass σ κ) (debug : Bool)

/-- The orders of a client that only uses indexes it obtained and has not closed. It
has no batch, and `encodeOrder()` accepts what it sends. -/
def Client.Sends (c : Client σ κ) (o : Order) : Prop :=
  ¬o.Oversized ∧ o.fBatchIndex = -1 ∧
    match o.fTypeOfResult with
    | .declare => True
    | .fetch => ∃ x ∈ c.opened, x.index = o.fCursorIndex
    | .close => ∃ x ∈ c.opened, x.index = o.fCursorIndex
    | _ => False

def Client.openedAfter (c : Client σ κ) (o : Order) (r : OrderResult) : List (Opened κ) :=
  match o.fTypeOfResult with
  | .declare => c.opened ++
      [⟨obtained r, (runQuery cass (o.restored true) c.connection.session).1, o.fColumnCount.toInt⟩]
  | .close => c.opened.filter fun x => x.index ≠ o.fCursorIndex
  | _ => c.opened

def Step (a : Client σ κ) : Event σ → Client σ κ → Prop
  | .order o, b => a.Sends o ∧ ∃ r,
      serveOrder cass debug (o.restored true) a.connection = .ok ((), b.connection) ∧
        b.connection.replies = a.connection.replies ++ [r] ∧ b.opened = a.openedAfter cass o r
  | .elsewhere session clusterDescription, b =>
      b = { a with connection := { a.connection with session, clusterDescription } }

def Client.HasRoom (c : Client σ κ) (o : Order) : Prop :=
  o.fTypeOfResult = .declare → c.connection.fCursors.length < 2 ^ 16

def StepWithRoom (a : Client σ κ) (e : Event σ) (b : Client σ κ) : Prop :=
  Step cass debug a e b ∧ ∀ o, e = .order o → a.HasRoom o

def Client.cursor (c : Client σ κ) (o : Order) : Option (Opened κ) :=
  c.opened.find? fun x => x.index = o.fCursorIndex

def Client.replyTo (c : Client σ κ) (o : Order) : OrderResult :=
  match o.fTypeOfResult, c.cursor o with
  | .declare, _ => ⟨true, bigEndian 4 c.connection.fCursors.length ::
      cells o.fColumnCount.toInt (runQuery cass (o.restored true) c.connection.session).2.1⟩
  | .fetch, some x => ⟨true, cells x.columnCount (nextPageRows cass x.query c.connection.session).1⟩
  | _, _ => ⟨true, []⟩

def Client.sessionAfter (c : Client σ κ) (o : Order) : σ :=
  match o.fTypeOfResult, c.cursor o with
  | .declare, _ => (runQuery cass (o.restored true) c.connection.session).2.2
  | .fetch, some x => (nextPageRows cass x.query c.connection.session).2
  | _, _ => c.connection.session

/-- `f_cursors` after an order. -/
def Client.cursorsAfter (c : Client σ κ) (o : Order) : List (Cursor κ) :=
  match o.fTypeOfResult with
  | .declare => c.connection.fCursors ++
      [⟨some (runQuery cass (o.restored true) c.connection.session).1, o.fColumnCount.toInt⟩]
  | .close => (c.connection.fCursors.modify o.fCursorIndex.toInt.toNat fun x =>
      { x with fQuery := none }).rdropWhile fun x => x.fQuery.isNone
  | _ => c.connection.fCursors

structure Unconfused (c : Client σ κ) : Prop where
  /-- The index of a new cursor is not that of an open one. -/
  fresh : ∀ o b, o.fTypeOfResult = .declare → StepWithRoom cass debug c (.order o) b →
    ∃ x, b.opened = c.opened ++ [x] ∧ ∀ y ∈ c.opened, y.index ≠ x.index
  /-- The last element of `f_cursors` is an open cursor of the client. -/
  last : c.connection.fCursors = [] ∨ ∃ x ∈ c.opened,
    c.connection.fCursors.getLast? = some ⟨some x.query, x.columnCount⟩ ∧
      x.index.toInt = c.connection.fCursors.length - 1
  /-- An order throws only when its reply does not fit. -/
  throws : ∀ o, c.Sends o → c.HasRoom o → ¬(c.replyTo cass o).Fits →
    ∃ message, serveOrder cass debug (o.restored true) c.connection = .error message
  /-- Any other order gets its reply, from the query of its own cursor. -/
  serves : ∀ o, c.Sends o → c.HasRoom o → (c.replyTo cass o).Fits →
    ∃ s, serveOrder cass debug (o.restored true) c.connection = .ok ((), s) ∧
      s.replies = c.connection.replies ++ [c.replyTo cass o] ∧ s.session = c.sessionAfter cass o

structure Inv (c : Client σ κ) : Prop where
  slots : ∀ x : Opened κ, x ∈ c.opened ↔ 0 ≤ x.index.toInt ∧
    c.connection.fCursors[x.index.toInt.toNat]? = some ⟨some x.query, x.columnCount⟩
  distinct : (c.opened.map Opened.index).Nodup
  last : ∀ cursor, c.connection.fCursors.getLast? = some cursor → cursor.fQuery.isSome
  room : c.connection.fCursors.length ≤ 2 ^ 16

theorem Opened.ext_slot {x y : Opened κ} (hindex : x.index = y.index)
    (hslot : (⟨some x.query, x.columnCount⟩ : Cursor κ) =
    ⟨some y.query, y.columnCount⟩) : x = y := by
  obtain ⟨i, q, n⟩ := x
  obtain ⟨j, r, m⟩ := y
  simp only [Cursor.mk.injEq, Option.some.injEq] at hslot
  obtain rfl : i = j := hindex
  rw [hslot.1, hslot.2]

theorem getElem?_rdropWhile {α : Type} (p : α → Bool) (l : List α) (k : ℕ) (c : α)
    (hc : p c = false) :
    (l.rdropWhile p)[k]? = some c ↔ l[k]? = some c := by
  induction l using List.reverseRecOn with
  | nil => rw [List.rdropWhile_nil]
  | append_singleton l a ih =>
    by_cases ha : p a = true
    · rw [List.rdropWhile_concat_pos p l a ha, ih]
      have hne : a ≠ c := fun heq => by simp [← heq, ha] at hc
      constructor
      · intro h
        rw [List.getElem?_append_left (List.getElem?_eq_some_iff.mp h).1, h]
      · intro h
        rcases lt_trichotomy k l.length with hk | hk | hk
        · rwa [List.getElem?_append_left hk] at h
        · subst hk
          rw [List.getElem?_concat_length, Option.some_inj] at h
          exact absurd h hne
        · rw [List.getElem?_append_right hk.le, List.getElem?_eq_none (by
            rw [List.length_singleton]
            omega)] at h
          cases h
    · rw [List.rdropWhile_concat_neg p l a ha]

variable {cass debug} {c : Client σ κ} {o : Order} {s : Connection σ κ}

theorem Inv.isIndex (h : Inv c) {x : Opened κ} (hx : x ∈ c.opened) : Order.IsIndex x.index := by
  obtain ⟨hnn, hslot⟩ := (h.slots x).mp hx
  have hlt := (List.getElem?_eq_some_iff.mp hslot).1
  have hroom := h.room
  constructor <;> omega

theorem Inv.at?_eq (h : Inv c) {x : Opened κ} (hx : x ∈ c.opened)
    (hindex : x.index = o.fCursorIndex) :
    at? c.connection.fCursors (o.restored true).fCursorIndex =
      some ⟨some x.query, x.columnCount⟩ := by
  obtain ⟨hnn, hslot⟩ := (h.slots x).mp hx
  have hread : (o.restored true).fCursorIndex = x.index := by
    rw [hindex]
    exact Order.readIndex_eq (hindex ▸ h.isIndex hx)
  rw [hread, at?, if_pos hnn, hslot]

theorem Inv.cursor_eq (h : Inv c) {x : Opened κ} (hx : x ∈ c.opened)
    (hindex : x.index = o.fCursorIndex) :
    c.cursor o = some x := by
  have hsome : (c.cursor o).isSome := List.find?_isSome.mpr ⟨x, hx, decide_eq_true hindex⟩
  obtain ⟨y, hy⟩ := Option.isSome_iff_exists.mp hsome
  have hyindex : y.index = o.fCursorIndex := by simpa using List.find?_some hy
  have hmem := List.mem_of_find?_eq_some hy
  have hsame := hyindex.trans hindex.symm
  have hslot := ((h.slots y).mp hmem).2
  rw [hsame, ((h.slots x).mp hx).2, Option.some_inj] at hslot
  rw [hy, Opened.ext_slot hsame hslot.symm]

def afterwards (o : Order) (s : Connection σ κ) : Connection σ κ :=
  if o.fClearClusterDescription then { s with clusterDescription := [] } else s

theorem serveOrder_ok {s' : Connection σ κ} (h : handle cass debug o s = .ok ((), s')) :
    serveOrder cass debug o s = .ok ((), afterwards o s') := by
  by_cases hclear : o.fClearClusterDescription = true
  · simp only [serveOrder, bind, StateT.bind, h, Except.bind, hclear, if_true,
      clearClusterDescription, afterwards]
  · simp only [serveOrder, bind, StateT.bind, h, Except.bind, hclear, afterwards]
    rfl

theorem serveOrder_error {message : String}
    (h : handle cass debug o s = .error message) : serveOrder cass debug o s = .error message := by
  simp only [serveOrder, bind, StateT.bind, h, Except.bind]

@[simp] theorem afterwards_fCursors (o : Order) (s : Connection σ κ) :
    (afterwards o s).fCursors = s.fCursors := by
  rw [afterwards]
  split_ifs <;> rfl

@[simp] theorem afterwards_replies (o : Order) (s : Connection σ κ) :
    (afterwards o s).replies = s.replies := by
  rw [afterwards]
  split_ifs <;> rfl

@[simp] theorem afterwards_session (o : Order) (s : Connection σ κ) :
    (afterwards o s).session = s.session := by
  rw [afterwards]
  split_ifs <;> rfl

theorem sendResult_error {r : OrderResult} (h : ¬r.Fits) (s : Connection σ κ) :
    ∃ message, sendResult debug r s = .error message := by
  have hlarge : 65535 < r.fResult.length ∨ bufferMaxSize < r.expectedSize := by
    rw [OrderResult.Fits] at h
    omega
  obtain ⟨message, he⟩ := OrderResult.encodeResult_error debug hlarge
  exact ⟨message, by rw [sendResult, he]⟩

variable (cass) in
structure Served (c : Client σ κ) (o : Order) (s : Connection σ κ) : Prop where
  replies : s.replies = c.connection.replies ++ [c.replyTo cass o]
  session : s.session = c.sessionAfter cass o
  cursors : s.fCursors = c.cursorsAfter cass o

def declared (cass : Cass σ κ) (o : Order) (s : Connection σ κ) : OrderResult :=
  ⟨true, bigEndian 4 s.fCursors.length ::
    cells o.fColumnCount.toInt (runQuery cass o s.session).2.1⟩

variable (debug) in
theorem handle_declare (htype : o.fTypeOfResult = .declare)
    (hfits : (declared cass o s).Fits) :
    ∃ s', handle cass debug o s = .ok ((), s') ∧ s'.replies = s.replies ++ [declared cass o s] ∧
      s'.session = (runQuery cass o s.session).2.2 ∧
      s'.fCursors = s.fCursors ++
        [⟨some (runQuery cass o s.session).1, o.fColumnCount.toInt⟩] := by
  rw [handle, htype]
  exact ⟨_, sendResult_fits debug hfits, rfl, rfl, rfl⟩

variable (debug) in
theorem handle_declare_error (htype : o.fTypeOfResult = .declare)
    (hlarge : ¬(declared cass o s).Fits) : ∃ message, handle cass debug o s = .error message := by
  rw [handle, htype]
  exact sendResult_error hlarge _

variable (debug) in
theorem Inv.handle_fits (h : Inv c) (hsend : c.Sends o) (hfits : (c.replyTo cass o).Fits) :
    ∃ s, handle cass debug (o.restored true) c.connection = .ok ((), s) ∧ Served cass c o s := by
  obtain ⟨-, -, hsend⟩ := hsend
  have htype : (o.restored true).fTypeOfResult = o.fTypeOfResult := rfl
  cases hkind : o.fTypeOfResult with
  | declare =>
    have hreply : c.replyTo cass o = declared cass (o.restored true) c.connection := by
      rw [Client.replyTo, hkind]
      rfl
    rw [hreply] at hfits
    obtain ⟨s, hs, hreplies, hsession, hcursors⟩ :=
      handle_declare debug (htype.trans hkind) hfits
    refine ⟨s, hs, ?_, ?_, ?_⟩
    · rw [hreply, hreplies]
    · rw [Client.sessionAfter, hkind, hsession]
    · rw [Client.cursorsAfter, hkind, hcursors]
      rfl
  | fetch =>
    rw [hkind] at hsend
    obtain ⟨x, hx, hindex⟩ := hsend
    have hreply : c.replyTo cass o =
        ⟨true, cells x.columnCount (nextPageRows cass x.query c.connection.session).1⟩ := by
      rw [Client.replyTo, hkind, h.cursor_eq hx hindex]
    rw [handle, htype, hkind]
    rw [hreply] at hfits
    simp only [fetchCursor, h.at?_eq hx hindex]
    refine ⟨_, sendResult_fits debug hfits, ?_, ?_, ?_⟩
    · rw [hreply]
    · rw [Client.sessionAfter, hkind, h.cursor_eq hx hindex]
    · rw [Client.cursorsAfter, hkind]
  | close =>
    rw [hkind] at hsend
    obtain ⟨x, hx, hindex⟩ := hsend
    have hread : (o.restored true).fCursorIndex = o.fCursorIndex :=
      Order.readIndex_eq (hindex ▸ h.isIndex hx)
    have hreply : c.replyTo cass o = ⟨true, []⟩ := by
      rw [Client.replyTo, hkind]
    rw [handle, htype, hkind]
    simp only [closeCursor, bind, StateT.bind, get, getThe, MonadStateOf.get, StateT.get, pure,
      Except.pure, Except.bind, h.at?_eq hx hindex, sendResult_fits debug fits_empty, modify,
      modifyGet, MonadStateOf.modifyGet, StateT.modifyGet]
    refine ⟨_, rfl, ?_, ?_, ?_⟩
    · rw [hreply]
    · rw [Client.sessionAfter, hkind]
    · rw [Client.cursorsAfter, hkind, hread]
  | _ =>
    rw [hkind] at hsend
    exact hsend.elim

variable (debug) in
theorem Inv.handle_too_large (h : Inv c) (hsend : c.Sends o) (hlarge : ¬(c.replyTo cass o).Fits) :
    ∃ message, handle cass debug (o.restored true) c.connection = .error message := by
  obtain ⟨-, -, hsend⟩ := hsend
  have htype : (o.restored true).fTypeOfResult = o.fTypeOfResult := rfl
  cases hkind : o.fTypeOfResult with
  | declare =>
    rw [Client.replyTo, hkind] at hlarge
    exact handle_declare_error debug (htype.trans hkind) hlarge
  | fetch =>
    rw [hkind] at hsend
    obtain ⟨x, hx, hindex⟩ := hsend
    rw [Client.replyTo, hkind, h.cursor_eq hx hindex] at hlarge
    rw [handle, htype, hkind]
    simp only [fetchCursor, h.at?_eq hx hindex]
    exact sendResult_error hlarge _
  | close =>
    rw [Client.replyTo, hkind] at hlarge
    exact absurd fits_empty hlarge
  | _ =>
    rw [hkind] at hsend
    exact hsend.elim

theorem Inv.index_lt (h : Inv c) {x : Opened κ} (hx : x ∈ c.opened) :
    0 ≤ x.index.toInt ∧ x.index.toInt < c.connection.fCursors.length := by
  obtain ⟨hnn, hslot⟩ := (h.slots x).mp hx
  have hlt := (List.getElem?_eq_some_iff.mp hslot).1
  omega

variable {b : Client σ κ} {x : Opened κ}

theorem Inv.declare (h : Inv c) (hroom : c.connection.fCursors.length < 2 ^ 16)
    (hindex : x.index.toInt = c.connection.fCursors.length) (hopened : b.opened = c.opened ++ [x])
    (hcursors : b.connection.fCursors = c.connection.fCursors ++ [⟨some x.query, x.columnCount⟩]) :
    Inv b := by
  refine ⟨fun y => ?_, ?_, ?_, ?_⟩
  · rw [hopened, hcursors, List.mem_append, List.mem_singleton, h.slots]
    constructor
    · rintro (⟨hnn, hslot⟩ | rfl)
      · exact ⟨hnn, by rwa [List.getElem?_append_left (List.getElem?_eq_some_iff.mp hslot).1]⟩
      · refine ⟨by omega, ?_⟩
        rw [hindex, Int.toNat_natCast, List.getElem?_concat_length]
    · rintro ⟨hnn, hslot⟩
      rcases lt_trichotomy y.index.toInt.toNat c.connection.fCursors.length with hlt | heq | hgt
      · rw [List.getElem?_append_left hlt] at hslot
        exact .inl ⟨hnn, hslot⟩
      · rw [heq, List.getElem?_concat_length, Option.some_inj] at hslot
        have hsame : y.index = x.index := Int32.toInt_inj.mp (by omega)
        exact .inr (Opened.ext_slot hsame hslot.symm)
      · rw [List.getElem?_eq_none (by
          rw [List.length_append, List.length_singleton]
          omega)] at hslot
        cases hslot
  · rw [hopened, List.map_append, List.map_singleton]
    refine h.distinct.append (List.nodup_singleton _) ?_
    rw [List.disjoint_singleton]
    intro hmem
    obtain ⟨y, hy, hsame⟩ := List.mem_map.mp hmem
    have hlt := (h.index_lt hy).2
    rw [hsame, hindex] at hlt
    exact lt_irrefl _ hlt
  · intro cursor hcursor
    rw [hcursors, List.getLast?_concat, Option.some_inj] at hcursor
    rw [← hcursor]
    rfl
  · rw [hcursors, List.length_append, List.length_singleton]
    omega

theorem getLast?_rdropWhile {α : Type} (p : α → Bool) (l : List α) (a : α)
    (h : (l.rdropWhile p).getLast? = some a) : p a = false := by
  have hne : l.rdropWhile p ≠ [] := by
    intro hnil
    rw [hnil] at h
    cases h
  have hlast := List.rdropWhile_last_not p l hne
  rw [List.getLast?_eq_some_getLast hne, Option.some_inj] at h
  rw [h] at hlast
  exact Bool.eq_false_iff.mpr hlast

theorem Inv.close (h : Inv c) (hx : x ∈ c.opened)
    (hopened : b.opened = c.opened.filter fun y => y.index ≠ x.index)
    (hcursors : b.connection.fCursors = (c.connection.fCursors.modify x.index.toInt.toNat fun y =>
      { y with fQuery := none }).rdropWhile fun y => y.fQuery.isNone) :
    Inv b := by
  have hxindex := (h.index_lt hx).1
  refine ⟨fun y => ?_, ?_, ?_, ?_⟩
  · rw [hopened, hcursors, List.mem_filter, h.slots, decide_eq_true_eq,
      getElem?_rdropWhile _ _ _ _ rfl, List.getElem?_modify]
    constructor
    · rintro ⟨⟨hnn, hslot⟩, hne⟩
      have hplace : x.index.toInt.toNat ≠ y.index.toInt.toNat := by
        intro heq
        exact hne (Int32.toInt_inj.mp (by omega))
      refine ⟨hnn, ?_⟩
      rw [hslot]
      exact congrArg some (if_neg hplace)
    · rintro ⟨hnn, hslot⟩
      by_cases hplace : x.index.toInt.toNat = y.index.toInt.toNat
      · simp only [hplace, if_true] at hslot
        obtain ⟨z, -, hz⟩ := Option.map_eq_some_iff.mp hslot
        cases hz
      · simp only [hplace, if_false, Option.map_eq_map, Option.map_id'] at hslot
        exact ⟨⟨hnn, hslot⟩, fun heq => hplace (by rw [heq])⟩
  · rw [hopened]
    exact h.distinct.sublist (List.filter_sublist.map _)
  · intro cursor hcursor
    rw [hcursors] at hcursor
    have hopen := getLast?_rdropWhile _ _ _ hcursor
    rwa [← Option.not_isSome, Bool.not_eq_false'] at hopen
  · have hle := (List.rdropWhile_prefix (fun y : Cursor κ => y.fQuery.isNone)
      (c.connection.fCursors.modify x.index.toInt.toNat fun y =>
        { y with fQuery := none })).length_le
    rw [List.length_modify] at hle
    rw [hcursors]
    exact hle.trans h.room

theorem Inv.keep (h : Inv c) (hopened : b.opened = c.opened)
    (hcursors : b.connection.fCursors = c.connection.fCursors) : Inv b := by
  obtain ⟨hslots, hdistinct, hlast, hroom⟩ := h
  rw [← hcursors, ← hopened] at hslots
  rw [← hopened] at hdistinct
  rw [← hcursors] at hlast hroom
  exact ⟨hslots, hdistinct, hlast, hroom⟩

variable (cass) in
theorem obtained_replyTo (hroom : c.HasRoom o) (htype : o.fTypeOfResult = .declare) :
    (obtained (c.replyTo cass o)).toInt = c.connection.fCursors.length := by
  have hlt := hroom htype
  have hnumber := number_bigEndian 4 c.connection.fCursors.length
  have hvalue : (number (bigEndian 4 c.connection.fCursors.length) : ℤ) =
      c.connection.fCursors.length := by omega
  rw [obtained, Client.replyTo, htype, List.headD_cons, hvalue,
    Int32.toInt_ofInt_of_le (by omega) (by omega)]

variable (debug) in
theorem Inv.served (h : Inv c) (hsend : c.Sends o) (hfits : (c.replyTo cass o).Fits) :
    ∃ s, serveOrder cass debug (o.restored true) c.connection = .ok ((), s) ∧
      Served cass c o s := by
  obtain ⟨s, hs, hreplies, hsession, hcursors⟩ := h.handle_fits debug hsend hfits
  refine ⟨_, serveOrder_ok hs, ?_, ?_, ?_⟩
  · rw [afterwards_replies, hreplies]
  · rw [afterwards_session, hsession]
  · rw [afterwards_fCursors, hcursors]

theorem Inv.step_order (h : Inv c) (hstep : Step cass debug c (.order o) b) :
    c.Sends o ∧ Served cass c o b.connection ∧
      b.opened = c.openedAfter cass o (c.replyTo cass o) := by
  obtain ⟨hsend, r, hserve, hreplies, hopened⟩ := hstep
  have hfits : (c.replyTo cass o).Fits := by
    by_contra hlarge
    obtain ⟨message, he⟩ := h.handle_too_large debug hsend hlarge
    rw [serveOrder_error he] at hserve
    cases hserve
  obtain ⟨s, hs, hserved⟩ := h.served debug hsend hfits
  rw [hs] at hserve
  obtain rfl : s = b.connection := congrArg Prod.snd (Except.ok.inj hserve)
  refine ⟨hsend, hserved, ?_⟩
  have hr := List.append_cancel_left (hreplies.symm.trans hserved.replies)
  rw [hopened, (List.cons.inj hr).1]

theorem Inv.step (h : Inv c) {e : Event σ} (hstep : StepWithRoom cass debug c e b) : Inv b := by
  obtain ⟨hstep, hroom⟩ := hstep
  cases e with
  | elsewhere session clusterDescription =>
    obtain rfl := hstep
    exact h.keep rfl rfl
  | order o =>
    obtain ⟨⟨-, -, hsend⟩, hserved, hopened⟩ := h.step_order hstep
    have hcursors := hserved.cursors
    cases hkind : o.fTypeOfResult with
    | declare =>
      rw [Client.cursorsAfter, hkind] at hcursors
      rw [Client.openedAfter, hkind] at hopened
      exact h.declare (hroom o rfl hkind) (obtained_replyTo cass (hroom o rfl) hkind)
        hopened hcursors
    | fetch =>
      rw [Client.cursorsAfter, hkind] at hcursors
      rw [Client.openedAfter, hkind] at hopened
      exact h.keep hopened hcursors
    | close =>
      rw [hkind] at hsend
      obtain ⟨x, hx, hindex⟩ := hsend
      rw [Client.cursorsAfter, hkind, ← hindex] at hcursors
      rw [Client.openedAfter, hkind, ← hindex] at hopened
      exact h.close hx hopened hcursors
    | _ =>
      rw [hkind] at hsend
      exact hsend.elim

theorem inv_init (h : s.fCursors = []) : Inv (⟨s, []⟩ : Client σ κ) := by
  refine ⟨fun x => ?_, List.nodup_nil, fun cursor hcursor => ?_, ?_⟩
  · simp [h]
  · rw [h] at hcursor
    cases hcursor
  · rw [h]
    exact Nat.zero_le _

theorem Inv.last_opened (h : Inv c) : c.connection.fCursors = [] ∨ ∃ x ∈ c.opened,
    c.connection.fCursors.getLast? = some ⟨some x.query, x.columnCount⟩ ∧
      x.index.toInt = c.connection.fCursors.length - 1 := by
  by_cases hne : c.connection.fCursors = []
  · exact .inl hne
  · obtain ⟨⟨query, columnCount⟩, hcursor⟩ :=
      Option.ne_none_iff_exists'.mp (mt List.getLast?_eq_none_iff.mp hne)
    obtain ⟨q, rfl⟩ := Option.isSome_iff_exists.mp (h.last _ hcursor)
    have hpos := List.length_pos_iff.mpr hne
    have hroom := h.room
    have hindex : (Int32.ofInt (c.connection.fCursors.length - 1)).toInt =
        c.connection.fCursors.length - 1 := Int32.toInt_ofInt_of_le (by omega) (by omega)
    refine .inr ⟨⟨Int32.ofInt (c.connection.fCursors.length - 1), q, columnCount⟩, ?_,
      hcursor, hindex⟩
    rw [h.slots, hindex]
    refine ⟨by omega, ?_⟩
    rw [← hcursor, List.getLast?_eq_getElem?]
    congr 1
    omega

theorem Inv.unconfused (h : Inv c) : Unconfused cass debug c := by
  refine ⟨fun o b htype hstep => ?_, h.last_opened, fun o hsend _ hlarge => ?_,
    fun o hsend _ hfits => ?_⟩
  · obtain ⟨-, -, hopened⟩ := h.step_order hstep.1
    have hindex := obtained_replyTo cass (hstep.2 o rfl) htype
    rw [Client.openedAfter, htype] at hopened
    refine ⟨_, hopened, fun y hy hsame => ?_⟩
    have hlt := (h.index_lt hy).2
    rw [hsame, hindex] at hlt
    exact lt_irrefl _ hlt
  · obtain ⟨message, he⟩ := h.handle_too_large debug hsend hlarge
    exact ⟨message, serveOrder_error he⟩
  · obtain ⟨s, hs, hserved⟩ := h.served debug hsend hfits
    exact ⟨s, hs, hserved.replies, hserved.session⟩

/-- Whatever cursors a client opens, reads and closes, while there are places for their
indexes, the connection never gives out the index of an open cursor, keeps none that
is closed at the end, serves every order whose reply fits and takes each page from
the query of its cursor. -/
theorem cursors_unconfused (s : Connection σ κ) (h : s.fCursors = []) (events : List (Event σ))
    (hrun : Runs (StepWithRoom cass debug) ⟨s, []⟩ events c) : Unconfused cass debug c :=
  (hrun.invariant Inv (inv_init h) fun _ _ _ ha hab => ha.step hab).unconfused

end Steps

def counting (rows : List Row) : Cass (ℕ × Option ℕ) ℕ where
  isConnected _ := true
  create _ s := (s.1, (s.1 + 1, s.2))
  query _ _ _ s := s
  bindByteArray _ _ _ s := s
  setConsistencyLevel _ _ s := s
  setTimestamp _ _ s := s
  setPagingSize _ _ s := s
  start _ s := s
  addToBatch _ s := s
  startLoggedBatch _ s := s
  endBatch _ s := s
  nextRow _ s := (none, s)
  nextRows _ s := (rows, s)
  nextPage q s := (true, (s.1, some q))
  encodeSessionMeta s := ([], s)

def cursorOrder (type : TypeOfResult) (index : Int32) : Order :=
  { fTypeOfResult := type, fCursorIndex := index }

theorem declare_allowed (c : Client (ℕ × Option ℕ) ℕ) : c.Sends (cursorOrder .declare (-1)) := by
  refine ⟨?_, rfl, trivial⟩
  rw [Order.Oversized]
  decide

theorem sendOrder_counting (rows : List Row) (q : ℕ) (o : Order) (s : ℕ × Option ℕ) :
    sendOrder (counting rows) q o s = s := by
  simp only [sendOrder, counting, List.foldl_fixed, ite_self]

theorem runQuery_counting (rows : List Row) (o : Order) (s : ℕ × Option ℕ) :
    runQuery (counting rows) o s = (s.1, rows, (s.1 + 1, s.2)) := by
  rw [runQuery]
  exact congrArg (fun session => (s.1, (counting rows).nextRows s.1 session))
    (sendOrder_counting rows s.1 o (s.1 + 1, s.2))

structure Crowd (n : ℕ) (c : Client (ℕ × Option ℕ) ℕ) : Prop where
  session : c.connection.session = (n, none)
  cursors : c.connection.fCursors = (List.range n).map fun i => ⟨some i, 1⟩
  opened : c.opened = (List.range n).map fun i : ℕ => ⟨obtained ⟨true, [bigEndian 4 i]⟩, i, 1⟩

theorem Crowd.declare {n : ℕ} {c : Client (ℕ × Option ℕ) ℕ} (h : Crowd n c) :
    ∃ b, Step (counting []) false c (.order (cursorOrder .declare (-1))) b ∧ Crowd (n + 1) b := by
  have hlength : c.connection.fCursors.length = n := by
    rw [h.cursors, List.length_map, List.length_range]
  have hquery :=
    runQuery_counting [] ((cursorOrder .declare (-1)).restored true) c.connection.session
  rw [h.session] at hquery
  have hdeclared : declared (counting []) ((cursorOrder .declare (-1)).restored true) c.connection =
      ⟨true, [bigEndian 4 n]⟩ := by
    rw [declared, h.session, hquery, hlength]
    rfl
  obtain ⟨s, hs, hreplies, hsession, hcursors⟩ := handle_declare false
    (o := (cursorOrder .declare (-1)).restored true) rfl (hdeclared ▸ fits_index n)
  rw [hdeclared] at hreplies
  rw [h.session, hquery] at hsession hcursors
  refine ⟨⟨afterwards ((cursorOrder .declare (-1)).restored true) s,
    c.opened ++ [⟨obtained ⟨true, [bigEndian 4 n]⟩, n, 1⟩]⟩, ?_, ?_, ?_, ?_⟩
  · refine ⟨declare_allowed c, ⟨true, [bigEndian 4 n]⟩, serveOrder_ok hs, ?_, ?_⟩
    · rw [afterwards_replies, hreplies]
    · rw [Client.openedAfter, h.session, hquery]
      rfl
  · rw [afterwards_session, hsession]
  · rw [afterwards_fCursors, hcursors, h.cursors, List.range_succ, List.map_append]
    rfl
  · rw [h.opened, List.range_succ, List.map_append]
    rfl

theorem crowd_zero : Crowd 0 ⟨{ session := (0, none) }, []⟩ := ⟨rfl, rfl, rfl⟩

theorem crowd (n : ℕ) : ∃ c, Runs (Step (counting []) false) ⟨{ session := (0, none) }, []⟩
    (List.replicate n (.order (cursorOrder .declare (-1)))) c ∧ Crowd n c := by
  induction n with
  | zero => exact ⟨_, Runs.nil _, crowd_zero⟩
  | succ n ih =>
    obtain ⟨c, hrun, hc⟩ := ih
    obtain ⟨b, hstep, hb⟩ := hc.declare
    rw [List.replicate_succ']
    exact ⟨b, hrun.snoc hstep, hb⟩

/-- The connection of a client that opened one cursor. -/
theorem cursors_unconfused_one : ∃ c, c.opened ≠ [] ∧ Unconfused (counting []) false c := by
  obtain ⟨c, hstep, hc⟩ := crowd_zero.declare
  refine ⟨c, ?_, cursors_unconfused { session := (0, none) } rfl
    [.order (cursorOrder .declare (-1))] ((Runs.nil _).snoc ⟨hstep, fun _ _ _ => by decide⟩)⟩
  rw [hc.opened]
  exact List.cons_ne_nil _ _

theorem length_cells_one (n : ℕ) : (cells 1 (List.replicate n fun _ => [])).length = n := by
  rw [cells, List.length_flatMap, List.map_replicate, List.sum_replicate]
  exact mul_one n

theorem declared_too_large {n : ℕ} (hn : 65535 ≤ n) :
    ¬(declared (counting (List.replicate n fun _ => []))
      ((cursorOrder .declare (-1)).restored true) { session := (0, none) }).Fits := by
  have hquery := runQuery_counting (List.replicate n fun _ => [])
    ((cursorOrder .declare (-1)).restored true) (0, none)
  rintro ⟨hcount, -⟩
  rw [declared, hquery] at hcount
  have hlength : (cells ((cursorOrder .declare (-1)).restored true).fColumnCount.toInt
      (List.replicate n fun _ => [])).length = n := length_cells_one n
  rw [List.length_cons, hlength] at hcount
  omega

/-- A reply with more than 65535 values throws. With 65537 open cursors, the index of
the last one arrives as 0 and its client reads from the query of the first. -/
theorem handles_confused :
    (∃ message, serveOrder (counting (List.replicate 65535 fun _ => [])) false
      ((cursorOrder .declare (-1)).restored true) { session := (0, none) } = .error message) ∧
    ∃ (events : List (Event (ℕ × Option ℕ))) (c b : Client (ℕ × Option ℕ) ℕ) (x : Opened ℕ),
      Runs (Step (counting []) false) ⟨{ session := (0, none) }, []⟩ events c ∧ x ∈ c.opened ∧
      Step (counting []) false c (.order (cursorOrder .fetch x.index)) b ∧
      x.query = 65536 ∧ b.connection.session.2 = some 0 := by
  constructor
  · have hlarge := declared_too_large (le_refl 65535)
    obtain ⟨message, he⟩ := handle_declare_error false
      (o := (cursorOrder .declare (-1)).restored true) rfl hlarge
    exact ⟨message, serveOrder_error he⟩
  · obtain ⟨c, hrun, -, hcursors, hopened⟩ := crowd 65537
    have hslot : at? c.connection.fCursors ((cursorOrder .fetch 65536).restored true).fCursorIndex =
        some ⟨some 0, 1⟩ := by
      have hindex : ((cursorOrder .fetch 65536).restored true).fCursorIndex = 0 := by decide
      rw [hindex, at?, if_pos (by decide), hcursors, List.getElem?_map]
      exact congrArg (Option.map _) (List.getElem?_range (by decide))
    have hmem : (⟨65536, 65536, 1⟩ : Opened ℕ) ∈ c.opened := by
      rw [hopened]
      exact List.mem_map.mpr ⟨65536, List.mem_range.mpr (by omega), by rfl⟩
    have hhandle : handle (counting []) false ((cursorOrder .fetch 65536).restored true)
        c.connection = .ok ((), { c.connection with
          session := (c.connection.session.1, some 0)
          output := c.connection.output ++ OrderResult.encoded ⟨true, []⟩
          replies := c.connection.replies ++ [⟨true, []⟩] }) := by
      have htype : ((cursorOrder .fetch 65536).restored true).fTypeOfResult = .fetch := rfl
      rw [handle, htype]
      simp only [fetchCursor, hslot]
      exact sendResult_fits false fits_empty
    refine ⟨_, c, ⟨afterwards ((cursorOrder .fetch 65536).restored true) _, c.opened⟩,
      ⟨65536, 65536, 1⟩, hrun, hmem, ⟨?_, ⟨true, []⟩, serveOrder_ok hhandle, ?_, rfl⟩, rfl, ?_⟩
    · refine ⟨?_, rfl, _, hmem, rfl⟩
      rw [Order.Oversized]
      decide
    · rw [afterwards_replies]
    · rw [afterwards_session]

end SnapCpp.DbProxyCursors
