import SnapCpp.CassandraOrder
import SnapCpp.CassandraResult

/-!
`snapdbproxy_connection`: the thread of `snapdbproxy` that serves one client. For
each order it receives it runs the handler of the order's type, and each handler
decides for itself whether it sends a reply: none of them looks at `blocking()`,
and `rollback_batch()` sends none. The queries of `casswrapper` are a parameter.
-/
namespace SnapCpp.DbProxyConnection

open CassValue CassandraOrder CassandraResult

/-- `casswrapper::Query::consistency_level_t`. -/
inductive Level
  | levelDefault
  | one
  | quorum
  | localQuorum
  | eachQuorum
  | all
  | any
  | two
  | three
  deriving DecidableEq

abbrev Row := ℕ → Bytes

/-- The calls to `casswrapper`, on handles `κ` of queries and the state `σ` of all
that is behind them. They succeed; a page has finitely many rows. -/
structure Cass (σ κ : Type) where
  isConnected : σ → Bool
  /-- A query in the session of the connection or in one with a timeout of its own. -/
  create : Option Int32 → σ → κ × σ
  query : κ → QString → ℕ → σ → σ
  bindByteArray : κ → ℕ → Bytes → σ → σ
  setConsistencyLevel : κ → Level → σ → σ
  setTimestamp : κ → Int64 → σ → σ
  setPagingSize : κ → Int32 → σ → σ
  start : κ → σ → σ
  addToBatch : κ → σ → σ
  startLoggedBatch : κ → σ → σ
  endBatch : κ → σ → σ
  nextRow : κ → σ → Option Row × σ
  /-- The rows of the calls to `nextRow()` up to the one that returns false. -/
  nextRows : κ → σ → List Row × σ
  nextPage : κ → σ → Bool × σ
  encodeSessionMeta : σ → Bytes × σ

structure Cursor (κ : Type) where
  fQuery : Option κ
  fColumnCount : ℤ

/-- The state of a connection, with what the current handler wrote to the socket
and the results it wrote. -/
structure Connection (σ κ : Type) where
  session : σ
  fCursors : List (Cursor κ) := []
  fBatches : List (Option κ) := []
  clusterDescription : Bytes := []
  output : Bytes := []
  replies : List OrderResult := []

abbrev Handler (σ κ : Type) := StateT (Connection σ κ) (Except String)

/-- `v[index]` for the `int32_t` index of an order. -/
def at? {α : Type} (v : List α) (index : Int32) : Option α :=
  if 0 ≤ index.toInt then v[index.toInt.toNat]? else none

/-- The level of an order in the terms of `casswrapper`. -/
def level (consistencyLevel : Int32) : Level :=
  if consistencyLevel = 1 then .one
  else if consistencyLevel = 2 then .quorum
  else if consistencyLevel = 3 then .localQuorum
  else if consistencyLevel = 4 then .eachQuorum
  else if consistencyLevel = 5 then .all
  else if consistencyLevel = 6 then .any
  else if consistencyLevel = 7 then .two
  else if consistencyLevel = 8 then .three
  else .levelDefault

def cells (columnCount : ℤ) (rows : List Row) : List Bytes :=
  rows.flatMap fun row => (List.range columnCount.toNat).map row

section Handlers

variable {σ κ : Type} (cass : Cass σ κ) (debug : Bool)

/-- `QCassandraProxy::sendResult()` to a client that is still there. -/
def sendResult (result : OrderResult) : Handler σ κ Unit := fun s =>
  match result.encodeResult debug with
  | .error e => .error e
  | .ok bytes =>
      .ok ((), { s with output := s.output ++ bytes, replies := s.replies ++ [result] })

/-- The session after `send_order()`. -/
def sendOrder (q : κ) (order : Order) (session : σ) : σ :=
  let session := cass.query q order.fCql order.fParameter.length session
  let session := order.fParameter.zipIdx.foldl
    (fun session param => cass.bindByteArray q param.2 param.1 session) session
  let session := cass.setConsistencyLevel q (level order.fConsistencyLevel) session
  let session := cass.setTimestamp q order.fTimestamp session
  let session := if 0 < order.fPagingSize.toInt then cass.setPagingSize q order.fPagingSize session
    else session
  if order.fBatchIndex = -1 then cass.start q session else cass.addToBatch q session

def runQuery (order : Order) (session : σ) : κ × List Row × σ :=
  let (q, session) := cass.create none session
  let session := sendOrder cass q order session
  (q, cass.nextRows q session)

def declareCursor (order : Order) : Handler σ κ Unit := fun s =>
  let (q, rows, session) := runQuery cass order s.session
  let columnCount := order.fColumnCount.toInt
  let cursorIndex := bigEndian 4 s.fCursors.length
  let s := { s with session, fCursors := s.fCursors ++ [⟨some q, columnCount⟩] }
  sendResult debug ⟨true, cursorIndex :: cells columnCount rows⟩ s

def declareBatch : Handler σ κ Unit := fun s =>
  let (q, session) := cass.create none s.session
  let session := cass.startLoggedBatch q session
  let s := { s with session, fBatches := s.fBatches ++ [some q] }
  sendResult debug ⟨true, [bigEndian 4 (s.fBatches.length - 1)]⟩ s

def description (s : Connection σ κ) : Bytes × σ :=
  if s.clusterDescription = [] then cass.encodeSessionMeta s.session
  else (s.clusterDescription, s.session)

def describeCluster : Handler σ κ Unit := fun s =>
  let (clusterDescription, session) := description cass s
  sendResult debug ⟨true, [clusterDescription]⟩ { s with session, clusterDescription }

def clearClusterDescription : Handler σ κ Unit := fun s =>
  .ok ((), { s with clusterDescription := [] })

def nextPageRows (q : κ) (session : σ) : List Row × σ :=
  match cass.nextPage q session with
  | (true, session) => cass.nextRows q session
  | (false, session) => ([], session)

def fetchCursor (order : Order) : Handler σ κ Unit := fun s =>
  match at? s.fCursors order.fCursorIndex with
  | none => .error "cursor index is out of bounds, it may already have been closed."
  | some ⟨none, _⟩ => .error "cursor was already closed."
  | some ⟨some q, columnCount⟩ =>
      let (rows, session) := nextPageRows cass q s.session
      sendResult debug ⟨true, cells columnCount rows⟩ { s with session }

def closeCursor (order : Order) : Handler σ κ Unit := do
  let s ← get
  match at? s.fCursors order.fCursorIndex with
  | none => throw "cursor index is out of bounds."
  | some _ =>
      sendResult debug ⟨true, []⟩
      modify fun s =>
        let cursors := s.fCursors.modify order.fCursorIndex.toInt.toNat fun c =>
          { c with fQuery := none }
        { s with fCursors := cursors.rdropWhile fun c => c.fQuery.isNone }

/-- A handler that also says which queries `f_batches[index].f_query` it uses, up to
the point where it throws: `none` stands for an index beyond the vector and
`some none` for a batch that has ended. -/
abbrev Recorded (σ κ : Type) :=
  StateT (Connection σ κ) (ExceptT String (StateM (List (Option (Option κ)))))

namespace Recorded

def handler {α : Type} (x : Recorded σ κ α) : Handler σ κ α := fun s => ((x s).run []).1

def uses {α : Type} (x : Recorded σ κ α) (s : Connection σ κ) : List (Option (Option κ)) :=
  ((x s).run []).2

def ofHandler {α : Type} (x : Handler σ κ α) : Recorded σ κ α := fun s used => (x s, used)

/-- `f_batches[batchIndex].f_query`. -/
def query (batchIndex : Int32) : Recorded σ κ (Option (Option κ)) := fun s used =>
  (.ok (at? s.fBatches batchIndex, s), used ++ [at? s.fBatches batchIndex])

def clearBatch (batchIndex : Int32) : Recorded σ κ Unit := do
  if batchIndex ≠ -1 then
    match ← query batchIndex with
    | none => throw "undefined: access beyond f_batches"
    | some _ => modify fun s =>
        { s with fBatches := s.fBatches.set batchIndex.toInt.toNat none }
  modify fun s => { s with fBatches := s.fBatches.rdropWhile Option.isNone }

def commitBatch (order : Order) : Recorded σ κ Unit := do
  let s ← get
  if order.fBatchIndex.toInt < 0 ∨ s.fBatches.length ≤ order.fBatchIndex.toInt.toNat then
    throw "batch index is out of bounds."
  match ← query order.fBatchIndex with
  | some (some q) =>
      modify fun s => { s with session := cass.endBatch q s.session }
      ofHandler (sendResult debug ⟨true, []⟩)
      clearBatch order.fBatchIndex
  | _ => throw "undefined: null f_query"

def rollbackBatch (order : Order) : Recorded σ κ Unit := clearBatch order.fBatchIndex

def executeCommand (order : Order) : Recorded σ κ Unit := do
  if 0 < order.fTimeoutMs.toInt ∧ order.fBatchIndex ≠ -1 then
    clearBatch order.fBatchIndex
    throw "batch submission timed out!"
  else if order.fBatchIndex = -1 then
    let timeout := if 0 < order.fTimeoutMs.toInt then some order.fTimeoutMs else none
    modify fun s =>
      let (q, session) := cass.create timeout s.session
      { s with session := sendOrder cass q order session }
    ofHandler (sendResult debug ⟨true, []⟩)
  else match ← query order.fBatchIndex with
    | none => throw "undefined: access beyond f_batches"
    | some none => throw "undefined: null f_query"
    | some (some q) =>
        modify fun s => { s with session := sendOrder cass q order s.session }
        ofHandler (sendResult debug ⟨true, []⟩)

end Recorded

/-- `clear_batch()`; an index beyond the vector is an error that C++ does not check. -/
def clearBatch (batchIndex : Int32) : Handler σ κ Unit := (Recorded.clearBatch batchIndex).handler

def commitBatch (order : Order) : Handler σ κ Unit :=
  (Recorded.commitBatch cass debug order).handler

def firstRow (order : Order) (session : σ) : Option Row × σ :=
  let (q, session) := cass.create none session
  cass.nextRow q (sendOrder cass q order session)

def readData (order : Order) : Handler σ κ Unit := fun s =>
  let (row, session) := firstRow cass order s.session
  sendResult debug ⟨true, cells order.fColumnCount.toInt row.toList⟩ { s with session }

def rollbackBatch (order : Order) : Handler σ κ Unit := (Recorded.rollbackBatch order).handler

def executeCommand (order : Order) : Handler σ κ Unit :=
  (Recorded.executeCommand cass debug order).handler

/-- The switch of `run()`: a type without a name has no case. -/
def handle (order : Order) : Handler σ κ Unit :=
  match order.fTypeOfResult with
  | .batchCommit => commitBatch cass debug order
  | .batchDeclare => declareBatch cass debug
  | .batchRollback => rollbackBatch order
  | .close => closeCursor debug order
  | .declare => declareCursor cass debug order
  | .describe => describeCluster cass debug
  | .fetch => fetchCursor cass debug order
  | .rows => readData cass debug order
  | .batchAdd => executeCommand cass debug order
  | .success => executeCommand cass debug order
  | .unnamed _ => pure ()

/-- An order in the loop of `run()`. -/
def serveOrder (order : Order) : Handler σ κ Unit := do
  handle cass debug order
  if order.fClearClusterDescription then clearClusterDescription else pure ()

def answers : TypeOfResult → Bool
  | .batchRollback => false
  | .unnamed _ => false
  | _ => true

def Ready (s : Connection σ κ) (order : Order) : Prop :=
  cass.isConnected s.session = true ∧
    match order.fTypeOfResult with
    | .close => (at? s.fCursors order.fCursorIndex).isSome
    | .fetch => ∃ q columnCount, at? s.fCursors order.fCursorIndex = some ⟨some q, columnCount⟩ ∧
        OrderResult.Fits ⟨true, cells columnCount (nextPageRows cass q s.session).1⟩
    | .declare => OrderResult.Fits ⟨true, bigEndian 4 s.fCursors.length ::
        cells order.fColumnCount.toInt (runQuery cass order s.session).2.1⟩
    | .rows => OrderResult.Fits ⟨true, cells order.fColumnCount.toInt
        (firstRow cass order s.session).1.toList⟩
    | .describe => OrderResult.Fits ⟨true, [(description cass s).1]⟩
    | .batchCommit => ∃ q, at? s.fBatches order.fBatchIndex = some (some q)
    | .batchRollback => order.fBatchIndex = -1 ∨ (at? s.fBatches order.fBatchIndex).isSome
    | .batchAdd => order.fBatchIndex = -1 ∨
        order.fTimeoutMs.toInt ≤ 0 ∧ ∃ q, at? s.fBatches order.fBatchIndex = some (some q)
    | .success => order.fBatchIndex = -1 ∨
        order.fTimeoutMs.toInt ≤ 0 ∧ ∃ q, at? s.fBatches order.fBatchIndex = some (some q)
    | .batchDeclare => True
    | .unnamed _ => True

/-- What a handler wrote, and nothing else. -/
structure Handled (s s' : Connection σ κ) (results : List OrderResult) : Prop where
  output : s'.output = s.output ++ results.flatMap OrderResult.encoded
  replies : s'.replies = s.replies ++ results
  fits : ∀ r ∈ results, r.Fits

variable {s : Connection σ κ} {order : Order} {s' : Connection σ κ} {α β : Type}

theorem sendResult_fits {r : OrderResult} (h : r.Fits) : sendResult debug r s =
    .ok ((), { s with output := s.output ++ r.encoded, replies := s.replies ++ [r] }) := by
  rw [sendResult, OrderResult.encodeResult_ok debug h]

theorem fits_empty : OrderResult.Fits ⟨true, []⟩ := by
  constructor <;> decide

theorem fits_index (n : ℤ) : OrderResult.Fits ⟨true, [bigEndian 4 n]⟩ := by
  constructor
  · exact Nat.le_of_ble_eq_true rfl
  · simp [OrderResult.expectedSize, bufferMaxSize]

theorem handled_one {r : OrderResult} (h : r.Fits)
    (houtput : s'.output = s.output ++ r.encoded) (hreplies : s'.replies = s.replies ++ [r]) :
    Handled s s' [r] := by
  refine ⟨?_, hreplies, ?_⟩
  · rwa [List.flatMap_singleton]
  · intro r' hr'
    rwa [List.mem_singleton.mp hr']

theorem handled_none (houtput : s'.output = s.output)
    (hreplies : s'.replies = s.replies) : Handled s s' [] :=
  ⟨by simpa using houtput, by simpa using hreplies, by simp⟩

theorem Recorded.bind_ok {x : Recorded σ κ α} {f : α → Recorded σ κ β}
    {s : Connection σ κ} {used used' : List (Option (Option κ))} {a : α}
    (h : x s used = (.ok (a, s'), used')) : (x >>= f) s used = f a s' used' := by
  change ExceptT.bindCont (fun p => f p.1 p.2) (x s used).1 (x s used).2 = _
  rw [h]
  rfl

theorem Recorded.bind_error {x : Recorded σ κ α} {f : α → Recorded σ κ β}
    {s : Connection σ κ} {used used' : List (Option (Option κ))} {e : String}
    (h : x s used = (.error e, used')) : (x >>= f) s used = (.error e, used') := by
  change ExceptT.bindCont (fun p => f p.1 p.2) (x s used).1 (x s used).2 = _
  rw [h]
  rfl

theorem Recorded.modify_bind (g : Connection σ κ → Connection σ κ)
    (f : PUnit → Recorded σ κ β) (s : Connection σ κ) (used : List (Option (Option κ))) :
    ((modify g : Recorded σ κ PUnit) >>= f) s used = f ⟨⟩ (g s) used := rfl

theorem Recorded.query_apply {s : Connection σ κ} {batchIndex : Int32} {e : Option (Option κ)}
    (h : at? s.fBatches batchIndex = e) (used : List (Option (Option κ))) :
    Recorded.query batchIndex s used = (.ok (e, s), used ++ [e]) := by
  subst h
  rfl

theorem Recorded.clearBatch_apply (s : Connection σ κ) (batchIndex : Int32)
    (used : List (Option (Option κ))) : Recorded.clearBatch batchIndex s used =
      if batchIndex = -1 then
        (.ok ((), { s with fBatches := s.fBatches.rdropWhile Option.isNone }), used)
      else match at? s.fBatches batchIndex with
        | none => (.error "undefined: access beyond f_batches", used ++ [none])
        | some e => (.ok ((), { s with fBatches :=
            (s.fBatches.set batchIndex.toInt.toNat none).rdropWhile Option.isNone }),
            used ++ [some e]) := by
  by_cases hnone : batchIndex = -1
  · subst hnone
    rfl
  · rw [Recorded.clearBatch, if_neg hnone, if_pos hnone]
    cases hslot : at? s.fBatches batchIndex with
    | none => exact Recorded.bind_ok (Recorded.query_apply hslot used)
    | some e => exact Recorded.bind_ok (Recorded.query_apply hslot used)

theorem clearBatch_apply (s : Connection σ κ) (batchIndex : Int32) :
    clearBatch batchIndex s =
      if batchIndex = -1 then
        .ok ((), { s with fBatches := s.fBatches.rdropWhile Option.isNone })
      else if (at? s.fBatches batchIndex).isSome then
        .ok ((), { s with fBatches :=
          (s.fBatches.set batchIndex.toInt.toNat none).rdropWhile Option.isNone })
      else .error "undefined: access beyond f_batches" := by
  refine (congrArg Prod.fst (Recorded.clearBatch_apply s batchIndex [])).trans ?_
  split_ifs with hnone hsome
  · rfl
  · obtain ⟨e, he⟩ := Option.isSome_iff_exists.mp hsome
    rw [he]
  · rw [Option.not_isSome_iff_eq_none.mp hsome]

theorem at?_eq_none_iff {v : List α} {index : Int32} :
    at? v index = none ↔ index.toInt < 0 ∨ v.length ≤ index.toInt.toNat := by
  rw [at?]
  split_ifs with h
  · rw [List.getElem?_eq_none_iff]
    omega
  · exact iff_of_true rfl (.inl (by omega))

def answered (s : Connection σ κ) : Connection σ κ :=
  { s with
    output := s.output ++ OrderResult.encoded ⟨true, []⟩
    replies := s.replies ++ [⟨true, []⟩] }

theorem Recorded.answer_apply (s : Connection σ κ) (used : List (Option (Option κ))) :
    Recorded.ofHandler (sendResult debug ⟨true, []⟩) s used = (.ok ((), answered s), used) :=
  congrArg (·, used) (sendResult_fits debug fits_empty)

/-- `commit_batch()` checks the index and then uses the batch. -/
theorem Recorded.commitBatch_apply (s : Connection σ κ) (order : Order)
    (used : List (Option (Option κ))) : Recorded.commitBatch cass debug order s used =
      match at? s.fBatches order.fBatchIndex with
      | none => (.error "batch index is out of bounds.", used)
      | some none => (.error "undefined: null f_query", used ++ [some none])
      | some (some q) => Recorded.clearBatch order.fBatchIndex
          (answered { s with session := cass.endBatch q s.session }) (used ++ [some (some q)]) := by
  cases hslot : at? s.fBatches order.fBatchIndex with
  | none =>
    have hout := at?_eq_none_iff.mp hslot
    refine (Recorded.bind_ok (x := get) rfl).trans ?_
    rw [if_pos hout]
    rfl
  | some slot =>
    have hin : ¬_ := fun h => absurd (at?_eq_none_iff.mpr h) (hslot ▸ Option.some_ne_none slot)
    refine (Recorded.bind_ok (x := get) rfl).trans ?_
    rw [if_neg hin]
    refine (Recorded.bind_ok (Recorded.query_apply hslot used)).trans ?_
    cases slot with
    | none => rfl
    | some q =>
      refine (Recorded.modify_bind ..).trans ?_
      exact Recorded.bind_ok (Recorded.answer_apply debug _ _)

/-- `execute_command()` uses the batch of an order that has an index. -/
theorem Recorded.executeCommand_apply (s : Connection σ κ) (order : Order)
    (used : List (Option (Option κ))) : Recorded.executeCommand cass debug order s used =
      if order.fBatchIndex = -1 then
        let timeout := if 0 < order.fTimeoutMs.toInt then some order.fTimeoutMs else none
        let (q, session) := cass.create timeout s.session
        (.ok ((), answered { s with session := sendOrder cass q order session }), used)
      else match at? s.fBatches order.fBatchIndex with
        | none => (.error "undefined: access beyond f_batches", used ++ [none])
        | some e =>
          if 0 < order.fTimeoutMs.toInt then
            (.error "batch submission timed out!", used ++ [some e])
          else match e with
            | none => (.error "undefined: null f_query", used ++ [some none])
            | some q => (.ok ((), answered { s with session := sendOrder cass q order s.session }),
                used ++ [some (some q)]) := by
  by_cases hnone : order.fBatchIndex = -1
  · rw [Recorded.executeCommand, if_neg (fun h => h.2 hnone), if_pos hnone, if_pos hnone]
    exact (Recorded.modify_bind ..).trans (Recorded.answer_apply debug _ _)
  · rw [if_neg hnone]
    by_cases htimeout : 0 < order.fTimeoutMs.toInt
    · rw [Recorded.executeCommand, if_pos ⟨htimeout, hnone⟩]
      have hclear := Recorded.clearBatch_apply s order.fBatchIndex used
      rw [if_neg hnone] at hclear
      cases hslot : at? s.fBatches order.fBatchIndex with
      | none =>
        rw [hslot] at hclear
        exact Recorded.bind_error hclear
      | some e =>
        rw [hslot] at hclear
        refine (Recorded.bind_ok hclear).trans ?_
        dsimp only
        rw [if_pos htimeout]
        rfl
    · rw [Recorded.executeCommand, if_neg (fun h => htimeout h.1), if_neg hnone]
      cases hslot : at? s.fBatches order.fBatchIndex with
      | none => exact Recorded.bind_ok (Recorded.query_apply hslot used)
      | some e =>
        refine (Recorded.bind_ok (Recorded.query_apply hslot used)).trans ?_
        dsimp only
        rw [if_neg htimeout]
        cases e with
        | none => rfl
        | some q => exact (Recorded.modify_bind ..).trans (Recorded.answer_apply debug _ _)

theorem clearBatch_ok (s : Connection σ κ) (batchIndex : Int32)
    (h : batchIndex = -1 ∨ (at? s.fBatches batchIndex).isSome) :
    ∃ s', clearBatch batchIndex s = .ok ((), s') ∧ s'.output = s.output ∧
      s'.replies = s.replies := by
  rw [clearBatch_apply]
  split_ifs with hnone hsome
  · exact ⟨_, rfl, rfl, rfl⟩
  · exact ⟨_, rfl, rfl, rfl⟩
  · exact absurd h (not_or.mpr ⟨hnone, hsome⟩)

/-- What `clear_batch()` does, it does after any record. -/
theorem Recorded.clearBatch_fst (s : Connection σ κ) (batchIndex : Int32)
    (used : List (Option (Option κ))) :
    (Recorded.clearBatch batchIndex s used).1 =
      SnapCpp.DbProxyConnection.clearBatch batchIndex s := by
  refine (congrArg Prod.fst (Recorded.clearBatch_apply s batchIndex used)).trans
    (Eq.trans ?_ (congrArg Prod.fst (Recorded.clearBatch_apply s batchIndex [])).symm)
  split_ifs
  · rfl
  · cases at? s.fBatches batchIndex <;> rfl

theorem commitBatch_apply (s : Connection σ κ) (order : Order) :
    commitBatch cass debug order s = match at? s.fBatches order.fBatchIndex with
      | none => .error "batch index is out of bounds."
      | some none => .error "undefined: null f_query"
      | some (some q) => clearBatch order.fBatchIndex
          (answered { s with session := cass.endBatch q s.session }) := by
  refine (congrArg Prod.fst (Recorded.commitBatch_apply cass debug s order [])).trans ?_
  rcases at? s.fBatches order.fBatchIndex with _ | _ | q
  · rfl
  · rfl
  · exact Recorded.clearBatch_fst _ _ _

theorem commitBatch_ok (h : ∃ q, at? s.fBatches order.fBatchIndex = some (some q)) :
    ∃ s' r, commitBatch cass debug order s = .ok ((), s') ∧ Handled s s' [r] := by
  obtain ⟨q, hq⟩ := h
  obtain ⟨s', hs', houtput, hreplies⟩ := clearBatch_ok
    (answered { s with session := cass.endBatch q s.session }) order.fBatchIndex
    (.inr (by rw [answered, hq]; rfl))
  refine ⟨s', ⟨true, []⟩, ?_, handled_one fits_empty houtput hreplies⟩
  rw [commitBatch_apply, hq]
  exact hs'

theorem closeCursor_ok (h : (at? s.fCursors order.fCursorIndex).isSome) :
    ∃ s' r, closeCursor debug order s = .ok ((), s') ∧ Handled s s' [r] := by
  obtain ⟨c, hc⟩ := Option.isSome_iff_exists.mp h
  refine ⟨{ s with
    fCursors := (s.fCursors.modify order.fCursorIndex.toInt.toNat fun c =>
      { c with fQuery := none }).rdropWhile fun c => c.fQuery.isNone
    output := s.output ++ OrderResult.encoded ⟨true, []⟩
    replies := s.replies ++ [⟨true, []⟩] }, ⟨true, []⟩, ?_, handled_one fits_empty rfl rfl⟩
  simp only [closeCursor, bind, StateT.bind, get, getThe, MonadStateOf.get, StateT.get, pure,
    Except.pure, Except.bind, hc, sendResult_fits debug fits_empty, modify, modifyGet,
    MonadStateOf.modifyGet, StateT.modifyGet]

theorem executeCommand_ok (h : order.fBatchIndex = -1 ∨
    order.fTimeoutMs.toInt ≤ 0 ∧ ∃ q, at? s.fBatches order.fBatchIndex = some (some q)) :
    ∃ s' r, executeCommand cass debug order s = .ok ((), s') ∧ Handled s s' [r] := by
  have hrun := congrArg Prod.fst (Recorded.executeCommand_apply cass debug s order [])
  by_cases hbatch : order.fBatchIndex = -1
  · rw [if_pos hbatch] at hrun
    exact ⟨_, _, hrun, handled_one fits_empty rfl rfl⟩
  · obtain ⟨htimeout, q, hq⟩ := h.resolve_left hbatch
    rw [if_neg hbatch, hq] at hrun
    dsimp only at hrun
    rw [if_neg (by omega)] at hrun
    exact ⟨_, _, hrun, handled_one fits_empty rfl rfl⟩

theorem handle_ready (h : Ready cass s order) : ∃ s' results,
    handle cass debug order s = .ok ((), s') ∧ Handled s s' results ∧
      results.length = if answers order.fTypeOfResult then 1 else 0 := by
  obtain ⟨-, h⟩ := h
  rw [handle]
  cases htype : order.fTypeOfResult with
  | close =>
    rw [htype] at h
    obtain ⟨s', r, hs', hr⟩ := closeCursor_ok debug h
    exact ⟨s', [r], hs', hr, rfl⟩
  | batchAdd =>
    rw [htype] at h
    obtain ⟨s', r, hs', hr⟩ := executeCommand_ok cass debug h
    exact ⟨s', [r], hs', hr, rfl⟩
  | batchCommit =>
    rw [htype] at h
    obtain ⟨s', r, hs', hr⟩ := commitBatch_ok cass debug h
    exact ⟨s', [r], hs', hr, rfl⟩
  | batchDeclare => exact ⟨_, _, sendResult_fits debug (fits_index _),
    handled_one (fits_index _) rfl rfl, rfl⟩
  | batchRollback =>
    rw [htype] at h
    obtain ⟨s', hs', houtput, hreplies⟩ := clearBatch_ok s order.fBatchIndex h
    exact ⟨s', [], hs', handled_none houtput hreplies, rfl⟩
  | declare | describe =>
    rw [htype] at h
    exact ⟨_, _, sendResult_fits debug h, handled_one h rfl rfl, rfl⟩
  | fetch =>
    rw [htype] at h
    obtain ⟨q, columnCount, hq, hfits⟩ := h
    simp only [fetchCursor, hq]
    exact ⟨_, _, sendResult_fits debug hfits, handled_one hfits rfl rfl, rfl⟩
  | rows =>
    rw [htype] at h
    exact ⟨_, _, sendResult_fits debug h, handled_one h rfl rfl, rfl⟩
  | success =>
    rw [htype] at h
    obtain ⟨s', r, hs', hr⟩ := executeCommand_ok cass debug h
    exact ⟨s', [r], hs', hr, rfl⟩
  | unnamed c => exact ⟨s, [], rfl, handled_none rfl rfl, rfl⟩

theorem serveOrder_ready (h : Ready cass s order) : ∃ s' results,
    serveOrder cass debug order s = .ok ((), s') ∧ Handled s s' results ∧
      results.length = if answers order.fTypeOfResult then 1 else 0 := by
  obtain ⟨s', results, hs', hr, hlength⟩ := handle_ready cass debug h
  by_cases hclear : order.fClearClusterDescription = true
  · refine ⟨{ s' with clusterDescription := [] }, results, ?_, ⟨hr.output, hr.replies, hr.fits⟩,
      hlength⟩
    simp only [serveOrder, bind, StateT.bind, hs', Except.bind, hclear, if_true,
      clearClusterDescription]
  · refine ⟨s', results, ?_, hr, hlength⟩
    simp only [serveOrder, bind, StateT.bind, hs', Except.bind, hclear]
    rfl

end Handlers

end SnapCpp.DbProxyConnection
