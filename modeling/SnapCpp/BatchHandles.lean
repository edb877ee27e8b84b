import SnapCpp.DbProxyCursors
import SnapCpp.Ensures
import SnapCpp.SlotVector

/-!
The batch handles of `snapdbproxy_connection`. The handlers of three kinds of order index
the vector of batches with what the client sent, and only `commit_batch()` looks at the
size of the vector before. None of them looks for the holes that batches leave when they
end out of order. From the orders that were served one can tell which handles are safe.
-/
namespace SnapCpp.BatchHandles

open CassValue CassandraOrder CassandraResult DbProxyConnection DbProxyCursors SlotVector

section Spec

variable {σ κ : Type}

def touched (cass : Cass σ κ) (debug : Bool) (s : Connection σ κ) (o : Order) :
    List (Option (Option κ)) :=
  match o.fTypeOfResult with
  | .batchCommit => (Recorded.commitBatch cass debug o).uses s
  | .batchRollback => (Recorded.rollbackBatch o).uses s
  | .batchAdd => (Recorded.executeCommand cass debug o).uses s
  | .success => (Recorded.executeCommand cass debug o).uses s
  | _ => []

/-- The handler throws before it uses a batch, or uses one that is there. -/
def Validated (cass : Cass σ κ) (debug : Bool) (s : Connection σ κ) (o : Order) : Prop :=
  ∀ batch ∈ touched cass debug s o, ∃ q, batch = some (some q)

def Holds (handles : Finset ℕ) (index : Int32) : Prop := ∃ h ∈ handles, (h : ℤ) = index.toInt

def handlesAfter (handles : Finset ℕ) (o : Order) : Finset ℕ :=
  match o.fTypeOfResult with
  | .batchDeclare => insert (nextHandle handles) handles
  | .batchCommit => handles.erase o.fBatchIndex.toInt.toNat
  | .batchRollback =>
    if o.fBatchIndex = -1 then handles else handles.erase o.fBatchIndex.toInt.toNat
  | _ => handles

/-- The order has the index of a batch that was declared and has not ended, or none; a
`COMMIT_BATCH` may also have one after all those. -/
def Allowed (handles : Finset ℕ) (o : Order) : Prop :=
  match o.fTypeOfResult with
  | .batchCommit => Holds handles o.fBatchIndex ∨ o.fBatchIndex.toInt < 0 ∨
      (nextHandle handles : ℤ) ≤ o.fBatchIndex.toInt
  | .batchRollback => o.fBatchIndex = -1 ∨ Holds handles o.fBatchIndex
  | .batchAdd => o.fBatchIndex = -1 ∨ Holds handles o.fBatchIndex
  | .success => o.fBatchIndex = -1 ∨ Holds handles o.fBatchIndex
  | _ => True

structure Tracked (σ κ : Type) where
  connection : Connection σ κ
  handles : Finset ℕ

variable (cass : Cass σ κ) (debug : Bool)

/-- An order is served without an exception, or something happens on other connections. -/
def Step (a : Tracked σ κ) : Event σ → Tracked σ κ → Prop
  | .order o, b => serveOrder cass debug o a.connection = .ok ((), b.connection) ∧
      b.handles = handlesAfter a.handles o
  | .elsewhere session clusterDescription, b =>
      b = { a with connection := { a.connection with session, clusterDescription } }

end Spec

section Handlers

variable {σ κ : Type} {cass : Cass σ κ} {debug : Bool} {s s' : Connection σ κ} {o : Order}

theorem at?_eq_iff {l : List (Option κ)} {index : Int32} {q : κ} :
    at? l index = some (some q) ↔ 0 ≤ index.toInt ∧ l[index.toInt.toNat]? = some (some q) := by
  rw [at?]
  split_ifs with h
  · simp [h]
  · simp [h]

theorem sendResult_batches {r : OrderResult} (h : sendResult debug r s = .ok ((), s')) :
    s'.fBatches = s.fBatches := by
  rw [sendResult] at h
  split at h
  · cases h
  · obtain rfl := (Prod.mk.inj (Except.ok.inj h)).2
    rfl

theorem clearBatch_batches (h : clearBatch o.fBatchIndex s = .ok ((), s')) :
    (o.fBatchIndex = -1 ∧ s'.fBatches = s.fBatches.rdropWhile Option.isNone) ∨
      o.fBatchIndex ≠ -1 ∧ s'.fBatches = release s.fBatches o.fBatchIndex.toInt.toNat := by
  rw [clearBatch_apply] at h
  split_ifs at h with hnone hsome
  · obtain rfl := (Prod.mk.inj (Except.ok.inj h)).2
    exact .inl ⟨hnone, rfl⟩
  · obtain rfl := (Prod.mk.inj (Except.ok.inj h)).2
    exact .inr ⟨hnone, rfl⟩

theorem bind_ok {α β : Type} {x : Handler σ κ α} {f : α → Handler σ κ β} {r : β × Connection σ κ}
    (h : (x >>= f) s = .ok r) : ∃ a t, x s = .ok (a, t) ∧ f a t = .ok r := by
  simp only [bind, StateT.bind] at h
  obtain ⟨p, hx, h⟩ := bind_eq_ok h
  exact ⟨p.1, p.2, hx, h⟩

theorem commitBatch_batches (h : commitBatch cass debug o s = .ok ((), s')) :
    (∃ q, at? s.fBatches o.fBatchIndex = some (some q)) ∧
      s'.fBatches = release s.fBatches o.fBatchIndex.toInt.toNat := by
  rw [commitBatch_apply] at h
  rcases hslot : at? s.fBatches o.fBatchIndex with _ | _ | q
  · rw [hslot] at h
    cases h
  · rw [hslot] at h
    cases h
  · rw [hslot] at h
    refine ⟨⟨q, rfl⟩, ?_⟩
    rcases clearBatch_batches h with ⟨hnone, -⟩ | ⟨-, hclear⟩
    · rw [hnone] at hslot
      cases hslot
    · exact hclear

theorem executeCommand_batches (h : executeCommand cass debug o s = .ok ((), s')) :
    s'.fBatches = s.fBatches := by
  have hrun := congrArg Prod.fst (Recorded.executeCommand_apply cass debug s o [])
  replace h := hrun.symm.trans h
  by_cases hnone : o.fBatchIndex = -1
  · rw [if_pos hnone] at h
    obtain rfl := (Prod.mk.inj (Except.ok.inj h)).2
    rfl
  · rw [if_neg hnone] at h
    cases hslot : at? s.fBatches o.fBatchIndex with
    | none =>
      rw [hslot] at h
      cases h
    | some e =>
      rw [hslot] at h
      dsimp only at h
      split_ifs at h
      cases e with
      | none => cases h
      | some q =>
        obtain rfl := (Prod.mk.inj (Except.ok.inj h)).2
        rfl

/-- `commit_batch()` uses the batch for `endBatch()` and in `clear_batch()`. -/
theorem commitBatch_uses (s : Connection σ κ) (o : Order) :
    (Recorded.commitBatch cass debug o).uses s =
      match at? s.fBatches o.fBatchIndex with
      | none => []
      | some none => [some none]
      | some (some q) => [some (some q), some (some q)] := by
  refine (congrArg Prod.snd (Recorded.commitBatch_apply cass debug s o [])).trans ?_
  rcases hslot : at? s.fBatches o.fBatchIndex with _ | _ | q
  · rfl
  · rfl
  · have hsome : o.fBatchIndex ≠ -1 := by
      intro hnone
      rw [hnone] at hslot
      cases hslot
    dsimp only
    rw [Recorded.clearBatch_apply, if_neg hsome, answered, hslot]
    rfl

theorem rollbackBatch_uses (s : Connection σ κ) (o : Order) :
    (Recorded.rollbackBatch o).uses s =
      if o.fBatchIndex = -1 then [] else [at? s.fBatches o.fBatchIndex] := by
  refine (congrArg Prod.snd (Recorded.clearBatch_apply s o.fBatchIndex [])).trans ?_
  split_ifs
  · rfl
  · cases at? s.fBatches o.fBatchIndex <;> rfl

theorem executeCommand_uses (s : Connection σ κ) (o : Order) :
    (Recorded.executeCommand cass debug o).uses s =
      if o.fBatchIndex = -1 then [] else [at? s.fBatches o.fBatchIndex] := by
  refine (congrArg Prod.snd (Recorded.executeCommand_apply cass debug s o [])).trans ?_
  by_cases hnone : o.fBatchIndex = -1
  · rw [if_pos hnone, if_pos hnone]
  · rw [if_neg hnone, if_neg hnone]
    cases at? s.fBatches o.fBatchIndex with
    | none => rfl
    | some e =>
      dsimp only
      split_ifs
      · rfl
      · cases e <;> rfl

theorem closeCursor_batches (h : closeCursor debug o s = .ok ((), s')) :
    s'.fBatches = s.fBatches := by
  obtain ⟨t, u, hget, h⟩ := bind_ok h
  obtain ⟨rfl, rfl⟩ := Prod.mk.inj (Except.ok.inj hget)
  cases hcursor : at? s.fCursors o.fCursorIndex with
  | none =>
    rw [hcursor] at h
    cases h
  | some cursor =>
    rw [hcursor] at h
    obtain ⟨_, t, hsend, h⟩ := bind_ok h
    obtain rfl := (Prod.mk.inj (Except.ok.inj h)).2
    have hbatches := sendResult_batches hsend
    exact hbatches

theorem fetchCursor_batches (h : fetchCursor cass debug o s = .ok ((), s')) :
    s'.fBatches = s.fBatches := by
  unfold fetchCursor at h
  split at h
  · cases h
  · cases h
  · dsimp only at h
    have hbatches := sendResult_batches h
    exact hbatches

/-- What serving an order does to the vector of batches. -/
theorem handle_batches (h : handle cass debug o s = .ok ((), s')) :
    match o.fTypeOfResult with
    | .batchDeclare => ∃ q, s'.fBatches = s.fBatches ++ [some q]
    | .batchCommit => s'.fBatches = release s.fBatches o.fBatchIndex.toInt.toNat
    | .batchRollback => (o.fBatchIndex = -1 ∧ s'.fBatches = s.fBatches.rdropWhile Option.isNone) ∨
        o.fBatchIndex ≠ -1 ∧ s'.fBatches = release s.fBatches o.fBatchIndex.toInt.toNat
    | _ => s'.fBatches = s.fBatches := by
  rw [handle] at h
  cases htype : o.fTypeOfResult with
  | close =>
    rw [htype] at h
    exact closeCursor_batches h
  | batchAdd =>
    rw [htype] at h
    exact executeCommand_batches h
  | batchCommit =>
    rw [htype] at h
    exact (commitBatch_batches h).2
  | batchDeclare =>
    rw [htype] at h
    exact ⟨_, sendResult_batches h⟩
  | batchRollback =>
    rw [htype] at h
    exact clearBatch_batches h
  | declare =>
    rw [htype] at h
    dsimp only [declareCursor] at h
    have hbatches := sendResult_batches h
    exact hbatches
  | describe =>
    rw [htype] at h
    dsimp only [describeCluster] at h
    have hbatches := sendResult_batches h
    exact hbatches
  | fetch =>
    rw [htype] at h
    exact fetchCursor_batches h
  | rows =>
    rw [htype] at h
    dsimp only [readData] at h
    have hbatches := sendResult_batches h
    exact hbatches
  | success =>
    rw [htype] at h
    exact executeCommand_batches h
  | unnamed c =>
    rw [htype] at h
    obtain rfl := (Prod.mk.inj (Except.ok.inj h)).2
    rfl

theorem serveOrder_batches (h : serveOrder cass debug o s = .ok ((), s')) :
    ∃ t, handle cass debug o s = .ok ((), t) ∧ s'.fBatches = t.fBatches := by
  obtain ⟨_, t, hhandle, h⟩ := bind_ok h
  refine ⟨t, hhandle, ?_⟩
  split_ifs at h
  · obtain rfl := (Prod.mk.inj (Except.ok.inj h)).2
    rfl
  · obtain rfl := (Prod.mk.inj (Except.ok.inj h)).2
    rfl

end Handlers

section Handles

variable {σ κ : Type} {cass : Cass σ κ} {debug : Bool} {a b : Tracked σ κ} {o : Order}
  {index : Int32}

def Inv (a : Tracked σ κ) : Prop := Tracks a.connection.fBatches a.handles

theorem Inv.order (h : Inv a) (hstep : Step cass debug a (.order o) b) : Inv b := by
  obtain ⟨hserve, hhandles⟩ := hstep
  obtain ⟨t, hhandle, hbatches⟩ := serveOrder_batches hserve
  have hcases := handle_batches hhandle
  rw [Inv, hbatches, hhandles, handlesAfter]
  cases htype : o.fTypeOfResult with
  | batchDeclare =>
    rw [htype] at hcases
    obtain ⟨q, hq⟩ := hcases
    rw [hq]
    exact h.push q
  | batchCommit =>
    rw [htype] at hcases
    dsimp only at hcases ⊢
    rw [hcases]
    exact h.release _
  | batchRollback =>
    rw [htype] at hcases
    dsimp only at hcases ⊢
    rcases hcases with ⟨hnone, hq⟩ | ⟨hsome, hq⟩
    · rw [hq, if_pos hnone, h.compact]
      exact h
    · rw [hq, if_neg hsome]
      exact h.release _
  | _ =>
    rw [htype] at hcases
    dsimp only at hcases ⊢
    rw [hcases]
    exact h

theorem Inv.step (h : Inv a) {e : Event σ} (hstep : Step cass debug a e b) : Inv b := by
  cases e with
  | order o => exact h.order hstep
  | elsewhere session clusterDescription =>
    obtain rfl := hstep
    exact h

theorem Inv.holds_iff (h : Inv a) :
    Holds a.handles index ↔ ∃ q, at? a.connection.fBatches index = some (some q) := by
  simp only [at?_eq_iff]
  constructor
  · rintro ⟨i, hi, heq⟩
    obtain ⟨q, hq⟩ := (h.slots i).mp hi
    have hplace : index.toInt.toNat = i := by omega
    exact ⟨q, by omega, hplace ▸ hq⟩
  · rintro ⟨q, hnonneg, hq⟩
    exact ⟨index.toInt.toNat, (h.slots _).mpr ⟨q, hq⟩, by omega⟩

theorem Inv.beyond_iff (h : Inv a) :
    at? a.connection.fBatches index = none ↔
      index.toInt < 0 ∨ (nextHandle a.handles : ℤ) ≤ index.toInt := by
  rw [at?_eq_none_iff, ← h.length_eq]
  omega

theorem Inv.unchecked_iff (h : Inv a) :
    (∀ batch ∈ (if index = -1 then [] else [at? a.connection.fBatches index]), ∃ q,
      batch = some (some q)) ↔ index = -1 ∨ Holds a.handles index := by
  rw [h.holds_iff]
  split_ifs with hnone
  · simp [hnone]
  · simp [hnone]

theorem Inv.validated_iff (h : Inv a) (o : Order) :
    Validated cass debug a.connection o ↔ Allowed a.handles o := by
  rw [Validated, touched, Allowed]
  cases o.fTypeOfResult with
  | batchCommit =>
    dsimp only
    rw [h.holds_iff, ← h.beyond_iff, commitBatch_uses]
    rcases at? a.connection.fBatches o.fBatchIndex with _ | _ | q <;> simp
  | batchRollback =>
    dsimp only
    rw [rollbackBatch_uses]
    exact h.unchecked_iff
  | batchAdd | success =>
    dsimp only
    rw [executeCommand_uses]
    exact h.unchecked_iff
  | _ => simp

/-- In every run, an order is validated exactly when it has the handle of a batch that was
declared and has not ended, none, or for a `COMMIT_BATCH` one after all those. -/
theorem batches_validated_iff (s : Connection σ κ) (hs : s.fBatches = []) (events : List (Event σ))
    (hrun : Runs (Step cass debug) ⟨s, ∅⟩ events a) (o : Order) :
    Validated cass debug a.connection o ↔ Allowed a.handles o := by
  have hinit : Inv (⟨s, ∅⟩ : Tracked σ κ) := by
    rw [Inv, hs]
    exact Tracks.nil
  have hinv : Inv a := hrun.invariant Inv hinit fun _ _ _ ha hab => ha.step hab
  exact hinv.validated_iff o

end Handles

def batchOrder (type : TypeOfResult) (index : Int32) : Order :=
  { fTypeOfResult := type, fBatchIndex := index }

/-- The batch of a client can be committed. -/
theorem batches_validated_one : ∃ a : Tracked (ℕ × Option ℕ) ℕ, a.handles = {0} ∧
    Validated (counting []) false a.connection (batchOrder .batchCommit 0) := by
  obtain ⟨s, results, hs, -, -⟩ := @serveOrder_ready _ _ (counting []) false
    { session := (0, none) } (batchOrder .batchDeclare (-1)) ⟨rfl, trivial⟩
  let a : Tracked (ℕ × Option ℕ) ℕ := ⟨s, {0}⟩
  have hrun : Runs (Step (counting []) false) ⟨{ session := (0, none) }, ∅⟩
      [.order (batchOrder .batchDeclare (-1))] a := (Runs.nil _).snoc ⟨hs, rfl⟩
  refine ⟨a, rfl, (batches_validated_iff { session := (0, none) } rfl _ hrun _).mpr (.inl ?_)⟩
  exact ⟨0, Finset.mem_singleton_self 0, rfl⟩

/-- A batch that was never declared is rolled back. -/
theorem rollback_beyond :
    ¬∀ (s : Connection (ℕ × Option ℕ) ℕ) (events : List (Event (ℕ × Option ℕ)))
    (a : Tracked (ℕ × Option ℕ) ℕ), s.fBatches = [] →
    Runs (Step (counting []) false) ⟨s, ∅⟩ events a →
      ∀ o, Validated (counting []) false a.connection o := by
  intro hall
  have hvalidated :=
    hall { session := (0, none) } [] _ rfl (Runs.nil _) (batchOrder .batchRollback 0)
  obtain ⟨q, hq⟩ := hvalidated none (List.mem_singleton_self none)
  cases hq

end SnapCpp.BatchHandles
