import SnapCpp.CassandraTable

/-!
What reading rows leaves in a table. Each result makes a row of its own, with one cell,
in the place of the row that had its key, so that a row keeps the last of its cells only.
-/
namespace SnapCpp.TableRows

open CassValue CassandraOrder CassandraResult CassandraTable

section Rows

structure Triple where
  rowKey : Bytes
  columnKey : Bytes
  value : Bytes
  deriving DecidableEq

def results (l : List Triple) : List Bytes := l.flatMap fun t => [t.rowKey, t.columnKey, t.value]

def IsKey (key : Bytes) : Prop := 0 < key.length ∧ key.length ≤ 65535

instance (key : Bytes) : Decidable (IsKey key) := inferInstanceAs (Decidable (_ ∧ _))

def Triple.Valid (t : Triple) : Prop := IsKey t.rowKey ∧ IsKey t.columnKey

instance (t : Triple) : Decidable t.Valid := inferInstanceAs (Decidable (_ ∧ _))

def single (rowKey columnKey value : Bytes) : Row :=
  { fKey := rowKey, fCells := OrderedMap.empty.insert columnKey value }

def stored : List Bytes → OrderedMap Bytes Row → OrderedMap Bytes Row
  | rowKey :: columnKey :: data :: results, rows =>
      if IsKey rowKey ∧ IsKey columnKey then
        stored results (rows.insert rowKey (single rowKey columnKey data))
      else rows
  | _, rows => rows

structure HoldsExactly (rows : OrderedMap Bytes Row) (triples : List Triple) : Prop where
  cells : ∀ t ∈ triples, ∃ row, rows.find? t.rowKey = some row ∧ row.fKey = t.rowKey ∧
    row.fCells.find? t.columnKey = some t.value
  only : ∀ key row, rows.find? key = some row → row.fKey = key ∧ row.fCells ≠ .empty ∧
    ∀ column value, row.fCells.find? column = some value → ⟨key, column, value⟩ ∈ triples

variable {rows : OrderedMap Bytes Row} {triples : List Triple}

theorem single_find? (rowKey columnKey value column : Bytes) :
    (single rowKey columnKey value).fCells.find? column =
      if column = columnKey then some value else none := by
  rw [single, OrderedMap.find?_insert, OrderedMap.find?_empty]
  split_ifs <;> rfl

theorem single_ne_empty (rowKey columnKey value : Bytes) :
    (single rowKey columnKey value).fCells ≠ .empty := by
  intro h
  have hfind := single_find? rowKey columnKey value columnKey
  rw [h, if_pos rfl] at hfind
  cases hfind

def OneCell (rows : OrderedMap Bytes Row) : Prop := ∀ key row, rows.find? key = some row →
  IsKey key ∧ ∃ column value, IsKey column ∧ row = single key column value

theorem oneCell_empty : OneCell .empty := by
  intro key row h
  cases h

theorem OneCell.insert (h : OneCell rows) {rowKey columnKey : Bytes} (hrow : IsKey rowKey)
    (hcolumn : IsKey columnKey) (value : Bytes) :
    OneCell (rows.insert rowKey (single rowKey columnKey value)) := by
  intro key row hfind
  rw [OrderedMap.find?_insert] at hfind
  split_ifs at hfind with hkey
  · obtain rfl := Option.some.inj hfind
    rw [hkey]
    exact ⟨hrow, columnKey, value, hcolumn, rfl⟩
  · exact h key row hfind

theorem oneCell_stored (h : OneCell rows) (l : List Bytes) : OneCell (stored l rows) := by
  induction l, rows using stored.induct with
  | case1 rowKey columnKey data results rows hkeys ih =>
    rw [stored, if_pos hkeys]
    exact ih (h.insert hkeys.1 hkeys.2 data)
  | case2 rowKey columnKey data results rows hkeys =>
    rwa [stored, if_neg hkeys]
  | case3 l rows hshort =>
    rw [stored]
    · exact h
    · exact hshort

theorem stored_cons {t : Triple} (h : t.Valid) (triples : List Triple)
    (rows : OrderedMap Bytes Row) : stored (results (t :: triples)) rows =
      stored (results triples) (rows.insert t.rowKey (single t.rowKey t.columnKey t.value)) := by
  show stored (t.rowKey :: t.columnKey :: t.value :: results triples) rows = _
  obtain ⟨hrow, hcolumn⟩ := h
  rw [stored, if_pos ⟨hrow, hcolumn⟩]

theorem stored_find? (hvalid : ∀ t ∈ triples, t.Valid)
    (hnodup : (triples.map Triple.rowKey).Nodup) (rows : OrderedMap Bytes Row) (key : Bytes) :
    (stored (results triples) rows).find? key =
      match triples.find? fun t => t.rowKey = key with
      | some t => some (single t.rowKey t.columnKey t.value)
      | none => rows.find? key := by
  induction triples generalizing rows with
  | nil => rfl
  | cons t triples ih =>
    obtain ⟨ht, hvalid⟩ := List.forall_mem_cons.mp hvalid
    rw [List.map_cons, List.nodup_cons] at hnodup
    rw [stored_cons ht, ih hvalid hnodup.2, List.find?_cons]
    by_cases hkey : t.rowKey = key
    · have hnone : triples.find? (fun t => t.rowKey = key) = none := by
        rw [List.find?_eq_none]
        intro t' ht'
        have hne : t'.rowKey ≠ key := fun heq =>
          hnodup.1 (List.mem_map.mpr ⟨t', ht', heq.trans hkey.symm⟩)
        simpa using hne
      rw [hnone]
      simp [hkey]
    · simp [hkey, Ne.symm hkey]

theorem holdsExactly_of_nodup (hvalid : ∀ t ∈ triples, t.Valid)
    (hnodup : (triples.map Triple.rowKey).Nodup) :
    HoldsExactly (stored (results triples) .empty) triples := by
  constructor
  · intro t ht
    have hfirst : triples.find? (fun t' => t'.rowKey = t.rowKey) = some t := by
      obtain ⟨t', hfind⟩ : ∃ t', triples.find? (fun t' => t'.rowKey = t.rowKey) = some t' := by
        rw [← Option.isSome_iff_exists, List.find?_isSome]
        exact ⟨t, ht, by simp⟩
      have hkey : t'.rowKey = t.rowKey := by simpa using List.find?_some hfind
      rw [hfind, List.inj_on_of_nodup_map hnodup (List.mem_of_find?_eq_some hfind) ht hkey]
    refine ⟨single t.rowKey t.columnKey t.value, ?_, rfl, ?_⟩
    · rw [stored_find? hvalid hnodup, hfirst]
    · rw [single_find?, if_pos rfl]
  · intro key row hrow
    rw [stored_find? hvalid hnodup] at hrow
    cases hfind : triples.find? (fun t => t.rowKey = key) with
    | none =>
      rw [hfind] at hrow
      cases hrow
    | some t =>
      rw [hfind] at hrow
      obtain rfl := Option.some.inj hrow
      have hkey : t.rowKey = key := by simpa using List.find?_some hfind
      refine ⟨hkey, single_ne_empty _ _ _, ?_⟩
      intro column value hcell
      rw [single_find?] at hcell
      split_ifs at hcell with hcolumn
      obtain rfl := Option.some.inj hcell
      rw [← hkey, hcolumn]
      exact List.mem_of_find?_eq_some hfind

theorem eq_of_oneCell (h : OneCell rows) (hholds : HoldsExactly rows triples) {t t' : Triple}
    (ht : t ∈ triples) (ht' : t' ∈ triples) (hkey : t.rowKey = t'.rowKey) :
    t.columnKey = t'.columnKey := by
  obtain ⟨row, hrow, -, hcell⟩ := hholds.cells t ht
  obtain ⟨row', hrow', -, hcell'⟩ := hholds.cells t' ht'
  rw [← hkey, hrow] at hrow'
  obtain rfl := Option.some.inj hrow'
  obtain ⟨-, column, value, -, rfl⟩ := h _ _ hrow
  rw [single_find?] at hcell hcell'
  split_ifs at hcell with heq
  split_ifs at hcell' with heq'
  exact heq.trans heq'.symm

theorem valid_of_oneCell (h : OneCell rows) (hholds : HoldsExactly rows triples) :
    ∀ t ∈ triples, t.Valid := by
  intro t ht
  obtain ⟨row, hrow, -, hcell⟩ := hholds.cells t ht
  obtain ⟨hkey, column, value, hcolumn, rfl⟩ := h _ _ hrow
  rw [single_find?] at hcell
  split_ifs at hcell with heq
  rw [← heq] at hcolumn
  exact ⟨hkey, hcolumn⟩

theorem nodup_of_oneCell (h : OneCell rows) (hholds : HoldsExactly rows triples)
    (hpairs : (triples.map fun t => (t.rowKey, t.columnKey)).Nodup) :
    (triples.map Triple.rowKey).Nodup := by
  refine List.Nodup.map_on ?_ (List.Nodup.of_map _ hpairs)
  intro t ht t' ht' hkey
  have hcolumn := eq_of_oneCell h hholds ht ht' hkey
  exact List.inj_on_of_nodup_map hpairs ht ht' (Prod.ext hkey hcolumn)

/-- Nothing is lost exactly when no row has two cells. -/
theorem stored_holds_iff (hpairs : (triples.map fun t => (t.rowKey, t.columnKey)).Nodup) :
    HoldsExactly (stored (results triples) .empty) triples ↔
      (triples.map Triple.rowKey).Nodup ∧ ∀ t ∈ triples, t.Valid := by
  constructor
  · intro hholds
    have hone := oneCell_stored oneCell_empty (results triples)
    exact ⟨nodup_of_oneCell hone hholds hpairs, valid_of_oneCell hone hholds⟩
  · rintro ⟨hnodup, hvalid⟩
    exact holdsExactly_of_nodup hvalid hnodup

end Rows

section Reading

variable {α : Type} {debug : Bool} {proxy : Proxy} {p : RowPredicate} {t : Table}

def left (r : EStateM.Result Failure Table α) : Table :=
  match r with
  | .ok _ t => t
  | .error _ t => t

def Leaves (r : EStateM.Result Failure Table α) (t : Table) : Prop :=
  (∃ a, r = .ok a t) ∨ ∃ e, r = .error (.thrown e) t

theorem Leaves.left_eq {r : EStateM.Result Failure Table α} (h : Leaves r t) : left r = t := by
  rcases h with ⟨a, rfl⟩ | ⟨e, rfl⟩ <;> rfl

theorem addRow_valid {rowKey columnKey : Bytes} (hrow : IsKey rowKey) (hcolumn : IsKey columnKey)
    (data : Bytes) (t : Table) : addRow rowKey columnKey data t =
      .ok () { t with fRows := t.fRows.insert rowKey (single rowKey columnKey data) } := by
  obtain ⟨hpos, hle⟩ := hrow
  obtain ⟨hpos', hle'⟩ := hcolumn
  have hnew : Row.new rowKey = .ok { fKey := rowKey } := by
    rw [Row.new, if_neg (by omega), if_neg (by omega)]
  have hcell : Row.cell { fKey := rowKey } columnKey =
      .ok { fKey := rowKey, fCells := OrderedMap.empty.insert columnKey [] } := by
    rw [Row.cell, if_neg (by simp [OrderedMap.Has]), if_neg (by omega), if_neg (by omega)]
  have hassign : Row.assignValue
      { fKey := rowKey, fCells := OrderedMap.empty.insert columnKey [] } columnKey data =
      single rowKey columnKey data := by
    have hcells : (OrderedMap.empty.insert columnKey []).insert columnKey data =
        OrderedMap.empty.insert columnKey data := by
      refine OrderedMap.ext_find? _ _ fun k => ?_
      simp only [OrderedMap.find?_insert]
      split_ifs <;> rfl
    rw [Row.assignValue, single, hcells]
  show (do
    let newRow ← liftException (Row.new rowKey)
    let newRow ← liftException (newRow.cell columnKey)
    modify fun t => { t with fRows := t.fRows.insert rowKey (newRow.assignValue columnKey data) } :
      Method Unit) t = _
  rw [hnew, liftException, pure_bind, hcell, liftException, pure_bind, hassign]
  rfl

theorem addRow_invalid {rowKey columnKey : Bytes} (h : ¬(IsKey rowKey ∧ IsKey columnKey))
    (data : Bytes) (t : Table) : ∃ e, addRow rowKey columnKey data t = .error (.thrown e) t := by
  unfold addRow Row.new
  split_ifs with hpos hle
  · exact ⟨_, rfl⟩
  · exact ⟨_, rfl⟩
  rw [liftException, pure_bind, Row.cell, if_neg (by simp [OrderedMap.Has])]
  split_ifs with hpos' hle'
  · exact ⟨_, rfl⟩
  · exact ⟨_, rfl⟩
  · exact absurd ⟨⟨by omega, by omega⟩, by omega, by omega⟩ h

theorem get_bind (f : Table → Method α) : (get >>= f) t = f t t := rfl

theorem modify_bind (g : Table → Table) (f : Unit → Method α) :
    ((modify g : Method Unit) >>= f) t = f () (g t) := rfl

section Bind

variable {β : Type} {x : Method β} {f : β → Method α} {t' : Table}

theorem bind_of_ok {b : β} (h : x t = .ok b t') : (x >>= f) t = f b t' := by
  simp only [bind, EStateM.bind, h]

theorem bind_of_error {e : Failure} (h : x t = .error e t') : (x >>= f) t = .error e t' := by
  simp only [bind, EStateM.bind, h]

end Bind

theorem sendOrder_ok {order : Order} {r : OrderResult} (h : proxy t.exchanges order = .ok r) :
    sendOrder proxy order t = .ok r { t with exchanges := t.exchanges ++ [(order, .ok r)] } := by
  rw [sendOrder, h]

theorem sendOrder_error {order : Order} {e : Exception}
    (h : proxy t.exchanges order = .error e) : sendOrder proxy order t =
      .error (.thrown e) { t with exchanges := t.exchanges ++ [(order, .error e)] } := by
  rw [sendOrder, h]

theorem leaves_bind_pure {β : Type} {x : Method α} (f : α → β) {t t' : Table}
    (h : Leaves (x t) t') : Leaves ((do return f (← x) : Method β) t) t' := by
  rcases h with ⟨a, ha⟩ | ⟨e, he⟩
  · exact .inl ⟨f a, by simp [bind, EStateM.bind, ha, pure, EStateM.pure]⟩
  · exact .inr ⟨e, by simp [bind, EStateM.bind, he]⟩

theorem skips_eq_false (hp : p.rowNameMatch = none) (rowKey : Bytes) : p.skips rowKey = false := by
  rw [RowPredicate.skips, hp]

theorem addRows_leaves (hp : p.rowNameMatch = none) : ∀ (l : List Bytes) (t : Table),
    Leaves (addRows p l t) { t with fRows := stored l t.fRows }
  | [], _ => .inl ⟨0, rfl⟩
  | [rowKey], t => by
      rw [addRows, skips_eq_false hp]
      · exact .inr ⟨_, rfl⟩
      · simp
  | [rowKey, columnKey], t => by
      rw [addRows, skips_eq_false hp]
      · exact .inr ⟨_, rfl⟩
      · simp
  | rowKey :: columnKey :: data :: l, t => by
      rw [addRows, skips_eq_false hp, stored]
      by_cases hkeys : IsKey rowKey ∧ IsKey columnKey
      · have hadd := addRow_valid hkeys.1 hkeys.2 data t
        have hrest := leaves_bind_pure (· + 1) (addRows_leaves hp l
          { t with fRows := t.fRows.insert rowKey (single rowKey columnKey data) })
        rw [if_pos hkeys]
        simpa [bind, EStateM.bind, hadd] using hrest
      · obtain ⟨e, he⟩ := addRow_invalid hkeys data t
        rw [if_neg hkeys]
        exact .inr ⟨e, by simp [bind, EStateM.bind, he]⟩

def brought (debug : Bool) (l : List Bytes) : OrderedMap Bytes Row :=
  if debug ∧ l.length % 3 ≠ 0 then .empty else stored l .empty

theorem readResults_leaves (hp : p.rowNameMatch = none) (l : List Bytes) (h : t.fRows = .empty) :
    Leaves (readResults debug p l t) { t with fRows := brought debug l } := by
  rw [brought]
  unfold readResults
  split_ifs with hdebug
  · rw [← h]
    exact .inr ⟨_, rfl⟩
  · rw [← h]
    exact addRows_leaves hp l t

theorem brought_results (triples : List Triple) :
    brought debug (results triples) = stored (results triples) .empty := by
  have hlength : (results triples).length = 3 * triples.length := by
    rw [results, List.length_flatMap]
    simp [mul_comm]
  rw [brought, if_neg]
  omega

/-- The index of the cursor in the answer to a `DECLARE`. -/
def cursorOf : Answer → Option Int32
  | .ok ⟨true, index :: _⟩ => (int32Value index).toOption
  | _ => none

/-- The rows in the answer to a `DECLARE`. -/
def loaded (debug : Bool) : Answer → OrderedMap Bytes Row
  | .ok ⟨true, index :: l⟩ =>
      match (int32Value index).toOption with
      | some cursorIndex => if cursorIndex < 0 then .empty else brought debug l
      | none => .empty
  | _ => .empty

def selection (proxy : Proxy) (t : Table) (p : RowPredicate) : Order × Answer :=
  (selectOrder t p, proxy t.exchanges (selectOrder t p))

def selected (debug : Bool) (proxy : Proxy) (t : Table) (p : RowPredicate) : Table :=
  { t with
    fRows := loaded debug (selection proxy t p).2
    fCursorIndex := (cursorOf (selection proxy t p).2).getD t.fCursorIndex
    exchanges := t.exchanges ++ [selection proxy t p] }

theorem openCursor_leaves (hp : p.rowNameMatch = none) (l : List Bytes) (h : t.fRows = .empty) :
    Leaves (openCursor debug p l t) { t with
      fRows := loaded debug (.ok ⟨true, l⟩)
      fCursorIndex := (cursorOf (.ok ⟨true, l⟩)).getD t.fCursorIndex } := by
  cases l with
  | nil =>
    rw [openCursor, loaded, ← h]
    · exact .inr ⟨_, rfl⟩
    · simp
  | cons index l =>
    rw [openCursor, loaded, cursorOf]
    cases hindex : int32Value index with
    | error e =>
      rw [← h]
      exact .inr ⟨e, rfl⟩
    | ok cursorIndex =>
      rw [liftException, pure_bind, modify_bind]
      show Leaves _ { t with
        fRows := if cursorIndex < 0 then .empty else brought debug l
        fCursorIndex := cursorIndex }
      split_ifs with hneg
      · rw [← h]
        exact .inr ⟨_, rfl⟩
      · exact readResults_leaves hp l h

theorem selectRows_leaves (hp : p.rowNameMatch = none) (h : t.fRows = .empty) :
    Leaves (selectRows debug proxy p t) (selected debug proxy t p) := by
  rw [selectRows, get_bind]
  cases hanswer : proxy t.exchanges (selectOrder t p) with
  | error e =>
    rw [bind_of_error (sendOrder_error hanswer), selected, selection, hanswer, loaded, ← h]
    · exact .inr ⟨e, rfl⟩
    · simp
  | ok r =>
    obtain ⟨succeeded, l⟩ := r
    rw [bind_of_ok (sendOrder_ok hanswer), selected, selection, hanswer]
    cases succeeded with
    | false =>
      rw [loaded, ← h]
      · exact .inr ⟨_, rfl⟩
      · simp
    | true => exact openCursor_leaves hp l h

def closing (proxy : Proxy) (t : Table) : Table :=
  if 0 ≤ t.fCursorIndex then { t with
    fCursorIndex := -1
    exchanges := t.exchanges ++
      [(closeOrder t.fCursorIndex, proxy t.exchanges (closeOrder t.fCursorIndex))] }
  else t

/-- The answer to the `CLOSE` is an exception that is not caught. -/
def Aborts (proxy : Proxy) (t : Table) : Prop :=
  0 ≤ t.fCursorIndex ∧ ∃ message, proxy t.exchanges (closeOrder t.fCursorIndex) =
    .error (.other message)

theorem closeCursor_cases (proxy : Proxy) (t : Table) :
    (∃ message, Aborts proxy t ∧
        closeCursor proxy t = .error (.thrown (.other message)) (closing proxy t)) ∨
      ¬Aborts proxy t ∧ (closeCursor proxy t = .ok () (closing proxy t) ∨
        ∃ message, closeCursor proxy t =
          .error (.thrown (.cassandra message)) (closing proxy t)) := by
  rw [closeCursor, get_bind, closing, Aborts]
  by_cases hopen : 0 ≤ t.fCursorIndex
  · rw [if_pos hopen, if_pos hopen, modify_bind]
    let t' := { t with fCursorIndex := -1 }
    cases hanswer : proxy t.exchanges (closeOrder t.fCursorIndex) with
    | error e =>
      rw [bind_of_error (@sendOrder_error proxy t' _ _ hanswer)]
      cases e with
      | cassandra message => exact .inr ⟨by simp, .inr ⟨message, rfl⟩⟩
      | other message => exact .inl ⟨message, ⟨hopen, message, rfl⟩, rfl⟩
    | ok r =>
      rw [bind_of_ok (@sendOrder_ok proxy t' _ _ hanswer)]
      refine .inr ⟨by simp, ?_⟩
      split_ifs
      · exact .inl rfl
      · exact .inr ⟨_, rfl⟩
  · rw [if_neg hopen, if_neg hopen]
    exact .inr ⟨fun h => hopen h.1, .inl rfl⟩

theorem readRows_eq (t : Table) : readRows debug proxy (some p) t =
    if t.fCursorIndex ≠ -1 then fetchRows debug proxy p { t with fRows := .empty }
    else selectRows debug proxy p { t with fRows := .empty } := by
  rw [readRows, modify_bind, get_bind]
  split_ifs <;> rfl

/-- The proxy answers the order that `readRows()` sends with these cells. -/
def Returns (proxy : Proxy) (t : Table) (p : RowPredicate) (triples : List Triple) : Prop :=
  if t.fCursorIndex ≠ -1 then
    proxy t.exchanges (fetchOrder t.fCursorIndex) = .ok ⟨true, results triples⟩
  else ∃ index cursorIndex, int32Value index = .ok cursorIndex ∧ 0 ≤ cursorIndex ∧
    proxy t.exchanges (selectOrder t p) = .ok ⟨true, index :: results triples⟩

theorem fetchRows_rows (hp : p.rowNameMatch = none) {triples : List Triple} (h : t.fRows = .empty)
    (hanswer : proxy t.exchanges (fetchOrder t.fCursorIndex) = .ok ⟨true, results triples⟩) :
    (left (fetchRows debug proxy p t)).fRows = stored (results triples) .empty := by
  rw [fetchRows, get_bind, bind_of_ok (sendOrder_ok hanswer), if_pos rfl]
  split_ifs with hlength
  · let t' := { t with exchanges := t.exchanges ++
      [(fetchOrder t.fCursorIndex, Except.ok (OrderResult.mk true (results triples)))] }
    have hclosing : (closing proxy t').fRows = .empty := by
      rw [closing]
      split_ifs
      · exact h
      · exact h
    have hnil : results triples = [] := List.length_eq_zero_iff.mp hlength
    have hstored : stored (results triples) .empty = .empty := by
      rw [hnil, stored]
      simp
    rw [hstored]
    rcases closeCursor_cases proxy t' with ⟨message, -, hclose⟩ | ⟨-, hclose | ⟨message, hclose⟩⟩
    · rw [bind_of_error hclose]
      exact hclosing
    · rw [bind_of_ok hclose]
      exact hclosing
    · rw [bind_of_error hclose]
      exact hclosing
  · have hleaves := @readResults_leaves debug p { t with exchanges := t.exchanges ++
      [(fetchOrder t.fCursorIndex, .ok ⟨true, results triples⟩)] } hp (results triples) h
    rw [hleaves.left_eq]
    exact brought_results triples

/-- What `readRows()` leaves of the rows it is given. -/
theorem readRows_rows (hp : p.rowNameMatch = none) {triples : List Triple}
    (hreturns : Returns proxy t p triples) :
    (left (readRows debug proxy (some p) t)).fRows = stored (results triples) .empty := by
  rw [Returns] at hreturns
  rw [readRows_eq]
  split_ifs at hreturns ⊢ with hcursor
  · exact fetchRows_rows hp rfl hreturns
  · obtain ⟨index, cursorIndex, hindex, hnonneg, hanswer⟩ := hreturns
    have hleaves := @selectRows_leaves debug proxy p { t with fRows := .empty } hp rfl
    have hselection : (selection proxy { t with fRows := .empty } p).2 =
        .ok ⟨true, index :: results triples⟩ := hanswer
    have hnot : ¬cursorIndex < 0 := Int32.not_lt.mpr hnonneg
    rw [hleaves.left_eq]
    show loaded debug (selection proxy { t with fRows := .empty } p).2 = _
    rw [hselection, loaded, hindex]
    show (if cursorIndex < 0 then _ else _) = _
    rw [if_neg hnot, brought_results]

/-- `readRows()` keeps all the cells that it is given exactly when no two of them are in one
row and their keys are valid. -/
theorem readRows_holds_iff (debug : Bool) (hp : p.rowNameMatch = none) {triples : List Triple}
    (hpairs : (triples.map fun t => (t.rowKey, t.columnKey)).Nodup)
    (hreturns : Returns proxy t p triples) :
    HoldsExactly (left (readRows debug proxy (some p) t)).fRows triples ↔
      (triples.map Triple.rowKey).Nodup ∧ ∀ t ∈ triples, t.Valid := by
  rw [readRows_rows hp hreturns]
  exact stored_holds_iff hpairs

/-- A proxy that has these cells behind the index of its first cursor. -/
def serving (triples : List Triple) : Proxy := fun _ _ =>
  .ok ⟨true, [0, 0, 0, 0] :: results triples⟩

theorem serving_returns (triples : List Triple) : Returns (serving triples) {} {} triples :=
  ⟨[0, 0, 0, 0], 0, rfl, by decide, rfl⟩

theorem readRows_holds_two :
    HoldsExactly
      (left (readRows false (serving [⟨[1], [2], [3]⟩, ⟨[4], [2], [5]⟩]) (some {}) {})).fRows
      [⟨[1], [2], [3]⟩, ⟨[4], [2], [5]⟩] :=
  (readRows_holds_iff false rfl (by decide) (serving_returns _)).mpr ⟨by decide, by decide⟩

/-- The second cell of a row takes the place of the first. -/
theorem cell_lost : ¬∀ (debug : Bool) (proxy : Proxy) (p : RowPredicate) (t : Table)
    (triples : List Triple), p.rowNameMatch = none →
    (triples.map fun t => (t.rowKey, t.columnKey)).Nodup → Returns proxy t p triples →
    HoldsExactly (left (readRows debug proxy (some p) t)).fRows triples := by
  intro hall
  have hholds := hall false (serving [⟨[1], [2], [3]⟩, ⟨[1], [4], [5]⟩]) {} {} _ rfl
    (by decide) (serving_returns _)
  rw [readRows_rows rfl (serving_returns _), stored_holds_iff (by decide)] at hholds
  exact absurd hholds.1 (by decide)

end Reading

end SnapCpp.TableRows
