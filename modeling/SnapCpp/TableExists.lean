import SnapCpp.TableRows

/-!
`QCassandraTable::exists()` is a constant function that reads rows into the table. It puts
the cursor back and closes the one that it opened, but the rows that were in memory are
replaced by those that it read.
-/
namespace SnapCpp.TableExists

open CassValue CassandraOrder CassandraResult CassandraTable TableRows

variable {debug : Bool} {proxy : Proxy} {t : Table} {rowKey : Bytes}

def openedBy (l : List Int32) (x : Order × Answer) : List Int32 :=
  match x.1.fTypeOfResult, x.2 with
  | .declare, answer => l ++ (cursorOf answer).toList
  | .close, .ok ⟨true, _⟩ => l.filter (· ≠ x.1.fCursorIndex)
  | _, _ => l

def opened (exchanges : List (Order × Answer)) : List Int32 := exchanges.foldl openedBy []

def Works (x : Order × Answer) : Prop :=
  (∃ l, x.2 = .ok ⟨true, l⟩) ∧
    (x.1.fTypeOfResult = .declare →
      ∃ cursorIndex, cursorOf x.2 = some cursorIndex ∧ 0 ≤ cursorIndex)

/-- A call that nobody can tell from the table that it leaves. -/
structure Constant (t : Table) (r : EStateM.Result Failure Table Bool) : Prop where
  runs : ∀ t', r ≠ .error .terminated t'
  rows : (left r).fRows = t.fRows
  cursor : (left r).fCursorIndex = t.fCursorIndex
  closes : ∃ new, (left r).exchanges = t.exchanges ++ new ∧
    ((∀ x ∈ new, Works x) → ∀ i ∈ opened (left r).exchanges, i ∈ opened t.exchanges)

/-- The order of `exists()` and its answer. -/
def lookup (proxy : Proxy) (t : Table) (rowKey : Bytes) : Order × Answer :=
  selection proxy t (rowKeyPredicate rowKey)

/-- The cells that results hold, up to the first that has no valid keys. -/
def cellsOf : List Bytes → List Triple
  | rowKey :: columnKey :: value :: results =>
      if IsKey rowKey ∧ IsKey columnKey then ⟨rowKey, columnKey, value⟩ :: cellsOf results else []
  | _ => []

/-- The cells behind the index of a cursor; a debug build takes whole ones only. -/
def answered (debug : Bool) : Answer → List Triple
  | .ok ⟨true, index :: l⟩ =>
      match (int32Value index).toOption with
      | some cursorIndex =>
          if cursorIndex < 0 ∨ debug ∧ l.length % 3 ≠ 0 then [] else cellsOf l
      | none => []
  | _ => []

/-- The last cell of a row stands alone in it. -/
def lastRow (cells : List Triple) (key : Bytes) : Option Row :=
  (cells.reverse.find? fun x => x.rowKey = key).map fun x =>
    single x.rowKey x.columnKey x.value

def Undisturbed (debug : Bool) (proxy : Proxy) (t : Table) (rowKey : Bytes) : Prop :=
  rowKey.length = 0 ∨ t.fRows.Has rowKey ∨
    (∀ key, t.fRows.find? key = lastRow (answered debug (lookup proxy t rowKey).2) key) ∧
      ∀ cursorIndex, cursorOf (lookup proxy t rowKey).2 = some cursorIndex → 0 ≤ cursorIndex →
        ∀ message, proxy (t.exchanges ++ [lookup proxy t rowKey]) (closeOrder cursorIndex) ≠
          .error (.other message)

theorem stored_find?_lastRow (l : List Bytes) (rows : OrderedMap Bytes Row) (key : Bytes) :
    (stored l rows).find? key = (lastRow (cellsOf l) key).or (rows.find? key) := by
  induction l, rows using stored.induct with
  | case1 rowKey columnKey data results rows hkeys ih =>
    rw [stored, if_pos hkeys, ih, cellsOf, if_pos hkeys, lastRow, lastRow, List.reverse_cons,
      List.find?_append, OrderedMap.find?_insert]
    cases (cellsOf results).reverse.find? fun x => x.rowKey = key with
    | some x => rfl
    | none =>
      by_cases hkey : key = rowKey
      · simp [hkey]
      · simp [hkey, Ne.symm hkey]
  | case2 rowKey columnKey data results rows hkeys =>
    rw [stored, if_neg hkeys, cellsOf, if_neg hkeys]
    rfl
  | case3 l rows hshort =>
    rw [stored, cellsOf]
    · rfl
    · exact hshort
    · exact hshort

theorem loaded_find? (answer : Answer) (key : Bytes) :
    (loaded debug answer).find? key = lastRow (answered debug answer) key := by
  rcases answer with e | ⟨_ | _, _ | ⟨index, l⟩⟩
  · rfl
  · rfl
  · rfl
  · rfl
  · rw [loaded, answered]
    cases (int32Value index).toOption with
    | none => rfl
    | some cursorIndex =>
      simp only [brought]
      by_cases hneg : cursorIndex < 0
      · rw [if_pos hneg, if_pos (.inl hneg)]
        rfl
      by_cases hdebug : debug = true ∧ l.length % 3 ≠ 0
      · rw [if_neg hneg, if_pos hdebug, if_pos (.inr hdebug)]
        rfl
      · rw [if_neg hneg, if_neg hdebug, if_neg (not_or.mpr ⟨hneg, hdebug⟩)]
        exact (stored_find?_lastRow l .empty key).trans (Option.or_none ..)

theorem restoreCursor_aborts (h : Aborts proxy t) (saved : Int32) :
    restoreCursor proxy saved t = .error .terminated (closing proxy t) := by
  rcases closeCursor_cases proxy t with ⟨message, -, hclose⟩ | ⟨hnot, -⟩
  · rw [restoreCursor, hclose]
  · exact absurd h hnot

theorem restoreCursor_quiet (h : ¬Aborts proxy t) (saved : Int32) :
    restoreCursor proxy saved t = .ok () { closing proxy t with fCursorIndex := saved } := by
  rcases closeCursor_cases proxy t with ⟨message, haborts, -⟩ | ⟨-, hclose | ⟨message, hclose⟩⟩
  · exact absurd haborts h
  · rw [restoreCursor, hclose]
  · rw [restoreCursor, hclose]

theorem savingCursor_quiet {α : Type} {act : Method α} {t' : Table}
    (hact : Leaves (act { t with fCursorIndex := -1 }) t') (h : ¬Aborts proxy t') :
    Leaves (savingCursor proxy act t) { closing proxy t' with fCursorIndex := t.fCursorIndex } := by
  have hrestore := restoreCursor_quiet h t.fCursorIndex
  rcases hact with ⟨a, ha⟩ | ⟨e, he⟩
  · refine .inl ⟨a, ?_⟩
    rw [savingCursor, ha]
    exact bind_of_ok hrestore
  · refine .inr ⟨e, ?_⟩
    rw [savingCursor, he]
    exact bind_of_ok hrestore

theorem savingCursor_aborts {α : Type} {act : Method α} {t' : Table}
    (hact : Leaves (act { t with fCursorIndex := -1 }) t') (h : Aborts proxy t') :
    savingCursor proxy act t = .error .terminated (closing proxy t') := by
  have hrestore := restoreCursor_aborts h t.fCursorIndex
  rcases hact with ⟨a, ha⟩ | ⟨e, he⟩
  · rw [savingCursor, ha]
    exact bind_of_error hrestore
  · rw [savingCursor, he]
    exact bind_of_error hrestore

/-- The table once `exists()` has read its rows. -/
def looked (debug : Bool) (proxy : Proxy) (t : Table) (rowKey : Bytes) : Table :=
  selected debug proxy { t with fRows := .empty, fCursorIndex := -1 } (rowKeyPredicate rowKey)

theorem aborts_looked_iff : Aborts proxy (looked debug proxy t rowKey) ↔
    ∃ cursorIndex, cursorOf (lookup proxy t rowKey).2 = some cursorIndex ∧ 0 ≤ cursorIndex ∧
      ∃ message, proxy (t.exchanges ++ [lookup proxy t rowKey]) (closeOrder cursorIndex) =
        .error (.other message) := by
  show (0 ≤ (cursorOf (lookup proxy t rowKey).2).getD (-1) ∧ ∃ message,
    proxy (t.exchanges ++ [lookup proxy t rowKey])
      (closeOrder ((cursorOf (lookup proxy t rowKey).2).getD (-1))) = .error (.other message)) ↔ _
  cases cursorOf (lookup proxy t rowKey).2 with
  | none =>
    have hneg : ¬(0 : Int32) ≤ -1 := by decide
    simp [hneg]
  | some cursorIndex => simp

/-- The cursor that `exists()` opened is closed. -/
theorem closing_looked (debug : Bool) (proxy : Proxy) (t : Table) (rowKey : Bytes) :
    ∃ new, (closing proxy (looked debug proxy t rowKey)).exchanges = t.exchanges ++ new ∧
      ((∀ x ∈ new, Works x) →
        ∀ i ∈ opened (closing proxy (looked debug proxy t rowKey)).exchanges,
          i ∈ opened t.exchanges) := by
  have hexchanges : (looked debug proxy t rowKey).exchanges =
      t.exchanges ++ [lookup proxy t rowKey] := rfl
  have hcursor : (looked debug proxy t rowKey).fCursorIndex =
      (cursorOf (lookup proxy t rowKey).2).getD (-1) := rfl
  have hopened : opened (t.exchanges ++ [lookup proxy t rowKey]) =
      opened t.exchanges ++ (cursorOf (lookup proxy t rowKey).2).toList := by
    rw [opened, List.foldl_append]
    rfl
  rw [closing]
  split_ifs with hopen
  · let order := closeOrder (looked debug proxy t rowKey).fCursorIndex
    let answer := proxy (looked debug proxy t rowKey).exchanges order
    refine ⟨[lookup proxy t rowKey, (order, answer)], ?_, ?_⟩
    · show (looked debug proxy t rowKey).exchanges ++ [(order, answer)] = _
      rw [hexchanges, List.append_assoc]
      rfl
    · intro hworks i hi
      obtain ⟨hlookup, hclose⟩ := List.forall_mem_cons.mp hworks
      obtain ⟨cursorIndex, hindex, -⟩ := hlookup.2 rfl
      obtain ⟨⟨l, hl⟩, -⟩ := hclose _ (List.mem_singleton_self _)
      have horder : order.fCursorIndex = cursorIndex := by
        show (looked debug proxy t rowKey).fCursorIndex = cursorIndex
        rw [hcursor, hindex]
        rfl
      have hfilter : opened ((looked debug proxy t rowKey).exchanges ++ [(order, answer)]) =
          (opened t.exchanges ++ [cursorIndex]).filter (· ≠ cursorIndex) := by
        rw [hexchanges, opened, List.foldl_append, ← opened, hopened, hindex, ← horder]
        show openedBy _ (order, answer) = _
        rw [openedBy, show answer = .ok ⟨true, l⟩ from hl]
        rfl
      change i ∈ opened ((looked debug proxy t rowKey).exchanges ++ [(order, answer)]) at hi
      rw [hfilter, List.mem_filter, List.mem_append, List.mem_singleton, decide_eq_true_iff] at hi
      exact hi.1.resolve_right hi.2
  · refine ⟨[lookup proxy t rowKey], hexchanges, ?_⟩
    intro hworks
    obtain ⟨cursorIndex, hindex, hnonneg⟩ := (hworks _ (List.mem_singleton_self _)).2 rfl
    rw [hcursor, hindex] at hopen
    exact absurd hnonneg hopen

theorem rowExists_read (hkey : rowKey.length ≠ 0) (hmiss : ¬t.fRows.Has rowKey) :
    rowExists debug proxy rowKey t = savingCursor proxy (do
      return (← readRows debug proxy (some (rowKeyPredicate rowKey))) ≠ 0 : Method Bool) t := by
  rw [rowExists, if_neg hkey, get_bind, if_neg hmiss]

theorem readRows_looked (debug : Bool) (proxy : Proxy) (t : Table) (rowKey : Bytes) :
    Leaves ((do return (← readRows debug proxy (some (rowKeyPredicate rowKey))) ≠ 0 : Method Bool)
      { t with fCursorIndex := -1 }) (looked debug proxy t rowKey) := by
  refine leaves_bind_pure (fun n : ℕ => decide (n ≠ 0)) ?_
  rw [readRows_eq, if_neg (not_not.mpr rfl)]
  exact selectRows_leaves rfl rfl

/-- `exists()` is constant exactly when it reads no row, or the rows that were there. -/
theorem rowExists_constant_iff (debug : Bool) (proxy : Proxy) (t : Table) (rowKey : Bytes) :
    Constant t (rowExists debug proxy rowKey t) ↔ Undisturbed debug proxy t rowKey := by
  by_cases hkey : rowKey.length = 0
  · have hrun : rowExists debug proxy rowKey t = .ok false t := by
      rw [rowExists, if_pos hkey]
      rfl
    rw [hrun]
    exact iff_of_true ⟨by simp, rfl, rfl, [], by simp [left], fun _ i hi => hi⟩ (.inl hkey)
  by_cases hmiss : t.fRows.Has rowKey
  · have hrun : rowExists debug proxy rowKey t = .ok true t := by
      rw [rowExists, if_neg hkey, get_bind, if_pos hmiss]
      rfl
    rw [hrun]
    exact iff_of_true ⟨by simp, rfl, rfl, [], by simp [left], fun _ i hi => hi⟩ (.inr (.inl hmiss))
  have hread := readRows_looked debug proxy t rowKey
  have hrows : (closing proxy (looked debug proxy t rowKey)).fRows =
      loaded debug (lookup proxy t rowKey).2 := by
    rw [closing]
    split_ifs <;> rfl
  rw [rowExists_read hkey hmiss]
  constructor
  · intro hconstant
    have hquiet : ¬Aborts proxy (looked debug proxy t rowKey) := by
      intro haborts
      exact hconstant.runs _ (savingCursor_aborts hread haborts)
    have hleft := (savingCursor_quiet hread hquiet).left_eq
    have hsame := hconstant.rows
    rw [hleft] at hsame
    refine .inr (.inr ⟨fun key => ?_, ?_⟩)
    · rw [← hsame, hrows, loaded_find?]
    · intro cursorIndex hindex hnonneg message hanswer
      exact hquiet (aborts_looked_iff.mpr ⟨cursorIndex, hindex, hnonneg, message, hanswer⟩)
  · rintro (h | h | ⟨hsame, hcloses⟩)
    · exact absurd h hkey
    · exact absurd h hmiss
    · have hquiet : ¬Aborts proxy (looked debug proxy t rowKey) := by
        rw [aborts_looked_iff]
        rintro ⟨cursorIndex, hindex, hnonneg, message, hanswer⟩
        exact hcloses cursorIndex hindex hnonneg message hanswer
      have hleaves := savingCursor_quiet hread hquiet
      have hleft := hleaves.left_eq
      refine ⟨?_, ?_, ?_, ?_⟩
      · intro t' hterminated
        rcases hleaves with ⟨a, ha⟩ | ⟨e, he⟩
        · rw [ha] at hterminated
          cases hterminated
        · rw [he] at hterminated
          cases hterminated
      · rw [hleft]
        exact hrows.trans (OrderedMap.ext_find? _ _ fun key => by rw [loaded_find?, hsame])
      · rw [hleft]
      · rw [hleft]
        exact closing_looked debug proxy t rowKey

def oneRow : Table := { fRows := OrderedMap.empty.insert [1] (single [1] [2] [3]) }

/-- Looking for a row that is not there forgets the one in memory. -/
theorem rows_forgotten : ¬∀ (debug : Bool) (proxy : Proxy) (t : Table) (rowKey : Bytes),
    Constant t (rowExists debug proxy rowKey t) := by
  intro hall
  have hrows := (hall false (serving []) oneRow [4]).rows
  have hleft : (left (rowExists false (serving []) [4] oneRow)).fRows = .empty := by decide
  rw [hleft] at hrows
  exact absurd hrows (by decide)

end SnapCpp.TableExists
