import SnapCpp.ConfigFile
import SnapCpp.CassandraOrder
import SnapCpp.CassandraResult

/-!
The rows that a `QCassandraTable` keeps in memory, and the cursor through which it reads
them from `snapdbproxy`. The member functions send orders, whose answers depend on all
the orders before, and may throw on the way: what is left of the table after an exception
is part of their meaning. `exists()` is a constant function that reads rows into the table.
-/
namespace SnapCpp.CassandraTable

open QString Utf CassValue CassandraOrder CassandraResult

/-- An exception derived from `QCassandraException`, or one that is not. -/
inductive Exception
  | cassandra (message : String)
  | other (message : String)
  deriving DecidableEq

/-- How a function fails. An exception that leaves a destructor ends the program. -/
inductive Failure
  | thrown (e : Exception)
  | terminated
  deriving DecidableEq

/-- What `QCassandraProxy::sendOrder()` returns or throws. -/
abbrev Answer := Except Exception OrderResult

/-- A `QCassandraRow` with the values of its cells. -/
structure Row where
  fKey : Bytes
  fCells : OrderedMap Bytes Bytes := .empty
  deriving DecidableEq

/-- A `QCassandraTable`, and the orders that were sent to its proxy. -/
structure Table where
  fContextName : QString := []
  fTableName : QString := []
  defaultConsistencyLevel : Int32 := 1
  fRows : OrderedMap Bytes Row := .empty
  fCursorIndex : Int32 := -1
  exchanges : List (Order × Answer) := []

/-- A `QCassandraRowPredicate`: what it adds to a query, and the names of its rows, if it
has a pattern of them. -/
structure RowPredicate where
  query : QString := []
  parameters : List Bytes := []
  allowFiltering : Bool := true
  consistencyLevel : Int32 := -1
  cellConsistencyLevel : Int32 := -1
  count : Int32 := 100
  rowNameMatch : Option (QString → Bool) := none

abbrev Proxy := List (Order × Answer) → Order → Answer

abbrev Method := EStateM Failure Table

def Row.new (key : Bytes) : Except Exception Row :=
  if key.length = 0 then .error (.cassandra "row key cannot be empty")
  else if 65535 < key.length then .error (.cassandra "row key is more than 64Kb")
  else .ok { fKey := key }

/-- `QCassandraRow::cell()`: the row once it has the cell. -/
def Row.cell (row : Row) (columnKey : Bytes) : Except Exception Row :=
  if row.fCells.Has columnKey then .ok row
  else if columnKey.length = 0 then
    .error (.cassandra "the cell binary column key cannot be empty")
  else if 65535 < columnKey.length then
    .error (.cassandra "the cell binary column key is more than 64Kb")
  else .ok { row with fCells := row.fCells.insert columnKey [] }

def Row.assignValue (row : Row) (columnKey value : Bytes) : Row :=
  { row with fCells := row.fCells.insert columnKey value }

def liftException {α : Type} : Except Exception α → Method α
  | .ok a => pure a
  | .error e => throw (.thrown e)

def addRow (rowKey columnKey data : Bytes) : Method Unit := do
  let newRow ← liftException (Row.new rowKey)
  let newRow ← liftException (newRow.cell columnKey)
  modify fun t => { t with fRows := t.fRows.insert rowKey (newRow.assignValue columnKey data) }

/-- `QString::fromUtf8(key.data())`. -/
def rowName (rowKey : Bytes) : QString := fromUtf8 (rowKey.takeWhile (· ≠ 0))

def RowPredicate.skips (p : RowPredicate) (rowKey : Bytes) : Bool :=
  match p.rowNameMatch with
  | none => false
  | some indexIn => !indexIn (rowName rowKey)

def addRows (p : RowPredicate) : List Bytes → Method ℕ
  | [] => return 0
  | rowKey :: columnKey :: data :: results => do
      if !p.skips rowKey then addRow rowKey columnKey data
      return (← addRows p results) + 1
  | rowKey :: _ => do
      if p.skips rowKey then return 1
      else throw (.thrown (.cassandra
        "QCassandraOrderResult::result() called with an index too large."))

def readResults (debug : Bool) (p : RowPredicate) (results : List Bytes) : Method ℕ :=
  if debug ∧ results.length % 3 ≠ 0 then
    throw (.thrown (.cassandra "the number of results must be an exact multipled of 3!"))
  else addRows p results

def int32Value (array : Bytes) : Except Exception Int32 :=
  if array.length < 4 then .error (.other "buffer too small for this int32Value")
  else .ok (Int32.ofInt (number (array.take 4)))

def openCursor (debug : Bool) (p : RowPredicate) : List Bytes → Method ℕ
  | [] => throw (.thrown (.cassandra "select rows did not return a cursor index"))
  | index :: results => do
      let cursorIndex ← liftException (int32Value index)
      modify fun t => { t with fCursorIndex := cursorIndex }
      if cursorIndex < 0 then
        throw (.thrown (.cassandra "received a negative number as cursor index"))
      else readResults debug p results

def closeOrder (cursorIndex : Int32) : Order :=
  { fCql := ascii "CLOSE", fTypeOfResult := .close, fCursorIndex := cursorIndex }

def fetchOrder (cursorIndex : Int32) : Order :=
  { fCql := ascii "FETCH", fTypeOfResult := .fetch, fCursorIndex := cursorIndex }

/-- `QString("... FROM %1.%2").arg(f_context_name).arg(f_table_name)` for names without a
percent sign, and what the predicate adds. -/
def queryString (t : Table) (p : RowPredicate) : QString :=
  ascii "SELECT key,column1,value FROM " ++ t.fContextName ++ ascii "." ++ t.fTableName ++
    p.query ++ if p.allowFiltering then ascii " ALLOW FILTERING" else []

def consistencyLevel (t : Table) (p : RowPredicate) : Int32 :=
  if p.consistencyLevel = -1 then
    if p.cellConsistencyLevel = -1 then t.defaultConsistencyLevel else p.cellConsistencyLevel
  else p.consistencyLevel

def selectOrder (t : Table) (p : RowPredicate) : Order :=
  { fCql := queryString t p
    fTypeOfResult := .declare
    fColumnCount := 3
    fConsistencyLevel := consistencyLevel t p
    fParameter := p.parameters
    fPagingSize := p.count }

/-- A `QCassandraRowKeyPredicate` as `exists()` sets it up. -/
def rowKeyPredicate (rowKey : Bytes) : RowPredicate :=
  { query := ascii " WHERE key=?", parameters := [rowKey], count := 1 }

section Methods

variable (debug : Bool) (proxy : Proxy)

def sendOrder (order : Order) : Method OrderResult := fun t =>
  let answer := proxy t.exchanges order
  let t := { t with exchanges := t.exchanges ++ [(order, answer)] }
  match answer with
  | .ok result => .ok result t
  | .error e => .error (.thrown e) t

def closeCursor : Method Unit := do
  let cursorIndex := (← get).fCursorIndex
  if 0 ≤ cursorIndex then
    modify fun t => { t with fCursorIndex := -1 }
    let closeCursorResult ← sendOrder proxy (closeOrder cursorIndex)
    if closeCursorResult.fSucceeded then return ()
    else throw (.thrown (.cassandra "QCassandraTable::closeCursor(): closing cursor failed."))
  else return ()

def fetchRows (p : RowPredicate) : Method ℕ := do
  let result ← sendOrder proxy (fetchOrder (← get).fCursorIndex)
  if result.fSucceeded then
    if result.fResult.length = 0 then
      closeCursor proxy
      return 0
    else readResults debug p result.fResult
  else throw (.thrown (.cassandra "select rows failed"))

def selectRows (p : RowPredicate) : Method ℕ := do
  let result ← sendOrder proxy (selectOrder (← get) p)
  if result.fSucceeded then openCursor debug p result.fResult
  else throw (.thrown (.cassandra "select rows failed"))

def readRows (rowPredicate : Option RowPredicate) : Method ℕ := do
  match rowPredicate with
  | none => throw (.thrown (.cassandra "row_predicate is nullptr!"))
  | some p =>
      modify fun t => { t with fRows := .empty }
      if (← get).fCursorIndex ≠ -1 then fetchRows debug proxy p else selectRows debug proxy p

/-- The destructor of `save_current_cursor_index_t`. -/
def restoreCursor (saved : Int32) : Method Unit := fun t =>
  match closeCursor proxy t with
  | .ok () t => .ok () { t with fCursorIndex := saved }
  | .error (.thrown (.cassandra _)) t => .ok () { t with fCursorIndex := saved }
  | .error _ t => .error .terminated t

/-- What runs while a `save_current_cursor_index_t` is there. -/
def savingCursor {α : Type} (act : Method α) : Method α := fun t =>
  match act { t with fCursorIndex := -1 } with
  | .ok a t' => (do restoreCursor proxy t.fCursorIndex; return a) t'
  | .error e t' => (do restoreCursor proxy t.fCursorIndex; throw e) t'

/-- `QCassandraTable::exists()`. -/
def rowExists (rowKey : Bytes) : Method Bool := do
  if rowKey.length = 0 then return false
  else if (← get).fRows.Has rowKey then return true
  else savingCursor proxy do
    return (← readRows debug proxy (some (rowKeyPredicate rowKey))) ≠ 0

end Methods

end SnapCpp.CassandraTable
