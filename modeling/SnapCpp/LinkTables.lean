import SnapCpp.CassValue
import SnapCpp.LinkInfo
import SnapCpp.OrderedMap
import SnapCpp.Runs

/-!
The links between pages in the two tables of the database. A row of the branch table has the
links of one branch of a page, each cell with the other end as its data; the links table finds
the cell of one of many links by its other page. Signals and warnings change no cell and are left
out; a loop over the cells of a row works on the cells as they were read.
-/
namespace SnapCpp

open QString LinkInfo
open CassValue (fromUtf8Array)

structure LinkTables where
  branch : GroupedMap QString QString QString
  links : GroupedMap QString QString QString

namespace LinkTables

def empty : LinkTables := ⟨GroupedMap.empty, GroupedMap.empty⟩

structure Outcome where
  tables : LinkTables
  thrown : Option LinksException

def setBranch (t : LinkTables) (row column value : QString) : LinkTables :=
  { t with branch := t.branch.assign row column value }

def setLinks (t : LinkTables) (row column value : QString) : LinkTables :=
  { t with links := t.links.assign row column value }

def dropBranch (t : LinkTables) (row column : QString) : LinkTables :=
  { t with branch := t.branch.eraseKey row column }

def dropLinks (t : LinkTables) (row column : QString) : LinkTables :=
  { t with links := t.links.eraseKey row column }

def linkBack : QString := ascii "permissions::link_back"

/-- The column of `src` for `dst`, with an entry in the links table where it is new. -/
def columnFor (t : LinkTables) (src dst : LinkInfo) (number : QString) : LinkTables × QString :=
  if src.unique then (t, src.cellName dst)
  else
    match t.links.value src.linkKey dst.keyWithBranch with
    | none =>
        let column := src.cellNameNumber dst number
        (t.setLinks src.linkKey dst.keyWithBranch column, column)
    | some value => (t, value)

/-- `links::create_link()` with the unique numbers it is to get for the two columns. -/
def createLink (t : LinkTables) (src dst : LinkInfo) (srcNumber dstNumber : QString) : Outcome :=
  if src.name = linkBack ∨ dst.name = linkBack then ⟨t, some .lessPrecise⟩
  else if src.key = dst.key ∧ src.name = dst.name then ⟨t, some .sameEnds⟩
  else
    let source := t.columnFor src dst srcNumber
    let destination := source.1.columnFor dst src dstNumber
    ⟨(destination.1.setBranch src.rowKey source.2 dst.data).setBranch
      dst.rowKey destination.2 src.data, none⟩

/-- The other side of a unique link, found by its unique name or with the links table. The loop
is left when the links table does not know the page. -/
def dropDestination (t : LinkTables) (info destination : LinkInfo) : LinkTables × Bool :=
  if t.branch.hasGroup destination.rowKey = false then (t, true)
  else if (t.branch.value destination.rowKey (destination.cellName info)).isSome then
    (t.dropBranch destination.rowKey (destination.cellName info), true)
  else if t.links.hasGroup destination.linkKey = false then (t, true)
  else
    match t.links.value destination.linkKey info.keyWithBranch with
    | none => (t, false)
    | some multiName =>
        let t := t.dropLinks destination.linkKey info.keyWithBranch
        if (t.branch.value destination.rowKey multiName).isSome then
          (t.dropBranch destination.rowKey multiName, true)
        else (t, true)

/-- The loop of `links::delete_link()` over the cells of a unique name. -/
def deleteUnique (info : LinkInfo) : List (QString × QString) → LinkTables → Outcome
  | [], t => ⟨t, none⟩
  | (column, value) :: cells, t =>
      match fromData value with
      | .error e => ⟨t, some e⟩
      | .ok destination =>
          match (t.dropBranch info.rowKey column).dropDestination info destination with
          | (t, false) => ⟨t, none⟩
          | (t, true) => deleteUnique info cells t

def dropOther (t : LinkTables) (info destination : LinkInfo) : LinkTables :=
  if destination.unique then t.dropBranch destination.rowKey (destination.cellName info)
  else
    match t.links.value destination.linkKey info.keyWithBranch with
    | none => t
    | some dstKey =>
        (t.dropLinks destination.linkKey info.keyWithBranch).dropBranch destination.rowKey dstKey

/-- The loop of `links::delete_link()` over the entries of the links table. The column that it drops
is what its bytes are read as. -/
def deleteMany (info : LinkInfo) : List (QString × QString) → LinkTables → Outcome
  | [], t => ⟨t, none⟩
  | (key, fieldName) :: cells, t =>
      match t.branch.value info.rowKey fieldName with
      | none => deleteMany info cells t
      | some value =>
          match fromData value with
          | .error e => ⟨t, some e⟩
          | .ok destination =>
              let t := (t.dropBranch info.rowKey fieldName).dropLinks info.linkKey
                (fromUtf8Array (Utf.toUtf8 key))
              deleteMany info cells (t.dropOther info destination)

def deleteLink (t : LinkTables) (info : LinkInfo) : Outcome :=
  if t.branch.hasGroup info.rowKey = false then ⟨t, none⟩
  else if info.unique then
    deleteUnique info
      ((t.branch.group info.rowKey).entries.filter (fun cell => info.cellPredicate cell.1)) t
  else deleteMany info (t.links.group info.linkKey).entries t

/-- The cell of `source` that the links table has for `destination`. -/
def dropSide (t : LinkTables) (source destination : LinkInfo) : LinkTables :=
  match t.links.value source.linkKey destination.keyWithBranch with
  | none => t
  | some srcKey =>
      (t.dropLinks source.linkKey destination.keyWithBranch).dropBranch source.rowKey srcKey

def deleteThisLink (t : LinkTables) (source destination : LinkInfo) : Outcome :=
  if source.unique then t.deleteLink source
  else if destination.unique then t.deleteLink destination
  else ⟨(t.dropSide source destination).dropSide destination source, none⟩

section Values

variable (t : LinkTables) (row column value row' column' : QString)

@[simp] theorem branch_setBranch : (t.setBranch row column value).branch.value row' column' =
    if row' = row ∧ column' = column then some value else t.branch.value row' column' := by
  simp [setBranch]

@[simp] theorem links_setBranch : (t.setBranch row column value).links = t.links := rfl

@[simp] theorem links_setLinks : (t.setLinks row column value).links.value row' column' =
    if row' = row ∧ column' = column then some value else t.links.value row' column' := by
  simp [setLinks]

@[simp] theorem branch_setLinks : (t.setLinks row column value).branch = t.branch := rfl

@[simp] theorem branch_dropBranch : (t.dropBranch row column).branch.value row' column' =
    if row' = row ∧ column' = column then none else t.branch.value row' column' := by
  simp [dropBranch]

@[simp] theorem links_dropBranch : (t.dropBranch row column).links = t.links := rfl

@[simp] theorem links_dropLinks : (t.dropLinks row column).links.value row' column' =
    if row' = row ∧ column' = column then none else t.links.value row' column' := by
  simp [dropLinks]

@[simp] theorem branch_dropLinks : (t.dropLinks row column).branch = t.branch := rfl

end Values

/-- A call of one of the three functions; a creation comes with its unique numbers. -/
inductive Call where
  | createLink (src dst : LinkInfo) (srcNumber dstNumber : QString)
  | deleteLink (info : LinkInfo)
  | deleteThisLink (source destination : LinkInfo)

def call (t : LinkTables) : Call → Outcome
  | .createLink src dst srcNumber dstNumber => t.createLink src dst srcNumber dstNumber
  | .deleteLink info => t.deleteLink info
  | .deleteThisLink source destination => t.deleteThisLink source destination

end LinkTables
end SnapCpp
