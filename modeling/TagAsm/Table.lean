import TagAsm.Fault

/-!
# Tables addressed by ids

A table is a list of rows, and the id of a row is its position. Rows are only ever added at the end, so an id that was
handed out keeps naming the row it was handed out for.
-/

namespace TagAsm

/-- Rows addressed by their position. -/
abbrev Table (α : Type) := List α

namespace Table

variable {α : Type}

/-- The id that the next row will get. -/
def nextId (rows : Table α) : Nat := rows.length

/-- Adds a row at the end. Its id is `rows.nextId`. -/
def push (rows : Table α) (row : α) : Table α := rows ++ [row]

/-- The row with this id, or a fault that names the table and the id. -/
def fetch (entity : Entity) (rows : Table α) (id : Nat) : Except Fault α :=
  match rows[id]? with
  | some row => .ok row
  | none => .error (.outOfRange entity id)

/-- The rows after one of them was replaced, if there is such a row. -/
def put? (rows : Table α) (id : Nat) (row : α) : Option (Table α) :=
  if id < rows.length then some (rows.set id row) else none

/-- The rows after one of them was replaced, or a fault if there is no such row. -/
def put (entity : Entity) (rows : Table α) (id : Nat) (row : α) : Except Fault (Table α) :=
  match rows.put? id row with
  | some rows => .ok rows
  | none => .error (.outOfRange entity id)

/-- Every id of the table, in order. -/
def ids (rows : Table α) : List Nat := List.range rows.length

/-- Every row with its id, in order. -/
def entries (rows : Table α) : List (Nat × α) := rows.zipIdx.map fun (row, id) => (id, row)

/-- The rows as text: separated by commas, in square brackets. -/
def render (text : α → String) (rows : Table α) : String := "[" ++ ", ".intercalate (rows.map text) ++ "]"

/-- A look-up succeeds exactly with the row that stands at the id. -/
theorem fetch_eq_ok_iff {entity : Entity} {rows : Table α} {id : Nat} {row : α} :
    rows.fetch entity id = .ok row ↔ rows[id]? = some row := by
  unfold fetch
  cases rows[id]? <;> simp

/-- An id below the number of rows is found. -/
theorem fetch_of_lt {entity : Entity} {rows : Table α} {id : Nat} (h : id < rows.length) :
    rows.fetch entity id = .ok rows[id] := by
  simp [fetch, h]

/-- Adding a row makes the table one row longer. -/
@[simp] theorem length_push (rows : Table α) (row : α) : (rows.push row).length = rows.length + 1 := by
  simp [push]

/-- Adding a row leaves the rows that have an id already as they were. -/
theorem getElem?_push_of_lt {rows : Table α} {row : α} {id : Nat} (h : id < rows.length) :
    (rows.push row)[id]? = rows[id]? := by
  simp [push, List.getElem?_append_left h]

/-- The row just added is found under the id announced for it. -/
@[simp] theorem getElem?_push_nextId (rows : Table α) (row : α) : (rows.push row)[rows.nextId]? = some row := by
  simp [push, nextId]

end Table

/-- The id that stands `amount` places after `id`. Ids have 32 bits, and what does not fit is cut off. -/
def advanceId (id amount : Nat) : Nat := (id + amount) % UInt32.size

end TagAsm
