import Earley.Chart.State
/-!
# Charts

A chart holds the states of a parse, numbered in the order of their discovery, and one column for
each position between words, which lists the states that have come there. No column lists an item
twice: each column keeps a map from the items that it has to the numbers of their states, and a
state whose item is in the map only adds its ways of being reached.
-/

namespace Earley

/-- The states that have come to one position. -/
structure Column where
  /-- The numbers of the states, in the order of their discovery. -/
  items : Array Nat := #[]
  /-- The number of the state with each item that was met. -/
  dedup : List (Item × Nat) := []
deriving DecidableEq, Repr

namespace Column

/-- The number that is noted for an item. -/
def id? (column : Column) (item : Item) : Option Nat :=
  column.dedup.lookup item

/-- The column with one more state, which is noted under its item. -/
def add (column : Column) (item : Item) (id : Nat) : Column where
  items := column.items.push id
  dedup := (item, id) :: column.dedup

@[simp] theorem id?_empty (item : Item) : ({} : Column).id? item = none := rfl

@[simp] theorem items_add (column : Column) (item : Item) (id : Nat) :
    (column.add item id).items = column.items.push id := rfl

theorem id?_add (column : Column) (item other : Item) (id : Nat) :
    (column.add item id).id? other = if other = item then some id else column.id? other := by
  unfold id? add
  rw [List.lookup_cons]
  by_cases h : other = item
  · rw [if_pos h, beq_iff_eq.2 h]
  · rw [if_neg h, beq_eq_false_iff_ne.2 h]

end Column

/-- The states found while a list of words is parsed. -/
structure Chart where
  /-- The words. -/
  tokens : Array String
  /-- The states by number. -/
  states : Array State
  /-- The columns by position. -/
  table : Array Column
deriving DecidableEq, Repr

/-- What the insertion of a state into a chart did. -/
inductive Insertion where
  /-- The state is new and has this number. -/
  | new (id : Nat)
  /-- The state with this number was reached in a new way. -/
  | merged (id : Nat)
  /-- The state with this number had all of it already. -/
  | known (id : Nat)
deriving DecidableEq, Repr

namespace Insertion

/-- The number of the state that was inserted. -/
def id : Insertion → Nat
  | new id => id
  | merged id => id
  | known id => id

/-- Whether the chart is different after the insertion. -/
def isChange : Insertion → Bool
  | new _ => true
  | merged _ => true
  | known _ => false

end Insertion

namespace Chart

/-- The chart of some words before anything is known about them. -/
def ofTokens (tokens : List String) : Chart where
  tokens := tokens.toArray
  states := #[]
  table := Array.replicate (tokens.length + 1) {}

/-- The number of states. -/
def size (c : Chart) : Nat :=
  c.states.size

/-- The numbers of the states that stop at each position, in the order of their discovery. -/
def columns (c : Chart) : Array (Array Nat) :=
  c.table.map Column.items

/-- The chart with a state added under the next number and noted in the column where it stops. -/
def append (c : Chart) (s : State) : Chart :=
  { c with
    states := c.states.push s
    table := c.table.modify s.stop (·.add s.toItem c.size) }

/-- Inserts a state into the column where it stops, or returns `none` if there is no such column.
A state whose item the column has gives its sources to the one that is there. -/
def insert? (c : Chart) (s : State) : Option (Insertion × Chart) :=
  match c.table[s.stop]? with
  | none => none
  | some column =>
    match column.id? s.toItem with
    | some id =>
      match c.states[id]? with
      | none => none
      | some present =>
        let merged := present.merge s.sources
        if present.sources.length < merged.sources.length then
          some (.merged id, { c with states := c.states.modify id fun _ => merged })
        else
          some (.known id, c)
    | none => some (.new c.size, c.append s)

/-! ### Columns -/

@[simp] theorem size_columns (c : Chart) : c.columns.size = c.table.size :=
  Array.size_map

theorem getElem?_columns (c : Chart) (k : Nat) : c.columns[k]? = c.table[k]?.map Column.items :=
  Array.getElem?_map

theorem getElem?_columns_of_table {c : Chart} {k : Nat} {column : Column}
    (h : c.table[k]? = some column) : c.columns[k]? = some column.items := by
  rw [getElem?_columns, h, Option.map_some]

/-- What a column lists is noted in the table. -/
theorem exists_of_getElem?_columns {c : Chart} {k : Nat} {items : Array Nat}
    (h : c.columns[k]? = some items) : ∃ column, c.table[k]? = some column ∧
      column.items = items := by
  rw [getElem?_columns] at h
  exact Option.map_eq_some_iff.1 h

theorem getElem?_columns_ofTokens (tokens : List String) (k : Nat) :
    (ofTokens tokens).columns[k]? = if k < tokens.length + 1 then some #[] else none := by
  rw [getElem?_columns, ofTokens, Array.getElem?_replicate]
  split <;> rfl

/-- One more state is listed at the end of the column where it stops. -/
theorem getElem?_columns_append (c : Chart) (s : State) (k : Nat) :
    (c.append s).columns[k]? =
      if s.stop = k then c.columns[k]?.map (·.push c.size) else c.columns[k]? := by
  rw [getElem?_columns, getElem?_columns, append, Array.getElem?_modify]
  split
  next => rw [Option.map_map, Option.map_map]; rfl
  next => rfl

/-- One more state is noted in the column where it stops, under its item. -/
theorem id?_of_append {c : Chart} {s : State} {k : Nat} {column : Column}
    (h : (c.append s).table[k]? = some column) : ∃ old, c.table[k]? = some old ∧ ∀ item,
      column.id? item = if s.stop = k ∧ item = s.toItem then some c.size else old.id? item := by
  rw [append, Array.getElem?_modify] at h
  split at h
  next hk =>
    obtain ⟨old, hold, rfl⟩ := Option.map_eq_some_iff.1 h
    exact ⟨old, hold, fun item => by simp [Column.id?_add, hk]⟩
  next hk => exact ⟨column, h, fun item => (if_neg fun hnew => hk hnew.1).symm⟩

@[simp] theorem tokens_append (c : Chart) (s : State) : (c.append s).tokens = c.tokens := rfl

@[simp] theorem states_append (c : Chart) (s : State) :
    (c.append s).states = c.states.push s := rfl

@[simp] theorem size_table_append (c : Chart) (s : State) :
    (c.append s).table.size = c.table.size :=
  Array.size_modify

end Chart

end Earley
