/-
Tables of a TOML document, as headers and keys fill them. A key leads from table to table; where a list stands, a
header goes on in its last item. Marks remember which tables have been declared and which values are closed: a header
declares a table once, keys with dots declare the tables they pass for all headers behind them, and what a value holds
cannot be added to.
-/
import Rulebook.Toml.Basic

namespace Rulebook.Toml

/-- change the table that a key leads to; missing tables are made. `throughLists` says whether a list leads on -/
def change (throughLists : Bool) (f : Table → Option Table) : Key → Table → Option Table
  | [], t => f t
  | name :: more, t =>
    match t.lookup name with
    | none => (change throughLists f more []).map fun inner => t ++ [(name, .table inner)]
    | some (.table inner) => (change throughLists f more inner).map (replace t name ∘ .table)
    | some (.list items) =>
      match throughLists, items.getLast? with
      | true, some (.table inner) =>
        (change throughLists f more inner).map fun inner => replace t name (.list (items.dropLast ++ [.table inner]))
      | _, _ => none
    | some _ => none
where
  /-- give a field another value -/
  replace (t : Table) (name : Text) (v : Value) : Table :=
    t.map fun (other, old) => if other = name then (other, v) else (other, old)

def addField (name : Text) (v : Value) (t : Table) : Option Table :=
  match t.lookup name with
  | some _ => none
  | none => some (t ++ [(name, v)])

/-- add an empty table to a list, which is made if it is not there -/
def addItem (name : Text) (t : Table) : Option Table :=
  match t.lookup name with
  | none => some (t ++ [(name, .list [.table []])])
  | some (.list items) => some (change.replace t name (.list (items ++ [.table []])))
  | some _ => none

/-- what is remembered of the tables: declared ones, closed values, and those declared once the next header comes -/
structure Marks where
  declared : List Key
  closed : List Key
  pending : List Key
  deriving DecidableEq, Repr

namespace Marks

def none : Marks := ⟨[], [], []⟩

/-- the key leads into a closed value, or to it -/
def isClosed (m : Marks) (key : Key) : Bool :=
  m.closed.any fun k => k.isPrefixOf key

def isDeclared (m : Marks) (key : Key) : Bool :=
  key ∈ m.declared

/-- a header comes: what was pending is declared -/
def settle (m : Marks) : Marks :=
  ⟨m.pending ++ m.declared, m.closed, []⟩

def declare (m : Marks) (key : Key) : Marks :=
  { m with declared := key :: m.declared }

/-- forget all about a key and what it leads to -/
def forget (m : Marks) (key : Key) : Marks :=
  { m with
    declared := m.declared.filter fun k => !key.isPrefixOf k
    closed := m.closed.filter fun k => !key.isPrefixOf k }

end Marks

/-- a list or a table is closed where it is written -/
def isClosing : Value → Bool
  | .list _ => true
  | .table _ => true
  | _ => false

/-- a table in braces as far as it is read: its fields, and the keys of the lists and tables among them -/
structure Braced where
  fields : Table
  closed : List Key

namespace Braced

def empty : Braced := ⟨[], []⟩

def assign (b : Braced) (key : Key) (v : Value) : Option Braced :=
  if b.closed.any fun k => k.isPrefixOf key then none
  else
    (change false (addField (key.getLastD []) v) key.dropLast b.fields).map fun fields =>
      ⟨fields, if isClosing v then key :: b.closed else b.closed⟩

end Braced

/-- a document as far as it is read: its fields, the marks, and the table that keys now go to -/
structure Draft where
  fields : Table
  marks : Marks
  header : Key

namespace Draft

def empty : Draft := ⟨[], .none, []⟩

/-- a header declares a table -/
def openTable (d : Draft) (key : Key) : Option Draft :=
  let marks := d.marks.settle
  if marks.isDeclared key || marks.isClosed key then none
  else (change true some key d.fields).map fun fields => ⟨fields, marks.declare key, key⟩

/-- a header adds a table to a list -/
def openItem (d : Draft) (key : Key) : Option Draft :=
  let marks := d.marks.settle
  if marks.isClosed key then none
  else
    (change true (addItem (key.getLastD [])) key.dropLast d.fields).map fun fields =>
      ⟨fields, (marks.forget key).declare key, key⟩

/-- the tables that a key passes before its last name, seen from a header -/
def passed (header key : Key) : List Key :=
  (List.range' 1 (key.length - 1)).map fun n => header ++ key.take n

/-- a key gets a value in the table of the header -/
def assign (d : Draft) (key : Key) (v : Value) : Option Draft :=
  let passing := passed d.header key
  if passing.any d.marks.isDeclared || d.marks.isClosed (d.header ++ key.dropLast) then none
  else
    (change true (addField (key.getLastD []) v) (d.header ++ key.dropLast) d.fields).map fun fields =>
      { d with
        fields
        marks :=
          { d.marks with
            pending := passing ++ d.marks.pending
            closed := if isClosing v then (d.header ++ key) :: d.marks.closed else d.marks.closed } }

end Draft

end Rulebook.Toml
