import TreePath.Binary64
import TreePath.Node.Entries

/-!
# Values of a settings text

A settings text in TOML stands for a table of values.  A table remembers how it came about, because
that decides what may still be added to it: a table that is written out in braces is complete, one
with a header of its own takes no second header, and one that only longer headers or dotted keys
mention may be continued by the same means.

Adding an entry or opening a header fails when it would define something for the second time.
-/

set_option autoImplicit false

namespace TreePath

namespace Toml

/-- How a table came about. -/
inductive TableOrigin where
  /-- written out in braces -/
  | inline
  /-- under a header of its own -/
  | header
  /-- mentioned by the header of a table inside it -/
  | mentioned
  /-- by the dotted keys of its entries -/
  | dotted
  deriving DecidableEq, Repr

/-- A value of a settings text. -/
inductive Value where
  | string (text : String)
  | integer (i : Int64)
  | float (x : Binary64)
  | boolean (b : Bool)
  /-- a date, a time of day, or both, as written -/
  | moment (text : String)
  | array (items : List Value)
  | table (origin : TableOrigin) (entries : List (String × Value))
  /-- the tables under repeated headers, in order -/
  | tables (elements : List (List (String × Value)))

/-- Named values. -/
abbrev Table := Entries Value

namespace Table

/-- Changes the last of the tables under repeated headers. -/
def changeLast (change : Table → Option Table) : List Table → Option (List Table)
  | [] => none
  | [last] => (change last).map ([·])
  | table :: tables => (changeLast change tables).map (table :: ·)

/-- Dotted keys cannot enter a table of this origin; `final` says that the entry goes right into it. -/
def isClosedTo (final : Bool) : TableOrigin → Bool
  | .inline | .header => true
  | .mentioned => final
  | .dotted => false

/-- Adds an entry under a dotted key, and the tables on the way to it. -/
def addEntry (value : Value) : List String → Table → Option Table
  | [], _ => none
  | [key], table =>
    match Entries.get? table key with
    | none => some (Entries.put key value table)
    | some _ => none
  | key :: next :: keys, table =>
    let final := keys.isEmpty
    let inner :=
      match Entries.get? table key with
      | none => (addEntry value (next :: keys) []).map (Value.table .dotted)
      | some (.table origin entries) =>
        if isClosedTo final origin then none
        else (addEntry value (next :: keys) entries).map (Value.table origin)
      | some (.tables elements) =>
        if final then none
        else (changeLast (addEntry value (next :: keys)) elements).map Value.tables
      | some _ => none
    inner.map fun inner => Entries.put key inner table

/-- Adds entries one after another. -/
def addEntries (entries : List (List String × Value)) (table : Table) : Option Table :=
  entries.foldlM (fun table entry => addEntry entry.2 entry.1 table) table

/-- Changes the value that a header names, and adds the tables on the way to it. -/
def changeAt (change : Option Value → Option Value) : List String → Table → Option Table
  | [], _ => none
  | [key], table =>
    (change (Entries.get? table key)).map fun value => Entries.put key value table
  | key :: next :: keys, table =>
    let inner :=
      match Entries.get? table key with
      | none => (changeAt change (next :: keys) []).map (Value.table .mentioned)
      | some (.table .inline _) => none
      | some (.table origin entries) =>
        (changeAt change (next :: keys) entries).map (Value.table origin)
      | some (.tables elements) => (changeLast (changeAt change (next :: keys)) elements).map Value.tables
      | some _ => none
    inner.map fun inner => Entries.put key inner table

end Table

/-- The table with these entries that a value in braces stands for. -/
def Value.ofInlineEntries? (entries : List (List String × Value)) : Option Value :=
  (Table.addEntries entries []).map (Value.table .inline)

/-- The value of a header with its entries, where there may already be one. -/
def Value.underHeader? (entries : List (List String × Value)) : Option Value → Option Value
  | none => (Table.addEntries entries []).map (Value.table .header)
  | some (.table .mentioned inner) => (Table.addEntries entries inner).map (Value.table .header)
  | some _ => none

/-- The value of a repeated header with the entries of its last table. -/
def Value.underRepeatedHeader? (entries : List (List String × Value)) : Option Value → Option Value
  | none => (Table.addEntries entries []).map fun table => Value.tables [table]
  | some (.tables elements) =>
    (Table.addEntries entries []).map fun table => Value.tables (elements ++ [table])
  | some _ => none

end Toml

end TreePath
