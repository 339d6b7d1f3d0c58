/-!
# TOML values

The tree of a document.  A table remembers how it came to be, because that
decides who may still add to it: a header adds to tables that were only
implied by a longer header, a dotted key adds to tables that dotted keys made,
and nothing adds to an inline table.  Entries keep the order of the document.
-/

namespace BitCodec.Toml

/-- How a table came to be. -/
inductive Origin where
  /-- By its own header; the root table counts. -/
  | header
  /-- By a header of one of its sub-tables. -/
  | implied
  /-- By a dotted key. -/
  | dotted
  /-- In braces. -/
  | inline
  deriving DecidableEq, Repr

/-- A value of a document. -/
inductive Value where
  | string (text : String)
  | integer (number : Int)
  | float (bits : BitVec 64)
  | boolean (b : Bool)
  /-- A date, a time, or both, as written. -/
  | moment (text : String)
  | array (items : List Value)
  | table (origin : Origin) (entries : List (String × Value))
  /-- The tables of a repeated double-bracket header. -/
  | tables (items : List (List (String × Value)))
  deriving Repr

/-- Entries in order, each key once. -/
abbrev Entries : Type :=
  List (String × Value)

namespace Entries

def replace (entries : Entries) (key : String) (value : Value) : Entries :=
  entries.map fun (k, v) => if k = key then (k, value) else (k, v)

/-- Entries without a key. -/
def without (entries : Entries) (key : String) : Entries :=
  entries.filter (·.1 != key)

def append? (entries : Entries) (key : String) (value : Value) : Option Entries :=
  if (entries.lookup key).isSome then none else some (entries ++ [(key, value)])

/-- Add an entry under a dotted key: `path` are the parts before the last.
Tables on the way are made as needed; one that is there must be open to dotted
keys, and the last of them must have been made by one. -/
def addDotted (entries : Entries) : List String → String → Value → Option Entries
  | [], key, value => entries.append? key value
  | part :: path, key, value =>
    match entries.lookup part with
    | none => do
      let sub ← addDotted [] path key value
      some (entries ++ [(part, .table .dotted sub)])
    | some (.table .dotted sub) => do
      let sub ← addDotted sub path key value
      some (entries.replace part (.table .dotted sub))
    | some (.table .implied sub) => do
      if path.isEmpty then none
      let sub ← addDotted sub path key value
      some (entries.replace part (.table .implied sub))
    | some (.tables items) => do
      if path.isEmpty then none
      let last ← items.getLast?
      let last ← addDotted last path key value
      some (entries.replace part (.tables (items.dropLast ++ [last])))
    | some _ => none

/-- Change the table that a header path leads to.  Tables on the way are made
as needed; of repeated tables the last one is meant. -/
def within (entries : Entries) (change : Entries → Option Entries) :
    List String → Option Entries
  | [] => change entries
  | part :: path =>
    match entries.lookup part with
    | none => do
      let sub ← within [] change path
      some (entries ++ [(part, .table .implied sub)])
    | some (.table .inline _) => none
    | some (.table origin sub) => do
      let sub ← within sub change path
      some (entries.replace part (.table origin sub))
    | some (.tables items) => do
      let last ← items.getLast?
      let last ← within last change path
      some (entries.replace part (.tables (items.dropLast ++ [last])))
    | some _ => none

/-- Open a table by its header.  A table that was only implied becomes the
header's own and takes its place behind the others. -/
def openTable (entries : Entries) (key : String) : Option Entries :=
  match entries.lookup key with
  | none => some (entries ++ [(key, .table .header [])])
  | some (.table .implied sub) => some (entries.without key ++ [(key, .table .header sub)])
  | some _ => none

/-- Open one more of the tables of a double-bracket header. -/
def openNext (entries : Entries) (key : String) : Option Entries :=
  match entries.lookup key with
  | none => some (entries ++ [(key, .tables [[]])])
  | some (.tables items) => some (entries.replace key (.tables (items ++ [[]])))
  | some _ => none

end Entries

end BitCodec.Toml
