import BitCodec.Toml.Moment
import BitCodec.Toml.Number

/-!
# TOML documents

`parse?` reads a whole document into the entries of its root table.  A
document is a list of lines, each blank, a header or an entry; an entry may
run over several lines inside a string or an array.  Values nest at most
`maxDepth - 1` deep, so the depth still allowed is what the recursion follows.
-/

namespace BitCodec.Toml

/-! ## Values -/

/-- The rest of an array behind its opening bracket or a comma. -/
def items? (item? : List Char → Option (Value × List Char)) :
    (limit : Nat) → List Char → Option (List Value × List Char)
  | 0, _ => none
  | limit + 1, cs => do
    match ← skipSpace false cs with
    | ']' :: rest => some ([], rest)
    | cs =>
      let (item, rest) ← item? cs
      match ← skipSpace false rest with
      | ']' :: rest => some ([item], rest)
      | ',' :: rest =>
        let (items, rest) ← items? item? limit rest
        some (item :: items, rest)
      | _ => none

/-- Take a key, the equals sign and the value. -/
def entry? (item? : List Char → Option (Value × List Char)) (cs : List Char) :
    Option ((List String × String × Value) × List Char) := do
  let (path, key, rest) ← key? cs
  match rest with
  | '=' :: rest =>
    let (item, rest) ← item? (skipBlanks rest)
    some ((path, key, item), skipBlanks rest)
  | _ => none

/-- The rest of an inline table that has an entry to come. -/
def inlineEntries? (item? : List Char → Option (Value × List Char)) :
    (limit : Nat) → Entries → List Char → Option (Entries × List Char)
  | 0, _, _ => none
  | limit + 1, entries, cs => do
    let ((path, key, item), rest) ← entry? item? cs
    let entries ← entries.addDotted path key item
    match rest with
    | '}' :: rest => some (entries, rest)
    | ',' :: rest => inlineEntries? item? limit entries rest
    | _ => none

def scalar? : List Char → Option (Value × List Char)
  | 't' :: 'r' :: 'u' :: 'e' :: rest => some (.boolean true, rest)
  | 'f' :: 'a' :: 'l' :: 's' :: 'e' :: rest => some (.boolean false, rest)
  | cs =>
    match string? cs with
    | some (text, rest) => some (.string (String.ofList text), rest)
    | none =>
      match moment? cs with
      | some taken => some taken
      | none => number? cs

/-- Take a value that nests at most `depth` deep. -/
def value? : (depth : Nat) → List Char → Option (Value × List Char)
  | 0, cs => scalar? cs
  | depth + 1, cs =>
    match cs with
    | '[' :: rest => do
      let (items, rest) ← items? (value? depth) (rest.length + 1) rest
      some (.array items, rest)
    | '{' :: rest =>
      match skipBlanks rest with
      | '}' :: rest => some (.table .inline [], rest)
      | rest => do
        let (entries, rest) ← inlineEntries? (value? depth) (rest.length + 1) [] rest
        some (.table .inline entries, rest)
    | cs => scalar? cs

/-! ## Lines -/

/-- A document that has been read in part: its entries, and the path of the
header that the next entry stands under. -/
structure Draft where
  entries : Entries := []
  header : List String := []

/-- Take the header of one of several tables, behind its brackets. -/
def tablesHeader? (draft : Draft) (cs : List Char) : Option (Draft × List Char) := do
  let (path, key, rest) ← key? cs
  match rest with
  | ']' :: ']' :: rest =>
    let entries ← draft.entries.within (·.openNext key) path
    some (⟨entries, path ++ [key]⟩, rest)
  | _ => none

/-- Take the header of a table, behind its bracket. -/
def tableHeader? (draft : Draft) (cs : List Char) : Option (Draft × List Char) := do
  let (path, key, rest) ← key? cs
  match rest with
  | ']' :: rest =>
    let entries ← draft.entries.within (·.openTable key) path
    some (⟨entries, path ++ [key]⟩, rest)
  | _ => none

def statement? (draft : Draft) : List Char → Option (Draft × List Char)
  | '[' :: '[' :: rest => tablesHeader? draft rest
  | '[' :: rest => tableHeader? draft rest
  | cs => do
    let ((path, key, item), rest) ← entry? (value? (maxDepth - 1)) cs
    let entries ← draft.entries.within (·.addDotted path key item) draft.header
    some (⟨entries, draft.header⟩, rest)

def lines? : (limit : Nat) → Draft → List Char → Option Entries
  | 0, _, _ => none
  | limit + 1, draft, cs =>
    match skipBlanks cs with
    | [] => some draft.entries
    | cs =>
      match lineEnd? cs with
      | some rest => lines? limit draft rest
      | none => do
        let (draft, rest) ← statement? draft cs
        lines? limit draft (← lineEnd? rest)

def skipMark : List Char → List Char
  | '\ufeff' :: rest => rest
  | cs => cs

def parse? (text : String) : Option Entries :=
  let cs := skipMark text.toList
  lines? (cs.length + 1) {} cs

end BitCodec.Toml
