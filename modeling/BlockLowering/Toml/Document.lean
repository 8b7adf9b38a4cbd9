/-!
The tree that a TOML document builds up. A table may be opened once by a header and once more by the
dotted keys of its parent, but not both; a table that only stood on the way to another one may still be
opened. Every other second definition is refused.
-/
namespace BlockLowering.Toml

/-- A value. Settings are texts and truth values, so that of other values only the form is checked. -/
inductive Value where
  | string (value : String)
  | boolean (value : Bool)
  | other
  deriving DecidableEq, Repr

inductive Item where
  | value (v : Value)
  /-- A table; one that no header opened is implicit, and dotted if dotted keys made it. -/
  | table (isImplicit isDotted : Bool) (entries : List (String × Item))
  /-- An array of tables, with the last one first. -/
  | tables (last : List (String × Item)) (earlier : List (List (String × Item)))

/-- The contents of a table in the order of definition. -/
abbrev Entries := List (String × Item)

namespace Entries

def replace (key : String) (item : Item) : Entries → Entries
  | [] => []
  | e :: rest => if e.1 = key then (key, item) :: rest else e :: replace key item rest

def insertValue (key : String) (v : Value) : List String → Entries → Option Entries
  | [], entries =>
    match entries.lookup key with
    | some _ => none
    | none => some (entries ++ [(key, .value v)])
  | step :: path, entries =>
    match entries.lookup step with
    | none => (insertValue key v path []).map fun inner => entries ++ [(step, .table true true inner)]
    | some (.table isImplicit isDotted inner) =>
      if !isImplicit || (path.isEmpty && !isDotted) then none
      else (insertValue key v path inner).map fun inner => replace step (.table true isDotted inner) entries
    | some (.tables last earlier) =>
      if path.isEmpty then none
      else (insertValue key v path last).map fun inner => replace step (.tables inner earlier) entries
    | some (.value _) => none

/-- Change the table that a path of headers leads to; missing tables on the way are made. -/
def descend (f : Entries → Option Entries) : List String → Entries → Option Entries
  | [], entries => f entries
  | step :: path, entries =>
    match entries.lookup step with
    | none => (descend f path []).map fun inner => entries ++ [(step, .table true false inner)]
    | some (.table isImplicit isDotted inner) =>
      (descend f path inner).map fun inner => replace step (.table isImplicit isDotted inner) entries
    | some (.tables last earlier) =>
      (descend f path last).map fun inner => replace step (.tables inner earlier) entries
    | some (.value _) => none

/-- Open a table under a header whose last part is `key`. -/
def openTable (key : String) (entries : Entries) : Option Entries :=
  match entries.lookup key with
  | none => some (entries ++ [(key, .table false false [])])
  | some (.table true false inner) => some (replace key (.table false false inner) entries)
  | some _ => none

def openRow (key : String) (entries : Entries) : Option Entries :=
  match entries.lookup key with
  | none => some (entries ++ [(key, .tables [] [])])
  | some (.tables last earlier) => some (replace key (.tables [] (last :: earlier)) entries)
  | some _ => none

end Entries

end BlockLowering.Toml
