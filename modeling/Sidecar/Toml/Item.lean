/-!
# TOML items

A TOML document is a table, and a table is a list of keys with their items. Besides the values of
the format an item can be a table or an array of tables that headers opened. What may still be added
to a table depends on how it came about (`Origin`), so that is kept with it:

* a table opened by its own **header** may not be opened again;
* a table **implied** by a longer header may still get its own header;
* a table made by **dotted** keys grows by dotted keys only;
* an **inline** table is closed when it is written.

The two growing operations, `assign` for a key with its value and `openHeader` and
`openArrayHeader` for a header with its body, refuse everything else.
-/

set_option autoImplicit false

namespace Sidecar.Toml

/-- How a table came about. -/
inductive Origin where
  | header
  | implied
  | dotted
  | inline
  deriving DecidableEq, Repr

/-- What can stand behind a key. Numbers with a fraction and points in time are kept as written. -/
inductive Item where
  | text (value : String)
  | integer (value : Int)
  | float (written : String)
  | boolean (value : Bool)
  | dateTime (written : String)
  | array (items : List Item)
  | table (origin : Origin) (entries : List (String × Item))
  | tables (members : List (List (String × Item)))
  deriving Repr, Inhabited

/-- The content of a table. -/
abbrev Entries := List (String × Item)

namespace Entries

/-- The item behind a key. -/
def get? (entries : Entries) (key : String) : Option Item := entries.lookup key

/-- Puts an item behind a key, in place of an earlier one. -/
def set (entries : Entries) (key : String) (item : Item) : Entries :=
  if (entries.lookup key).isSome then
    entries.map fun entry => if entry.1 = key then (key, item) else entry
  else entries ++ [(key, item)]

/-- Adds a key, which must be new. -/
def insertNew (entries : Entries) (key : String) (item : Item) : Option Entries :=
  if (entries.lookup key).isSome then none else some (entries ++ [(key, item)])

/-- Writes a value behind a dotted key. The tables on the way are made as needed; the last of them
must have been made by dotted keys, and no table with a header of its own may be on the way. -/
def assign (entries : Entries) (key : String) (item : Item) : List String → Option Entries
  | [] => entries.insertNew key item
  | step :: rest =>
    match entries.get? step with
    | none => do
      let inner ← assign [] key item rest
      return entries.set step (.table .dotted inner)
    | some (.table .dotted inner) => do
      let inner ← assign inner key item rest
      return entries.set step (.table .dotted inner)
    | some (.table .implied inner) =>
      if rest.isEmpty then none
      else do
        let inner ← assign inner key item rest
        return entries.set step (.table .implied inner)
    | some (.tables members) =>
      if rest.isEmpty then none
      else do
        let last ← members.getLast?
        let last ← assign last key item rest
        return entries.set step (.tables (members.dropLast ++ [last]))
    | some _ => none

/-- Applies a change to the table that the steps of a header lead to. Missing tables on the way are
implied; of an array of tables the last member is meant. -/
def within (change : Entries → Option Entries) (entries : Entries) : List String → Option Entries
  | [] => change entries
  | step :: rest =>
    match entries.get? step with
    | none => do
      let inner ← within change [] rest
      return entries.set step (.table .implied inner)
    | some (.table .inline _) => none
    | some (.table origin inner) => do
      let inner ← within change inner rest
      return entries.set step (.table origin inner)
    | some (.tables members) => do
      let last ← members.getLast?
      let last ← within change last rest
      return entries.set step (.tables (members.dropLast ++ [last]))
    | some _ => none

/-- Opens the table of a header and fills it. -/
def openHeader (fill : Entries → Option Entries) (key : String) (entries : Entries) :
    Option Entries :=
  match entries.get? key with
  | none => do return entries.set key (.table .header (← fill []))
  | some (.table .implied inner) => do return entries.set key (.table .header (← fill inner))
  | some _ => none

/-- Adds a member to the array of tables of a header and fills it. -/
def openArrayHeader (fill : Entries → Option Entries) (key : String) (entries : Entries) :
    Option Entries :=
  match entries.get? key with
  | none => do return entries.set key (.tables [← fill []])
  | some (.tables members) => do return entries.set key (.tables (members ++ [← fill []]))
  | some _ => none

end Entries

end Sidecar.Toml
