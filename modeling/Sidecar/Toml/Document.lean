import Sidecar.Toml.DateTime
import Sidecar.Toml.Number
import Sidecar.Toml.Text

/-!
# TOML documents

A document is read in two steps. `Document.statements` splits it into statements, one a line: a key
with its value, a header, or a header of an array of tables. `Document.table` then carries the
statements out in order, a header together with the keys below it.

Nesting is bounded: arrays and inline tables may stand inside each other to a depth of 79, and a
dotted key has at most 79 parts. The bound makes reading a value a recursion on what is left of it.
-/

set_option autoImplicit false

namespace Sidecar.Toml

open Scan

/-! ## Keys -/

namespace Key

/-- A character of a key that is written without quotes. -/
def isBare (c : Char) : Bool := c.isAlphanum || c == '-' || c == '_'

/-- Reads one part of a key. -/
def part (text : List Char) : Option (String × List Char) :=
  match text.takeWhile isBare with
  | [] => Text.short text
  | bare => some (String.ofList bare, text.dropWhile isBare)

/-- Reads the parts of a dotted key, with the blanks around them. -/
def parts : Nat → Reader (List String)
  | 0, _ => none
  | fuel + 1, text => do
    let (first, rest) ← part (skipBlanks text)
    match skipBlanks rest with
    | '.' :: more => do
      let (others, rest) ← parts fuel more
      return (first :: others, rest)
    | rest => return ([first], rest)

/-- The number of parts that a key may have. -/
def maxParts : Nat := 79

/-- Reads a key as the parts before its last, and its last. -/
def read (text : List Char) : Option ((List String × String) × List Char) := do
  let (all, rest) ← parts maxParts text
  let last ← all.getLast?
  return ((all.dropLast, last), rest)

end Key

/-! ## Values -/

namespace Value

/-- Reads the items of an array after its opening bracket, with the closing one. -/
def arrayItems (item : Reader Item) : Nat → Reader (List Item)
  | 0, _ => none
  | fuel + 1, text =>
    match skipSpace text with
    | ']' :: rest => some ([], rest)
    | text => do
      let (first, rest) ← item text
      match skipSpace rest with
      | ']' :: rest => return ([first], rest)
      | ',' :: rest => do
        let (others, rest) ← arrayItems item fuel rest
        return (first :: others, rest)
      | _ => none

/-- Reads a key, an equals sign and a value, with the blanks around them. -/
def keyed (item : Reader Item) : Reader ((List String × String) × Item) := fun text => do
  let (key, rest) ← Key.read text
  let rest ← expect ['='] rest
  let (value, rest) ← item (skipBlanks rest)
  return ((key, value), skipBlanks rest)

/-- Reads the entries of an inline table after its opening brace, with the closing one. -/
def inlineEntries (item : Reader Item) : Nat → Entries → Reader Entries
  | 0, _, _ => none
  | fuel + 1, entries, text => do
    let (((path, key), value), rest) ← keyed item text
    let entries ← entries.assign key value path
    match rest with
    | '\x7d' :: rest => return (entries, rest)
    | ',' :: rest => inlineEntries item fuel entries rest
    | _ => none

/-- Reads an inline table after its opening brace. -/
def inlineTable (item : Reader Item) : Reader Entries := fun text =>
  match skipBlanks text with
  | '\x7d' :: rest => some ([], rest)
  | text => inlineEntries item (text.length + 1) [] text

/-- Reads a word. -/
def boolean (text : List Char) : Option (Item × List Char) :=
  match expect ['t', 'r', 'u', 'e'] text, expect ['f', 'a', 'l', 's', 'e'] text with
  | some rest, _ => some (.boolean true, rest)
  | none, some rest => some (.boolean false, rest)
  | none, none => none

/-- Reads a value that holds no other. -/
def simple : Reader Item
  | [] => none
  | c :: rest =>
    if c = '"' || c = '\'' then
      (Text.read (c :: rest)).map fun (value, left) => (.text value, left)
    else if c = 't' || c = 'f' then boolean (c :: rest)
    else if c = 'i' || c = 'n' then Number.special (c :: rest)
    else if c = '+' || c = '-' || c.isDigit then
      DateTime.read (c :: rest) <|> Number.float (c :: rest) <|> Number.integer (c :: rest)
    else none

/-- Reads a value whose arrays and inline tables nest no deeper than allowed. -/
def read : Nat → Reader Item
  | 0, text =>
    match text with
    | '[' :: _ | '\x7b' :: _ => none
    | text => simple text
  | allowance + 1, text =>
    match text with
    | '[' :: rest =>
      (arrayItems (read allowance) (rest.length + 1) rest).map fun (items, left) =>
        (.array items, left)
    | '\x7b' :: rest =>
      (inlineTable (read allowance) rest).map fun (entries, left) =>
        (.table .inline entries, left)
    | text => simple text

/-- The depth to which arrays and inline tables may nest. -/
def maxDepth : Nat := 79

end Value

/-! ## Statements -/

/-- A line of a document. -/
inductive Statement where
  | assign (path : List String) (key : String) (value : Item)
  | header (path : List String) (key : String)
  | arrayHeader (path : List String) (key : String)
  deriving Repr, Inhabited

/-- A header, with the keys that stand below it. -/
structure Section where
  isArray : Bool
  path : List String
  key : String
  body : List (List String × String × Item)
  deriving Repr

namespace Document

/-- Reads one statement with the end of its line; an empty line holds none. -/
def statement (text : List Char) : Option (Option Statement × List Char) :=
  match skipBlanks text with
  | '[' :: '[' :: rest => do
    let ((path, key), rest) ← Key.read rest
    let rest ← expect [']', ']'] rest
    return (some (.arrayHeader path key), ← endOfLine rest)
  | '[' :: rest => do
    let ((path, key), rest) ← Key.read rest
    let rest ← expect [']'] rest
    return (some (.header path key), ← endOfLine rest)
  | rest =>
    match endOfLine rest with
    | some left => some (none, left)
    | none => do
      let (((path, key), value), rest) ← Value.keyed (Value.read Value.maxDepth) rest
      return (some (.assign path key value), ← endOfLine rest)

/-- Reads the statements of a document. -/
def statements : Nat → List Char → Option (List Statement)
  | 0, _ => none
  | fuel + 1, text =>
    if text.isEmpty then some []
    else do
      let (first, rest) ← statement text
      let others ← statements fuel rest
      return first.toList ++ others

/-- Splits statements into the keys before the first header and the sections that follow. -/
def sections : List Statement → List (List String × String × Item) × List Section
  | [] => ([], [])
  | .assign path key value :: rest =>
    let (body, others) := sections rest
    ((path, key, value) :: body, others)
  | .header path key :: rest =>
    let (body, others) := sections rest
    ([], ⟨false, path, key, body⟩ :: others)
  | .arrayHeader path key :: rest =>
    let (body, others) := sections rest
    ([], ⟨true, path, key, body⟩ :: others)

/-- Writes the keys of a body into a table. -/
def fill (body : List (List String × String × Item)) (entries : Entries) : Option Entries :=
  body.foldlM (fun entries (path, key, value) => entries.assign key value path) entries

/-- Carries out one section on the table of the whole document. -/
def carryOut (entries : Entries) (part : Section) : Option Entries :=
  let change := if part.isArray then Entries.openArrayHeader else Entries.openHeader
  entries.within (change (fill part.body) part.key) part.path

/-- The table that statements describe. -/
def table (all : List Statement) : Option Entries := do
  let (body, others) := sections all
  others.foldlM carryOut (← fill body [])

/-- Reads a document. A byte order mark before the text is not part of it. -/
def read (text : String) : Option Entries := do
  let text := match text.toList with
    | '\ufeff' :: rest => rest
    | other => other
  table (← statements (text.length + 1) text)

end Document

end Sidecar.Toml
