import Sidecar.Toml.Scan

/-!
# TOML strings

A string is basic (with escapes) or literal (without), and either kind may span lines when its
delimiter is written three times. In the long forms a line end right after the opening delimiter is
not part of the value, one or two quotes may stand inside, and a closing run of up to five quotes
leaves its first two in the value. A backslash before a line end joins the lines.
-/

set_option autoImplicit false

namespace Sidecar.Toml.Text

open Scan

/-- The character that a code of hexadecimal digits names; surrogates name none. -/
def codePoint (width : Nat) (text : List Char) : Option (Char × List Char) :=
  let front := text.take width
  if front.length = width && front.all (isDigitOf 16) then
    let n := numberOf 16 front
    if n.isValidChar then some (Char.ofNat n, text.drop width) else none
  else none

/-- Reads an escape after its backslash. -/
def escape : Reader Char
  | 'b' :: rest => some ('\x08', rest)
  | 't' :: rest => some ('\t', rest)
  | 'n' :: rest => some ('\n', rest)
  | 'f' :: rest => some ('\x0c', rest)
  | 'r' :: rest => some ('\r', rest)
  | '"' :: rest => some ('"', rest)
  | '\\' :: rest => some ('\\', rest)
  | 'u' :: rest => codePoint 4 rest
  | 'U' :: rest => codePoint 8 rest
  | _ => none

/-- The body of a basic string on one line, with its closing quote. -/
def basicBody : Nat → Reader (List Char)
  | 0, _ => none
  | _ + 1, [] => none
  | _ + 1, '"' :: rest => some ([], rest)
  | fuel + 1, '\\' :: rest => do
    let (c, rest) ← escape rest
    let (more, rest) ← basicBody fuel rest
    return (c :: more, rest)
  | fuel + 1, c :: rest => do
    if !isPrintable c then none
    let (more, rest) ← basicBody fuel rest
    return (c :: more, rest)

/-- The body of a literal string on one line, with its closing quote. -/
def literalBody : Reader (List Char)
  | [] => none
  | '\'' :: rest => some ([], rest)
  | c :: rest => do
    if !isPrintable c then none
    let (more, rest) ← literalBody rest
    return (c :: more, rest)

/-- Splits off a run of up to five quotes. -/
def quoteRun (quote : Char) (text : List Char) : List Char × List Char :=
  let run := (text.take 5).takeWhile (· = quote)
  (run, text.drop run.length)

/-- What follows the blanks and line ends at the front. -/
def skipBlankLines : List Char → List Char
  | '\r' :: '\n' :: rest => skipBlankLines rest
  | c :: rest => if isBlank c || c = '\n' then skipBlankLines rest else c :: rest
  | [] => []

/-- Joins lines: skips the blanks and line ends after a backslash, if a line ends there. -/
def joinLines (text : List Char) : Option (List Char) :=
  (newline? (skipBlanks text)).map skipBlankLines

/-- The body of a string over several lines, with its closing delimiter. -/
def longBody (quote : Char) (escapes : Bool) : Nat → Reader (List Char)
  | 0, _ => none
  | fuel + 1, text =>
    match text with
    | [] => none
    | c :: rest =>
      if c = quote then
        let (run, left) := quoteRun quote text
        if 3 ≤ run.length then some (run.drop 3, left)
        else do
          let (more, left) ← longBody quote escapes fuel left
          return (run ++ more, left)
      else if escapes && c = '\\' then
        match joinLines rest with
        | some left => longBody quote escapes fuel left
        | none => do
          let (e, rest) ← escape rest
          let (more, rest) ← longBody quote escapes fuel rest
          return (e :: more, rest)
      else match newline? text with
        | some left => do
          let (more, left) ← longBody quote escapes fuel left
          return ('\n' :: more, left)
        | none => do
          if !isPrintable c then none
          let (more, rest) ← longBody quote escapes fuel rest
          return (c :: more, rest)

/-- What follows a line end at the front, or the text itself. -/
def afterNewline (text : List Char) : List Char := (newline? text).getD text

/-- Reads a string on one line, as a quoted key may be. -/
def short : Reader String
  | '"' :: rest => (basicBody (rest.length + 1) rest).map fun (cs, left) => (String.ofList cs, left)
  | '\'' :: rest => (literalBody rest).map fun (cs, left) => (String.ofList cs, left)
  | _ => none

/-- Reads a string of any of the four kinds. -/
def read (text : List Char) : Option (String × List Char) :=
  match text with
  | '"' :: '"' :: '"' :: rest =>
    (longBody '"' true (rest.length + 1) (afterNewline rest)).map fun (cs, left) =>
      (String.ofList cs, left)
  | '\'' :: '\'' :: '\'' :: rest =>
    (longBody '\'' false (rest.length + 1) (afterNewline rest)).map fun (cs, left) =>
      (String.ofList cs, left)
  | _ => short text

end Sidecar.Toml.Text
