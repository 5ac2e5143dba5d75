/-!
# Scanning

The parts of TOML that carry no value: blanks, line ends and comments; and the shape that every
reader of the format shares. A reader takes the characters that are left and answers with what it
read and what is left after that, or with nothing when the text does not fit.
-/

set_option autoImplicit false

namespace Sidecar.Toml

/-- Reads something off the front of a text. -/
abbrev Reader (α : Type) := List Char → Option (α × List Char)

namespace Scan

/-- A blank within a line. -/
def isBlank (c : Char) : Bool := c == ' ' || c == '\t'

/-- A character that may stand in a comment or a literal: no control character but the tab. -/
def isPrintable (c : Char) : Bool := c == '\t' || (' ' ≤ c && c != '\x7f')

/-- What follows the blanks at the front. -/
def skipBlanks (text : List Char) : List Char := text.dropWhile isBlank

/-- Reads the end of a line, if one stands at the front. -/
def newline? : List Char → Option (List Char)
  | '\n' :: rest => some rest
  | '\r' :: '\n' :: rest => some rest
  | _ => none

/-- What follows the rest of a line: nothing but blanks and a comment may stand before its end. -/
def endOfLine (text : List Char) : Option (List Char) :=
  let text := match skipBlanks text with
    | '#' :: comment => comment.dropWhile isPrintable
    | other => other
  if text.isEmpty then some [] else newline? text

/-- What follows the blanks, line ends and comments at the front. -/
def skipLines : Nat → List Char → List Char
  | 0, text => text
  | fuel + 1, text =>
    match skipBlanks text with
    | '#' :: comment => skipLines fuel (comment.dropWhile isPrintable)
    | other => match newline? other with
      | some rest => skipLines fuel rest
      | none => other

/-- Skips blanks, line ends and comments as long as there are any. -/
def skipSpace (text : List Char) : List Char := skipLines (text.length + 1) text

/-- The value of a digit of any base up to sixteen. -/
def digitValue (c : Char) : Nat :=
  if c.isDigit then c.toNat - '0'.toNat
  else if 'a' ≤ c && c ≤ 'f' then c.toNat - 'a'.toNat + 10
  else if 'A' ≤ c && c ≤ 'F' then c.toNat - 'A'.toNat + 10
  else 16

/-- Whether a character is a digit of the base. -/
def isDigitOf (base : Nat) (c : Char) : Bool := digitValue c < base

/-- The number that digits of a base stand for. -/
def numberOf (base : Nat) (digits : List Char) : Nat :=
  digits.foldl (fun n c => n * base + digitValue c) 0

/-- The digits that continue a number. A single underscore may stand between two digits and is left
out of what is read. -/
def moreDigits (base : Nat) : List Char → List Char × List Char
  | '_' :: c :: rest =>
    if isDigitOf base c then
      let (read, left) := moreDigits base rest
      (c :: read, left)
    else ([], '_' :: c :: rest)
  | c :: rest =>
    if isDigitOf base c then
      let (read, left) := moreDigits base rest
      (c :: read, left)
    else ([], c :: rest)
  | [] => ([], [])

/-- One or more digits of a base. -/
def digits (base : Nat) : Reader (List Char)
  | c :: rest =>
    if isDigitOf base c then
      let (read, left) := moreDigits base rest
      some (c :: read, left)
    else none
  | [] => none

/-- A fixed number of decimal digits, as a number within bounds. -/
def fixedNumber (width low high : Nat) (text : List Char) : Option (Nat × List Char) :=
  let front := text.take width
  if front.length = width && front.all Char.isDigit then
    let n := numberOf 10 front
    if low ≤ n && n ≤ high then some (n, text.drop width) else none
  else none

/-- The rest of a text after a given beginning. -/
def expect (beginning : List Char) (text : List Char) : Option (List Char) :=
  if beginning.isPrefixOf text then some (text.drop beginning.length) else none

end Scan

end Sidecar.Toml
