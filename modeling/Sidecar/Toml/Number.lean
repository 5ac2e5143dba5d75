import Sidecar.Toml.Item
import Sidecar.Toml.Scan

/-!
# TOML numbers

An integer is decimal with an optional sign, or hexadecimal, octal or binary without one, and must
lie in the signed 64-bit range. A decimal number has no leading zero. A number with a fraction or an
exponent is a float; of it only its text is kept, after a check that it does not round to positive
infinity.
-/

set_option autoImplicit false

namespace Sidecar.Toml.Number

open Scan

/-- An optional sign: whether it is a minus, and what follows. -/
def sign : List Char → Bool × List Char
  | '-' :: rest => (true, rest)
  | '+' :: rest => (false, rest)
  | rest => (false, rest)

/-- The digits of a decimal integer part: a zero alone, or digits that start with another. -/
def integerPart : Reader (List Char)
  | '0' :: rest => some (['0'], rest)
  | text => digits 10 text

/-- The integers of the format. -/
def inRange (n : Int) : Bool := -9223372036854775808 ≤ n && n ≤ 9223372036854775807

/-- Keeps an integer that the format can hold. -/
def checked (n : Int) (rest : List Char) : Option (Item × List Char) :=
  if inRange n then some (.integer n, rest) else none

/-- Reads digits of a base that is announced by its own letter. -/
def based (base : Nat) (text : List Char) : Option (Item × List Char) := do
  let (ds, rest) ← digits base text
  checked (numberOf base ds) rest

/-- Reads an integer. -/
def integer : Reader Item
  | '0' :: 'x' :: rest => based 16 rest
  | '0' :: 'o' :: rest => based 8 rest
  | '0' :: 'b' :: rest => based 2 rest
  | text => do
    let (negative, text) := sign text
    let (ds, rest) ← integerPart text
    let n : Int := numberOf 10 ds
    checked (if negative then -n else n) rest

/-! ## Floats -/

/-- Reads a fraction after its point. -/
def fraction : Reader (List Char)
  | '.' :: rest => digits 10 rest
  | _ => none

/-- Reads an exponent after its letter. -/
def exponent : Reader Int
  | c :: rest => do
    if c ≠ 'e' && c ≠ 'E' then none
    let (negative, rest) := sign rest
    let (ds, rest) ← digits 10 rest
    let n : Int := numberOf 10 ds
    return (if negative then -n else n, rest)
  | [] => none

/-- Whether digits, scaled by a power of ten, round to infinity in double precision: they reach
the midpoint above the largest finite number. -/
def overflows (ds : List Char) (scale : Int) : Bool :=
  let n := numberOf 10 ds
  let magnitude : Int := (Nat.toDigits 10 n).length + scale
  if n = 0 || magnitude < 300 then false
  else if 320 < magnitude then true
  else
    let limit := Nat.pow 2 1024 - Nat.pow 2 970
    if 0 ≤ scale then limit ≤ n * Nat.pow 10 scale.toNat
    else limit * Nat.pow 10 (-scale).toNat ≤ n

/-- Reads the special numbers. -/
def special (text : List Char) : Option (Item × List Char) :=
  let rest := (sign text).2
  match expect ['i', 'n', 'f'] rest, expect ['n', 'a', 'n'] rest with
  | some left, _ => some (.float "inf", left)
  | none, some left => some (.float "nan", left)
  | none, none => none

/-- Reads a number with a fraction, an exponent, or both. -/
def scaled (text : List Char) : Option (Item × List Char) := do
  let (negative, unsigned) := sign text
  let (whole, afterWhole) ← integerPart unsigned
  let (part, afterPart) := (fraction afterWhole).getD ([], afterWhole)
  let (power, rest) := (exponent afterPart).getD (0, afterPart)
  if part.isEmpty && (exponent afterPart).isNone then none
  if !negative && overflows (whole ++ part) (power - part.length) then none
  return (.float (String.ofList (text.take (text.length - rest.length))), rest)

/-- Reads a float. -/
def float (text : List Char) : Option (Item × List Char) := scaled text <|> special text

end Sidecar.Toml.Number
