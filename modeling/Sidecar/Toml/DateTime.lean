import Sidecar.Toml.Item
import Sidecar.Toml.Scan

/-!
# TOML dates and times

A date, a time, or a date with a time and perhaps an offset. The day must exist in its month, and a
second may be a leap second. Only the text is kept: no setting of the subsystem is a point in time.
-/

set_option autoImplicit false

namespace Sidecar.Toml.DateTime

open Scan

/-- The number of days of a month. -/
def daysIn (year month : Nat) : Nat :=
  if month = 2 then
    if (year % 4 = 0 && year % 100 ≠ 0) || year % 400 = 0 then 29 else 28
  else if month = 4 || month = 6 || month = 9 || month = 11 then 30
  else 31

/-- What follows a date. -/
def date (text : List Char) : Option (List Char) := do
  let (year, rest) ← fixedNumber 4 0 9999 text
  let rest ← expect ['-'] rest
  let (month, rest) ← fixedNumber 2 1 12 rest
  let rest ← expect ['-'] rest
  let (_, rest) ← fixedNumber 2 1 (daysIn year month) rest
  return rest

/-- What follows a time of day. -/
def time (text : List Char) : Option (List Char) := do
  let (_, rest) ← fixedNumber 2 0 23 text
  let rest ← expect [':'] rest
  let (_, rest) ← fixedNumber 2 0 59 rest
  let rest ← expect [':'] rest
  let (_, rest) ← fixedNumber 2 0 60 rest
  match rest with
  | '.' :: c :: more =>
    if c.isDigit then return more.dropWhile Char.isDigit else none
  | '.' :: [] => none
  | _ => return rest

/-- What follows an offset from universal time, if one is written. -/
def offset : List Char → Option (List Char)
  | 'Z' :: rest | 'z' :: rest => some rest
  | c :: rest =>
    if c = '+' || c = '-' then do
      let (_, rest) ← fixedNumber 2 0 23 rest
      let rest ← expect [':'] rest
      let (_, rest) ← fixedNumber 2 0 59 rest
      return rest
    else some (c :: rest)
  | [] => some []

/-- What follows a time of day after a date, if one is written. -/
def timeAfterDate : List Char → Option (List Char)
  | c :: rest =>
    if c = 'T' || c = 't' then do offset (← time rest)
    else if c = ' ' then
      match time rest with
      | some left => offset left
      | none => some (c :: rest)
    else some (c :: rest)
  | [] => some []

/-- Reads a date, a time, or both. -/
def read (text : List Char) : Option (Item × List Char) := do
  let rest ← match date text with
    | some rest => timeAfterDate rest
    | none => time text
  return (.dateTime (String.ofList (text.take (text.length - rest.length))), rest)

end Sidecar.Toml.DateTime
