/-!
# Quoted text

Text in a log line stands between double quotes. Inside them a quote of either kind and a backslash
get a backslash, the usual control characters have short names, and every other control character
is written as its number in hexadecimal, so a log line never breaks and can be read back.
-/

set_option autoImplicit false

namespace Sidecar.Text

/-- A control character without a short name: the first thirty-two, the delete character, and the
thirty-two after it. -/
def isControl (c : Char) : Bool := c.toNat < 32 || (127 ≤ c.toNat && c.toNat < 160)

/-- One character between quotes. -/
def quotedChar (c : Char) : String :=
  match c with
  | '"' => "\\\""
  | '\'' => "\\'"
  | '\\' => "\\\\"
  | '\n' => "\\n"
  | '\r' => "\\r"
  | '\t' => "\\t"
  | '\x00' => "\\0"
  | c =>
    if isControl c then "\\u\x7b" ++ String.ofList (Nat.toDigits 16 c.toNat) ++ "\x7d"
    else c.toString

/-- A text between quotes. -/
def quoted (text : String) : String := "\"" ++ String.join (text.toList.map quotedChar) ++ "\""

end Sidecar.Text
