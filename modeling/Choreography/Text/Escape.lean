/-!
Byte strings as they are shown between quotes: every byte outside printable ASCII is written by
its octal code, so the text says exactly which bytes there are.
-/

namespace Choreography.Text

private def octalDigit (n : Nat) : Char := Char.ofNat ('0'.toNat + n % 8)

/-- One byte of a shown string. -/
def escapeByte (b : UInt8) : String :=
  if b == 0x5c then "\\\\"
  else if b == 0x09 then "\\t"
  else if b == 0x0a then "\\n"
  else if b == 0x22 then "\\\""
  else if 0x20 ≤ b && b ≤ 0x7e then String.singleton (Char.ofNat b.toNat)
  else
    let n := b.toNat
    "\\" ++ String.ofList [octalDigit (n / 64), octalDigit (n / 8), octalDigit n]

/-- The bytes of a text in UTF-8. -/
def bytes (s : String) : List UInt8 := s.toUTF8.toList

def escape (s : String) : String := String.join ((bytes s).map escapeByte)

/-- A byte string as programs and values show it. -/
def quoted (s : String) : String := "'" ++ escape s ++ "'"

/-- Strings are written between single or double quotes. -/
def isQuote (c : Char) : Bool := c.toNat == 0x27 || c.toNat == 0x22

/-- A string literal without its quotes. Text that does not begin and end with the same quote is
left as it is. -/
def unquote (s : String) : String :=
  match s.toList with
  | q :: rest =>
    if isQuote q && rest.getLast? == some q then String.ofList rest.dropLast else s
  | [] => s

/-- Items in quotes, separated by bare commas, between brackets. -/
def nameList (names : List String) : String :=
  "[" ++ String.intercalate "," (names.map fun n => "\"" ++ n ++ "\"") ++ "]"

end Choreography.Text
