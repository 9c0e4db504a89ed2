namespace Midrange.Text

/-- The value of a hexadecimal digit in either case. -/
def hexDigitValue? (c : Char) : Option Nat :=
  if '0' ≤ c ∧ c ≤ '9' then some (c.toNat - '0'.toNat)
  else if 'a' ≤ c ∧ c ≤ 'f' then some (c.toNat - 'a'.toNat + 10)
  else if 'A' ≤ c ∧ c ≤ 'F' then some (c.toNat - 'A'.toNat + 10)
  else none

/-- The upper-case hexadecimal digits of a number, the most significant first. -/
def hexDigits (value : Nat) : List Char :=
  (Nat.toDigits 16 value).map Char.toUpper

/-- Digits led by as many zeros as the width still needs. -/
def zeroPadded (width : Nat) (digits : List Char) : List Char :=
  List.replicate (width - digits.length) '0' ++ digits

/-- A number in upper-case hexadecimal, padded with zeros to a least width. A minus sign stands in
    front of the zeros and counts towards the width. -/
def hexadecimal (width : Nat) (value : Int) : String :=
  if value < 0 then String.ofList ('-' :: zeroPadded (width - 1) (hexDigits value.natAbs))
  else String.ofList (zeroPadded width (hexDigits value.natAbs))

/-- A number in hexadecimal behind the mark `0x`. -/
def hexLiteral (width : Nat) (value : Int) : String :=
  "0x" ++ hexadecimal width value

/-- The text followed by as many spaces as its column still needs; a longer text is kept whole. -/
def padRight (width : Nat) (text : String) : String :=
  text ++ String.ofList (List.replicate (width - text.length) ' ')

/-- Lines joined so that each one ends in a line feed. -/
def endLines (lines : List String) : String :=
  String.intercalate "\n" lines ++ "\n"

end Midrange.Text
