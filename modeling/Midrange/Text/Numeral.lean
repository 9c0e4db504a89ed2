import Midrange.Text.Format
import Midrange.Text.Lines
import Midrange.Text.Quoted

namespace Midrange.Text

/-- The code points of the digits zero of Unicode: each one opens a run of ten decimal digits. -/
def decimalZeros : List Nat := [
    0x30, 0x660, 0x6f0, 0x7c0, 0x966, 0x9e6, 0xa66, 0xae6, 0xb66, 0xbe6, 0xc66, 0xce6, 0xd66, 0xde6,
    0xe50, 0xed0, 0xf20, 0x1040, 0x1090, 0x17e0, 0x1810, 0x1946, 0x19d0, 0x1a80, 0x1a90, 0x1b50,
    0x1bb0, 0x1c40, 0x1c50, 0xa620, 0xa8d0, 0xa900, 0xa9d0, 0xa9f0, 0xaa50, 0xabf0, 0xff10, 0x104a0,
    0x10d30, 0x11066, 0x110f0, 0x11136, 0x111d0, 0x112f0, 0x11450, 0x114d0, 0x11650, 0x116c0,
    0x11730, 0x118e0, 0x11950, 0x11c50, 0x11d50, 0x11da0, 0x16a60, 0x16ac0, 0x16b50, 0x1d7ce,
    0x1d7d8, 0x1d7e2, 0x1d7ec, 0x1d7f6, 0x1e140, 0x1e2f0, 0x1e950, 0x1fbf0]

/-- The ranges of the digits that are not decimal: superscripts, circled digits and the like. -/
def figureRanges : List (Nat × Nat) := [
    (0xb2, 0xb3), (0xb9, 0xb9), (0x1369, 0x1371), (0x19da, 0x19da), (0x2070, 0x2070),
    (0x2074, 0x2079), (0x2080, 0x2089), (0x2460, 0x2468), (0x2474, 0x247c), (0x2488, 0x2490),
    (0x24ea, 0x24ea), (0x24f5, 0x24fd), (0x24ff, 0x24ff), (0x2776, 0x277e), (0x2780, 0x2788),
    (0x278a, 0x2792), (0x10a40, 0x10a43), (0x10e60, 0x10e68), (0x11052, 0x1105a),
    (0x1f100, 0x1f10a)]

/-- The value of a decimal digit of any script. -/
def decimalValue? (c : Char) : Option Nat :=
  (decimalZeros.find? fun first => first ≤ c.toNat && c.toNat ≤ first + 9).map (c.toNat - ·)

/-- The characters that count as digits, whether or not a numeral may hold them. -/
def isDigit (c : Char) : Bool :=
  (decimalValue? c).isSome || figureRanges.any fun (low, high) => low ≤ c.toNat && c.toNat ≤ high

/-- The two bases in which numbers are written. -/
inductive Radix where
  | decimal
  | hexadecimal
  deriving DecidableEq, Repr

namespace Radix

def size : Radix → Nat
  | decimal => 10
  | hexadecimal => 16

/-- The value of a digit: a decimal digit of any script, and the letters of ASCII beyond nine. -/
def digit? (radix : Radix) (c : Char) : Option Nat :=
  match radix, decimalValue? c with
  | _, some value => some value
  | hexadecimal, none => hexDigitValue? c
  | decimal, none => none

end Radix

/-- The digits of a number in which single underscores may stand between two digits. -/
def digitRun? (radix : Radix) : List Char → Option (List Nat)
  | [] => none
  | [c] => (radix.digit? c).map fun value => [value]
  | c :: '_' :: rest => do return (← radix.digit? c) :: (← digitRun? radix rest)
  | c :: rest => do return (← radix.digit? c) :: (← digitRun? radix rest)

/-- The number that digits spell, the most significant first. -/
def digitsValue (radix : Radix) (digits : List Nat) : Nat :=
  digits.foldl (fun value digit => value * radix.size + digit) 0

/-- The most digits that a decimal number may have. -/
def decimalDigitLimit : Nat := 4300

/-- A number without its sign. A hexadecimal one may be led by `0x` and one underscore. -/
def magnitude? (radix : Radix) (text : List Char) : Option Nat := do
  let body :=
    match radix, text with
    | .hexadecimal, first :: mark :: rest =>
      if decimalValue? first = some 0 ∧ (mark = 'x' ∨ mark = 'X') then
        match rest with
        | '_' :: digits => digits
        | digits => digits
      else text
    | _, _ => text
  let digits ← digitRun? radix body
  if radix = .decimal ∧ decimalDigitLimit < digits.length then none
  else some (digitsValue radix digits)

/-- A number of the given base: blanks around it are passed over and one sign may lead it. -/
def integer? (radix : Radix) (text : List Char) : Option Int :=
  match trim isNumeralBlank text with
  | '-' :: rest => (magnitude? radix rest).map fun value => -(value : Int)
  | '+' :: rest => (magnitude? radix rest).map fun value => (value : Int)
  | rest => (magnitude? radix rest).map fun value => (value : Int)

/-- Why a text is no number. -/
inductive NumeralFault where
  | unrecognized (text : String)
  | malformed
  deriving DecidableEq, Repr

def NumeralFault.message : NumeralFault → String
  | unrecognized text => "not a number: " ++ quoted text
  | malformed => "malformed number"

/-- A number in one of the notations for addresses: hexadecimal behind `0x` or `$` or in front of
    `h`, else decimal. The marks choose the base before any digit is read. -/
def readNumeral (text : List Char) : Except NumeralFault Int :=
  let text := trim isBlank text
  let number (radix : Radix) (digits : List Char) : Except NumeralFault Int :=
    match integer? radix digits with
    | some value => .ok value
    | none => .error .malformed
  let suffixed := text.getLast?.any (fun c => c == 'h' || c == 'H') && text.head?.any isDigit
  match text with
  | '0' :: 'x' :: _ => number .hexadecimal text
  | '0' :: 'X' :: _ => number .hexadecimal text
  | '$' :: rest => number .hexadecimal rest
  | _ =>
    if suffixed then number .hexadecimal text.dropLast
    else if !text.isEmpty && text.all isDigit then number .decimal text
    else .error (.unrecognized (String.ofList text))

end Midrange.Text
