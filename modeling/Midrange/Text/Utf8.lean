import Midrange.Text.Format

namespace Midrange.Text

/-- What is wrong with a run of bytes that encodes no character. -/
inductive Utf8Cause where
  | badStart
  | badContinuation
  | truncated
  deriving DecidableEq, Repr

def Utf8Cause.message : Utf8Cause → String
  | badStart => "invalid start byte"
  | badContinuation => "invalid continuation byte"
  | truncated => "unexpected end of data"

/-- The first place where bytes stop being UTF-8: the bytes that belong to the broken character,
    counted from their position in the whole. -/
structure Utf8Fault where
  position : Nat
  bytes : List UInt8
  cause : Utf8Cause
  deriving DecidableEq, Repr

def Utf8Fault.message (fault : Utf8Fault) : String :=
  let place :=
    match fault.bytes with
    | [byte] =>
      let digits := String.ofList (zeroPadded 2 (Nat.toDigits 16 byte.toNat))
      s!"byte 0x{digits} in position {fault.position}"
    | bytes =>
      let last := fault.position + bytes.length - 1
      s!"bytes in position {fault.position}-{last}"
  s!"'utf-8' codec can't decode {place}: {fault.cause.message}"

/-- The number of continuation bytes that a leading byte announces. -/
def continuationCount? (lead : UInt8) : Option Nat :=
  if lead < 0x80 then some 0
  else if 0xc2 ≤ lead && lead ≤ 0xdf then some 1
  else if 0xe0 ≤ lead && lead ≤ 0xef then some 2
  else if 0xf0 ≤ lead && lead ≤ 0xf4 then some 3
  else none

/-- Whether a byte may come second. Behind some leading bytes the range is narrower, which keeps out
    overlong forms, surrogates and everything beyond the last code point. -/
def isSecondByte (lead byte : UInt8) : Bool :=
  let low : UInt8 := if lead == 0xe0 then 0xa0 else if lead == 0xf0 then 0x90 else 0x80
  let high : UInt8 := if lead == 0xed then 0x9f else if lead == 0xf4 then 0x8f else 0xbf
  low ≤ byte && byte ≤ high

def isContinuationByte (byte : UInt8) : Bool :=
  0x80 ≤ byte && byte ≤ 0xbf

/-- The longest run of bytes, of at most a given number, that continues a leading byte. -/
def continuation (lead : UInt8) (count : Nat) (bytes : List UInt8) : List UInt8 :=
  match count, bytes with
  | 0, _ => []
  | _, [] => []
  | count + 1, second :: rest =>
    if isSecondByte lead second then second :: (rest.take count).takeWhile isContinuationByte
    else []

/-- The bits that a leading byte contributes to its character. -/
def leadBits (lead : UInt8) (count : Nat) : Nat :=
  match count with
  | 0 => lead.toNat
  | 1 => lead.toNat % 0x20
  | 2 => lead.toNat % 0x10
  | _ => lead.toNat % 0x08

/-- The character that a leading byte and its continuation encode. -/
def utf8Char (lead : UInt8) (more : List UInt8) : Char :=
  Char.ofNat (more.foldl (fun code byte => code * 0x40 + byte.toNat % 0x40)
    (leadBits lead more.length))

/-- One character and the number of its bytes behind the leading one, or the broken bytes. -/
def utf8Step (lead : UInt8) (rest : List UInt8) : Except (List UInt8 × Utf8Cause) (Char × Nat) :=
  match continuationCount? lead with
  | none => .error ([lead], .badStart)
  | some count =>
    let more := continuation lead count rest
    if more.length = count then .ok (utf8Char lead more, count)
    else if more.length = rest.length then .error (lead :: more, .truncated)
    else .error (lead :: more, .badContinuation)

/-- The characters of UTF-8 bytes that stand at a position; some bytes in front of them already
    belong to an earlier character. -/
def utf8From (position skip : Nat) : List UInt8 → Except Utf8Fault (List Char)
  | [] => .ok []
  | lead :: rest =>
    match skip with
    | skip + 1 => utf8From (position + 1) skip rest
    | 0 =>
      match utf8Step lead rest with
      | .error (bytes, cause) => .error ⟨position, bytes, cause⟩
      | .ok (c, count) => (utf8From (position + 1) count rest).map (c :: ·)

/-- The text that UTF-8 bytes encode. -/
def decodeUtf8 (bytes : List UInt8) : Except Utf8Fault String :=
  (utf8From 0 0 bytes).map String.ofList

/-- The text of ASCII bytes; every byte beyond ASCII becomes the replacement character. -/
def decodeAscii (bytes : List UInt8) : String :=
  String.ofList (bytes.map fun byte => if byte < 0x80 then Char.ofNat byte.toNat else '\ufffd')

end Midrange.Text
