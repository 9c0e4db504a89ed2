import Midrange.Image.Record
import Midrange.Text.Lines

namespace Midrange

/-- How far a hexadecimal file has been read: the words so far, what the record addresses are
    relative to, and whether the record that ends the file has been met. -/
structure HexReading where
  image : Image := .blank Symbols.imageLimit
  upper : Nat := 0
  ended : Bool := false

namespace HexReading

/-- Writes consecutive bytes, each of which has to lie below the limit of the image. -/
def storeBytes (image : Image) (byteAddress : Int) : List Nat → Except RecordFault Image
  | [] => .ok image
  | value :: rest =>
    match image.storeByte byteAddress value with
    | .error _ => .error (.beyondImage byteAddress image.limit)
    | .ok stored => storeBytes stored (byteAddress + 1) rest

/-- The upper part of the addresses that an extension record gives, and nothing unless it holds
    exactly two bytes. -/
def extension? (scale : Nat) : List Nat → Option Nat
  | [high, low] => some ((0x100 * high + low) * scale)
  | _ => none

/-- What one record does. Start addresses carry no words and are passed over. -/
def take (reading : HexReading) (record : Record) : Except RecordFault HexReading :=
  match record.kind with
  | 0 => do
    let image ← storeBytes reading.image (reading.upper + record.address : Nat) record.data
    return { reading with image }
  | 1 => .ok { reading with ended := true }
  | 2 =>
    match extension? 0x10 record.data with
    | some upper => .ok { reading with upper }
    | none => .error .segmentLength
  | 4 =>
    match extension? 0x10000 record.data with
    | some upper => .ok { reading with upper }
    | none => .error .linearLength
  | 3 | 5 => .ok reading
  | kind => .error (.unsupportedKind kind)

/-- Reads numbered lines up to the record that ends the file. Blank lines count but hold nothing. -/
def takeLines (reading : HexReading) : List (Nat × List Char) → Except ImageFault Image
  | [] => .ok reading.image
  | (number, raw) :: rest =>
    let line := Text.trim Text.isBlank raw
    if line.isEmpty then reading.takeLines rest
    else
      match Record.ofLine line >>= reading.take with
      | .error fault => .error (.record number fault)
      | .ok next => if next.ended then .ok next.image else next.takeLines rest

end HexReading

/-- The image that a hexadecimal file describes. -/
def Image.ofHex (text : String) : Except ImageFault Image :=
  ({} : HexReading).takeLines (Text.numberedLines text)

end Midrange
