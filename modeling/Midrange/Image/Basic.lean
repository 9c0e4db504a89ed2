import Std.Data.TreeMap
import Std.Data.TreeSet
import Midrange.Symbols.Default
import Midrange.Text.Format
import Midrange.Text.Quoted

namespace Midrange

/-- What is wrong with one record of a hexadecimal file. -/
inductive RecordFault where
  | noMark (start : String)
  | notHexadecimal
  | tooShort
  | countMismatch (count : Nat)
  | checksum (stored : Nat)
  | beyondImage (byteAddress limit : Int)
  | segmentLength
  | linearLength
  | unsupportedKind (kind : Nat)
  deriving DecidableEq, Repr

def RecordFault.message : RecordFault → String
  | noMark start => "Record does not start with ':': " ++ Text.quoted start
  | notHexadecimal => "Record contains non-hex characters"
  | tooShort => "Record too short"
  | countMismatch count => s!"Byte count {count} does not match record length"
  | checksum stored => s!"Checksum mismatch (stored {Text.hexLiteral 2 stored})"
  | beyondImage address limit =>
    s!"Data at byte address {Text.hexLiteral 6 address} is beyond word {Text.hexLiteral 4 limit}"
  | segmentLength => "Extended segment record needs 2 data bytes"
  | linearLength => "Extended linear record needs 2 data bytes"
  | unsupportedKind kind => s!"Unsupported record type {Text.hexLiteral 2 kind}"

/-- Why something is no image. -/
inductive ImageFault where
  | outside (address limit : Int)
  | oddLength (bytes : Nat)
  | tooLong (words : Nat) (base : Int)
  | record (line : Nat) (fault : RecordFault)
  deriving DecidableEq, Repr

namespace ImageFault

/-- The number of the line at fault, where the image is a text. -/
def line? : ImageFault → Option Nat
  | record line _ => some line
  | _ => none

def message : ImageFault → String
  | outside address limit =>
    s!"Word address {Text.hexLiteral 4 address} outside image (limit {Text.hexLiteral 4 limit})"
  | oddLength bytes => s!"Binary image has odd length ({bytes} bytes)"
  | tooLong words base =>
    let place := s!"{words} words at {Text.hexLiteral 4 base}"
    s!"Binary image of {place} exceeds {Text.hexLiteral 4 Symbols.imageLimit}"
  | record line fault => s!"Line {line}: {fault.message}"

end ImageFault

theorem mem_ofList_keys (words : Std.TreeMap Int Int) (address : Int) :
    address ∈ Std.TreeSet.ofList words.keys ↔ address ∈ words := by
  simp [Std.TreeSet.mem_ofList]

/-- The words of a program by address, and a mask of the addresses that are present. An address
    without a word is absent, which is not the same as holding zero. -/
structure Image where
  limit : Int := Symbols.imageLimit
  words : Std.TreeMap Int Int := ∅
  mask : Std.TreeSet Int := .ofList words.keys
  mem_mask_iff (address : Int) : address ∈ mask ↔ address ∈ words := by
    apply mem_ofList_keys

/-- Why no image has a given limit. -/
inductive LimitFault where
  | negative
  | outOfMemory
  | uncountable
  deriving DecidableEq, Repr

def LimitFault.message : LimitFault → String
  | negative => "negative count"
  | outOfMemory => ""
  | uncountable => "cannot fit 'int' into an index-sized integer"

namespace Image

/-- The image without words that ends at a limit. -/
def blank (limit : Int) : Image := { limit }

/-- The same image if there can be one. There has to be room for as many words, and their count has
    to fit into a machine word with a sign. -/
def ofLimit (limit : Int) : Except LimitFault Image :=
  if limit < -0x8000000000000000 ∨ 0x8000000000000000 ≤ limit then .error .uncountable
  else if limit < 0 then .error .negative
  else if 0x10000000000 ≤ limit then .error .outOfMemory
  else .ok (blank limit)

def word? (image : Image) (address : Int) : Option Int :=
  image.words[address]?

def isPresent (image : Image) (address : Int) : Bool :=
  image.mask.contains address

/-- The number of words. -/
def size (image : Image) : Nat :=
  image.words.size

/-- The present words in the order of their addresses. -/
def toList (image : Image) : List (Int × Int) :=
  image.words.toList

/-- One more than the highest present address, and zero if there is none. -/
def codeSize (image : Image) : Int :=
  image.words.foldl (fun _ address _ => address + 1) 0

/-- The image in which an address holds a word and is marked as present. -/
def set (image : Image) (address word : Int) : Image where
  limit := image.limit
  words := image.words.insert address word
  mask := image.mask.insert address
  mem_mask_iff other := by
    rw [Std.TreeSet.mem_insert, Std.TreeMap.mem_insert, image.mem_mask_iff]

/-- Writes the low sixteen bits of a word to an address below the limit. -/
def store (image : Image) (address word : Int) : Except ImageFault Image :=
  if 0 ≤ address ∧ address < image.limit then .ok (image.set address (word % 0x10000))
  else .error (.outside address image.limit)

/-- A word in which one half is replaced by the low eight bits of a value. -/
def withByte (word : Int) (high : Bool) (value : Int) : Int :=
  if high then word % 0x100 + 0x100 * (value % 0x100)
  else word - word % 0x100 + value % 0x100

/-- Writes one byte. Two bytes make a word, the low one first; the other half of a word is kept, and
    is zero if the word was absent. -/
def storeByte (image : Image) (byteAddress value : Int) : Except ImageFault Image :=
  let address := byteAddress / 2
  let word := (image.word? address).getD 0
  image.store address (withByte word (byteAddress % 2 == 1) value)

/-- Writes words to consecutive addresses. -/
def storeAll (image : Image) (base : Int) : List Int → Except ImageFault Image
  | [] => .ok image
  | word :: rest => do (← image.store base word).storeAll (base + 1) rest

/-- The image that holds some words at consecutive addresses. -/
def ofWords (words : List Int) (base : Int := 0) : Except ImageFault Image :=
  storeAll {} base words

/-- The words that bytes make in pairs, the low byte first. -/
def pairBytes : List UInt8 → List Int
  | low :: high :: rest => ((low.toNat + 0x100 * high.toNat : Nat) : Int) :: pairBytes rest
  | _ => []

/-- The image that holds raw bytes from a word address on. -/
def ofBytes (bytes : List UInt8) (base : Int := 0) : Except ImageFault Image :=
  let count := bytes.length / 2
  if bytes.length % 2 ≠ 0 then .error (.oddLength bytes.length)
  else if base + count > Symbols.imageLimit then .error (.tooLong count base)
  else ofWords (pairBytes bytes) base

@[simp]
theorem word?_blank (limit address : Int) : (blank limit).word? address = none :=
  Std.TreeMap.getElem?_emptyc

theorem word?_set (image : Image) (address word other : Int) :
    (image.set address word).word? other =
      if address = other then some word else image.word? other := by
  simp only [word?, set, Std.TreeMap.getElem?_insert, Std.compare_eq_iff_eq]

theorem isPresent_eq_isSome_word? (image : Image) (address : Int) :
    image.isPresent address = (image.word? address).isSome := by
  rw [Bool.eq_iff_iff, isPresent, Std.TreeSet.contains_iff_mem, image.mem_mask_iff,
    Std.TreeMap.mem_iff_isSome_getElem?, word?]

theorem isPresent_iff {image : Image} {address : Int} :
    image.isPresent address = true ↔ ∃ word, image.word? address = some word := by
  rw [isPresent_eq_isSome_word?, Option.isSome_iff_exists]

theorem store_eq_ok_iff {image stored : Image} {address word : Int} :
    image.store address word = .ok stored ↔
      (0 ≤ address ∧ address < image.limit) ∧ image.set address (word % 0x10000) = stored := by
  simp only [store]
  split
  · simp_all
  · simp only [reduceCtorEq, false_iff, not_and]
    exact fun hrange => absurd hrange (by assumption)

end Image

end Midrange
