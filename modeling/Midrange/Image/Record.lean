import Midrange.Image.Basic
import Midrange.Text.Lines

namespace Midrange

/-- One record of a hexadecimal file, its count and checksum already verified. -/
structure Record where
  address : Nat
  kind : Nat
  data : List Nat
  deriving DecidableEq, Repr

namespace Record

/-- The bytes that pairs of hexadecimal digits spell. Blanks may stand around a pair but not in
    it. -/
def bytes? : List Char → Option (List Nat)
  | [] => some []
  | [c] => if Text.isAsciiBlank c then some [] else none
  | first :: second :: rest =>
    if Text.isAsciiBlank first then bytes? (second :: rest)
    else do
      let high ← Text.hexDigitValue? first
      let low ← Text.hexDigitValue? second
      return (16 * high + low) :: (← bytes? rest)

/-- The record that bytes make: a count of data bytes, two bytes of address, a kind, the data, and a
    last byte that brings the sum of all to a multiple of 256. -/
def ofBytes (bytes : List Nat) : Except RecordFault Record :=
  match bytes with
  | count :: high :: low :: kind :: rest =>
    if rest.isEmpty then .error .tooShort
    else if bytes.length ≠ count + 5 then .error (.countMismatch count)
    else if bytes.foldl (· + ·) 0 % 0x100 ≠ 0 then .error (.checksum (rest.getLast?.getD 0))
    else .ok ⟨0x100 * high + low, kind, rest.dropLast⟩
  | _ => .error .tooShort

/-- The record on a trimmed line. -/
def ofLine (line : List Char) : Except RecordFault Record :=
  match line with
  | ':' :: digits =>
    match bytes? digits with
    | some bytes => ofBytes bytes
    | none => .error .notHexadecimal
  | _ => .error (.noMark (String.ofList (line.take 20)))

theorem sum_of_ofBytes {bytes : List Nat} {record : Record} (hrecord : ofBytes bytes = .ok record) :
    bytes.foldl (· + ·) 0 % 0x100 = 0 := by
  simp only [ofBytes] at hrecord
  split at hrecord
  · split at hrecord
    · simp at hrecord
    · split at hrecord
      · simp at hrecord
      · split at hrecord
        · simp at hrecord
        · omega
  · simp at hrecord

end Record

end Midrange
