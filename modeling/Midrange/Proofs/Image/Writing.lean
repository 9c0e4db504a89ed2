import Mathlib.Data.List.Forall2
import Midrange.Proofs.Image.HexFile
import Midrange.Proofs.Text.Lines

namespace Midrange

namespace Text

/-- The digit of a number below sixteen, in lower or in upper case. -/
def digitChar (lower : Bool) (value : Nat) : Char :=
  if lower then Nat.digitChar value else (Nat.digitChar value).toUpper

/-- The two digits of a byte. -/
def bytePair (lower : Bool) (byte : Nat) : List Char :=
  [digitChar lower (byte / 16), digitChar lower (byte % 16)]

private theorem digitChar_facts :
    ∀ lower, ∀ value < 16, hexDigitValue? (digitChar lower value) = some value ∧
    isBlank (digitChar lower value) = false ∧ isLineBreak (digitChar lower value) = false := by
  decide

end Text

namespace Record

variable {record : Record} {bytes : List Nat}

/-- The last byte of a record, which brings the sum of all its bytes to a multiple of 256. -/
def check (record : Record) : Nat :=
  (0x100 - (record.toBytes 0).sum % 0x100) % 0x100

/-- A record on a line of its own. -/
def line (lower : Bool) (record : Record) : List Char :=
  ':' :: (record.toBytes record.check).flatMap (Text.bytePair lower)

/-- A record can be written: there are two bytes for its address, one for the number of its data and
    one for its kind, and its data are bytes. -/
structure Fits (record : Record) : Prop where
  address_lt : record.address < 0x10000
  length_lt : record.data.length < 0x100
  kind_lt : record.kind < 0x100
  data_lt : ∀ byte ∈ record.data, byte < 0x100

theorem Fits.lt (hfits : record.Fits) : ∀ byte ∈ record.toBytes record.check, byte < 0x100 := by
  have haddress := hfits.address_lt
  simp only [toBytes, List.forall_mem_cons, List.forall_mem_append, List.not_mem_nil, false_implies,
    implies_true, and_true]
  exact ⟨hfits.length_lt, by omega, by omega, hfits.kind_lt, hfits.data_lt,
    Nat.mod_lt _ (by decide)⟩

theorem sum_toBytes_check (record : Record) : (record.toBytes record.check).sum % 0x100 = 0 := by
  have hsplit : (record.toBytes record.check).sum = (record.toBytes 0).sum + record.check := by
    simp only [toBytes, List.sum_cons, List.sum_append, List.sum_nil]
    omega
  rw [hsplit, check]
  omega

theorem spells_flatMap (lower : Bool) (hbytes : ∀ byte ∈ bytes, byte < 0x100) :
    Spells (bytes.flatMap (Text.bytePair lower)) bytes := by
  induction bytes with
  | nil => exact .nil
  | cons byte rest ih =>
    rw [List.forall_mem_cons] at hbytes
    have hhigh := (Text.digitChar_facts lower (byte / 16) (by omega)).1
    have hlow := (Text.digitChar_facts lower (byte % 16) (by omega)).1
    have hpair := Spells.pair hhigh hlow (ih hbytes.2)
    rwa [Nat.div_add_mod] at hpair

/-- The line of a record carries it. -/
theorem carries_line (hfits : record.Fits) (lower : Bool) : Carries (record.line lower) record :=
  ⟨record.check, ⟨_, rfl, spells_flatMap lower hfits.lt⟩, record.sum_toBytes_check⟩

/-- There is no blank on the line of a record, and nothing that ends a line. -/
theorem mem_line (hfits : record.Fits) (lower : Bool) :
    ∀ c ∈ record.line lower, Text.isBlank c = false ∧ Text.isLineBreak c = false := by
  rw [line, List.forall_mem_cons]
  refine ⟨by decide, fun c hmem => ?_⟩
  obtain ⟨byte, hbyte, hpair⟩ := List.mem_flatMap.mp hmem
  have hless := hfits.lt byte hbyte
  simp only [Text.bytePair, List.mem_cons, List.not_mem_nil, or_false] at hpair
  obtain rfl | rfl := hpair
  · exact (Text.digitChar_facts lower _ (by omega)).2
  · exact (Text.digitChar_facts lower _ (by omega)).2

end Record

namespace HexFile

open Record (Carries)

variable {address : Nat} {bytes : List Nat} {pieces records : List Record} {record : Record}

/-- Records hold bytes from a byte address on, cut into pieces that follow one another. -/
inductive Cut : Nat → List Nat → List Record → Prop where
  | nil (address : Nat) : Cut address [] []
  | piece {address : Nat} {data bytes : List Nat} {pieces : List Record}
      (hrest : Cut (address + data.length) bytes pieces) :
      Cut address (data ++ bytes) (⟨address, 0, data⟩ :: pieces)

/-- A text encodes bytes from a byte address on: its lines up to the one that ends the file carry
    the pieces of these bytes in some order. -/
def Encodes (text : String) (address : Nat) (bytes : List Nat) : Prop :=
  ∃ pieces records lines last rest, Cut address bytes pieces ∧ records.Perm pieces ∧
    List.Forall₂ Carries lines records ∧ EndsFile last ∧ linesOf text = lines ++ last :: rest

/-- The record that ends a file. -/
def ending : Record :=
  ⟨0, 1, []⟩

/-- Records as the text of a file, one on a line. -/
def write (lower : Bool) (records : List Record) : String :=
  String.ofList (((records ++ [ending]).map (Record.line lower)).flatMap (· ++ ['\n']))

theorem Cut.kind_eq (hcut : Cut address bytes pieces) : ∀ record ∈ pieces, record.kind = 0 := by
  induction hcut with
  | nil => simp
  | piece _ ih => exact List.forall_mem_cons.mpr ⟨rfl, ih⟩

theorem Cut.mem_bytes (hcut : Cut address bytes pieces) :
    ∀ record ∈ pieces, ∀ byte ∈ record.data, byte ∈ bytes := by
  induction hcut with
  | nil => simp
  | piece _ ih =>
    rw [List.forall_mem_cons]
    exact ⟨fun _ hmem => List.mem_append_left _ hmem,
      fun record hrecord byte hmem => List.mem_append_right _ (ih record hrecord byte hmem)⟩

theorem fits_ending : ending.Fits :=
  ⟨by decide, by decide, by decide, by simp [ending]⟩

theorem linesOf_write (lower : Bool) (hfits : ∀ record ∈ records, record.Fits) :
    linesOf (write lower records) = (records ++ [ending]).map (Record.line lower) := by
  have hall : ∀ record ∈ records ++ [ending], record.Fits := by
    rw [List.forall_mem_append, List.forall_mem_singleton]
    exact ⟨hfits, fits_ending⟩
  have hclean (line : List Char) (hline : line ∈ (records ++ [ending]).map (Record.line lower)) :
      ∀ c ∈ line, Text.isBlank c = false ∧ Text.isLineBreak c = false := by
    obtain ⟨record, hrecord, rfl⟩ := List.mem_map.mp hline
    exact Record.mem_line (hall record hrecord) lower
  rw [linesOf, write, String.toList_ofList, Text.lines_flatMap_feed fun line hline c hc =>
    (hclean line hline c hc).2]
  have htrim (line : List Char) (hline : line ∈ (records ++ [ending]).map (Record.line lower)) :
      Text.trim Text.isBlank line = line :=
    Text.trim_eq_self fun c hc => (hclean line hline c hc).1
  exact (List.map_congr_left htrim).trans (List.map_id _)

/-- Every cut of bytes into pieces that can be written is an encoding of them, whatever the order of
    the pieces and the case of the digits. -/
theorem encodes_write (hcut : Cut address bytes pieces) (hperm : records.Perm pieces)
    (hbytes : ∀ byte ∈ bytes, byte < 0x100)
    (hfits : ∀ piece ∈ pieces, piece.address < 0x10000 ∧ piece.data.length < 0x100) (lower : Bool) :
    Encodes (write lower records) address bytes := by
  have hall (record : Record) (hrecord : record ∈ records) : record.Fits := by
    have hpiece := hperm.mem_iff.mp hrecord
    refine ⟨(hfits record hpiece).1, (hfits record hpiece).2, ?_, fun byte hbyte => ?_⟩
    · simp [hcut.kind_eq record hpiece]
    · exact hbytes byte (hcut.mem_bytes record hpiece byte hbyte)
  refine ⟨pieces, records, records.map (Record.line lower), ending.line lower, [], hcut, hperm,
    ?_, ?_, ?_⟩
  · rw [List.forall₂_map_left_iff, List.forall₂_same]
    exact fun record hrecord => Record.carries_line (hall record hrecord) lower
  · exact ⟨ending, Record.carries_line fits_ending lower, rfl⟩
  · rw [linesOf_write lower hall, List.map_append]
    rfl

end HexFile

end Midrange
