namespace Midrange

/-- The number of words in a page of program memory. -/
def pageSize : Int := 2048

/-- The number of registers in a bank of the register file. -/
def bankSize : Int := 128

/-- The bank and the page that the select bits hold while a program is followed. -/
structure Selection where
  bank : Int := 0
  page : Int := 0
  deriving DecidableEq, Repr

namespace Selection

/-- The selection with which code at an address is entered: its own page, and the first bank. -/
def atEntry (address : Int) : Selection :=
  ⟨0, address / pageSize % 4⟩

/-- A two-bit value in which one bit, the low or the high one, is written. -/
def writeBit (high value : Bool) (field : Int) : Int :=
  let low := field % 2
  let top := field / 2 % 2
  let bit := if value then 1 else 0
  if high then low + 2 * bit else bit + 2 * top

/-- The selection after a bit, known by the names of its register and its own, is written. Nothing
    comes back for a bit that selects neither bank nor page. -/
def write? (selection : Selection) (register bit : String) (value : Bool) : Option Selection :=
  match register, bit with
  | "STATUS", "RP0" => some { selection with bank := writeBit false value selection.bank }
  | "STATUS", "RP1" => some { selection with bank := writeBit true value selection.bank }
  | "PCLATH", "PCLATH3" => some { selection with page := writeBit false value selection.page }
  | "PCLATH", "PCLATH4" => some { selection with page := writeBit true value selection.page }
  | _, _ => none

/-- The full number of a register that an instruction names by its seven low bits. -/
def register (selection : Selection) (field : Int) : Int :=
  field + bankSize * selection.bank

/-- The full address of a branch that gives its eleven low bits. -/
def target (selection : Selection) (offset : Int) : Int :=
  offset + pageSize * selection.page

def text (selection : Selection) : String :=
  s!"bank {selection.bank}, page {selection.page}"

theorem writeBit_mem_range (high value : Bool) (field : Int) :
    0 ≤ writeBit high value field ∧ writeBit high value field < 4 := by
  cases high <;> cases value <;> simp [writeBit] <;> omega

theorem atEntry_page_mem_range (address : Int) :
    0 ≤ (atEntry address).page ∧ (atEntry address).page < 4 := by
  simp only [atEntry]
  omega

end Selection

end Midrange
