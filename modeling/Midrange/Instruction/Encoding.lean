import Midrange.Instruction.Mnemonic
import Midrange.Text.Format

namespace Midrange

/-- How the operand bits of an instruction word are laid out. -/
inductive Layout where
  | bare
  | file
  | fileBit
  | fileDest
  | literal
  | branch
  deriving DecidableEq, Repr

def Layout.text : Layout → String
  | bare => "none"
  | file => "file"
  | fileBit => "file_bit"
  | fileDest => "file_dest"
  | literal => "literal8"
  | branch => "literal11"

/-- One row of the instruction set: the words that agree with the pattern on the bits of the
    mask. -/
structure Encoding where
  mnemonic : Mnemonic
  pattern : BitVec 14
  mask : BitVec 14
  layout : Layout
  summary : String
  deriving DecidableEq, Repr

namespace Encoding

/-- Whether the low fourteen bits of a word belong to the row. -/
def covers (encoding : Encoding) (bits : BitVec 14) : Bool :=
  bits &&& encoding.mask == encoding.pattern

/-- The instruction set, byte-oriented operations first, then those on bits, literals and
    control. -/
def table : List Encoding := [
  ⟨.addwf, 0x0700, 0x3f00, .fileDest, "Add W and f"⟩,
  ⟨.andwf, 0x0500, 0x3f00, .fileDest, "AND W with f"⟩,
  ⟨.clrf, 0x0180, 0x3f80, .file, "Clear f"⟩,
  ⟨.clrw, 0x0100, 0x3f80, .bare, "Clear W"⟩,
  ⟨.comf, 0x0900, 0x3f00, .fileDest, "Complement f"⟩,
  ⟨.decf, 0x0300, 0x3f00, .fileDest, "Decrement f"⟩,
  ⟨.decfsz, 0x0b00, 0x3f00, .fileDest, "Decrement f, skip if 0"⟩,
  ⟨.incf, 0x0a00, 0x3f00, .fileDest, "Increment f"⟩,
  ⟨.incfsz, 0x0f00, 0x3f00, .fileDest, "Increment f, skip if 0"⟩,
  ⟨.iorwf, 0x0400, 0x3f00, .fileDest, "Inclusive OR W with f"⟩,
  ⟨.movf, 0x0800, 0x3f00, .fileDest, "Move f"⟩,
  ⟨.movwf, 0x0080, 0x3f80, .file, "Move W to f"⟩,
  ⟨.nop, 0x0000, 0x3f9f, .bare, "No operation"⟩,
  ⟨.rlf, 0x0d00, 0x3f00, .fileDest, "Rotate left f through carry"⟩,
  ⟨.rrf, 0x0c00, 0x3f00, .fileDest, "Rotate right f through carry"⟩,
  ⟨.subwf, 0x0200, 0x3f00, .fileDest, "Subtract W from f"⟩,
  ⟨.swapf, 0x0e00, 0x3f00, .fileDest, "Swap nibbles in f"⟩,
  ⟨.xorwf, 0x0600, 0x3f00, .fileDest, "Exclusive OR W with f"⟩,
  ⟨.bcf, 0x1000, 0x3c00, .fileBit, "Bit clear f"⟩,
  ⟨.bsf, 0x1400, 0x3c00, .fileBit, "Bit set f"⟩,
  ⟨.btfsc, 0x1800, 0x3c00, .fileBit, "Bit test f, skip if clear"⟩,
  ⟨.btfss, 0x1c00, 0x3c00, .fileBit, "Bit test f, skip if set"⟩,
  ⟨.addlw, 0x3e00, 0x3e00, .literal, "Add literal and W"⟩,
  ⟨.andlw, 0x3900, 0x3f00, .literal, "AND literal with W"⟩,
  ⟨.call, 0x2000, 0x3800, .branch, "Call subroutine"⟩,
  ⟨.clrwdt, 0x0064, 0x3fff, .bare, "Clear watchdog timer"⟩,
  ⟨.goto, 0x2800, 0x3800, .branch, "Go to address"⟩,
  ⟨.iorlw, 0x3800, 0x3f00, .literal, "Inclusive OR literal with W"⟩,
  ⟨.movlw, 0x3000, 0x3c00, .literal, "Move literal to W"⟩,
  ⟨.retfie, 0x0009, 0x3fff, .bare, "Return from interrupt"⟩,
  ⟨.retlw, 0x3400, 0x3c00, .literal, "Return with literal in W"⟩,
  ⟨.ret, 0x0008, 0x3fff, .bare, "Return from subroutine"⟩,
  ⟨.sleep, 0x0063, 0x3fff, .bare, "Go into standby mode"⟩,
  ⟨.sublw, 0x3c00, 0x3e00, .literal, "Subtract W from literal"⟩,
  ⟨.xorlw, 0x3a00, 0x3f00, .literal, "Exclusive OR literal with W"⟩]

/-- What a word stands for when no row of the table covers it. -/
def reserved : Encoding :=
  ⟨.unknown, 0x0000, 0x0000, .bare, "Reserved or undefined encoding"⟩

/-- The first row of the table that covers some bits. -/
def ofBits (bits : BitVec 14) : Encoding :=
  (table.find? (·.covers bits)).getD reserved

/-- The row for a word, of which only the low fourteen bits count. -/
def ofWord (word : Int) : Encoding :=
  ofBits (.ofInt 14 word)

/-- Whether a word is `addwf PCL, F`, the jump into the table behind it. -/
def isDispatch (word : Int) : Bool :=
  BitVec.ofInt 14 word == 0x0782

/-- A row with its pattern and mask in hexadecimal. -/
def text (encoding : Encoding) : String :=
  let name := Text.padRight 7 encoding.mnemonic.text
  let pattern := Text.hexadecimal 4 encoding.pattern.toNat
  let mask := Text.hexadecimal 4 encoding.mask.toNat
  s!"{name} ({pattern}/{mask}, {encoding.layout.text})"

theorem ofBits_mem (bits : BitVec 14) : ofBits bits ∈ table ∨ ofBits bits = reserved := by
  cases hfound : table.find? (·.covers bits) with
  | none => exact Or.inr (by simp [ofBits, hfound])
  | some row => exact Or.inl (by simpa [ofBits, hfound] using List.mem_of_find?_eq_some hfound)

end Encoding

end Midrange
