import Midrange.Instruction.Operands
import Midrange.Selection
import Midrange.Symbols.Basic

namespace Midrange

/-- A word of program where it stands, with the selection that is in force when it is reached. -/
structure Instruction where
  address : Int
  word : Int
  selection : Selection
  deriving DecidableEq, Repr

namespace Instruction

def encoding (instruction : Instruction) : Encoding :=
  .ofWord instruction.word

def mnemonic (instruction : Instruction) : Mnemonic :=
  instruction.encoding.mnemonic

def operands (instruction : Instruction) : Operands :=
  .ofWord instruction.encoding.layout instruction.word

/-- The full number of the register that the instruction works on. -/
def register? (instruction : Instruction) : Option Int :=
  instruction.operands.register?.map instruction.selection.register

/-- The full address to which the instruction branches. -/
def target? (instruction : Instruction) : Option Int :=
  instruction.operands.branch?.map instruction.selection.target

/-- The name of a register, or its number if it has none. -/
def registerText (symbols : Symbols) (register : Int) : String :=
  (symbols.registerName? register).getD (Text.hexLiteral 2 register)

/-- The name of a bit of a register, or its number if it or the register has none. -/
def bitText (symbols : Symbols) (register bit : Int) : String :=
  ((symbols.registerName? register).bind (symbols.bitName? · bit)).getD (toString bit)

/-- The operands as a listing shows them. -/
def operandText (symbols : Symbols) (instruction : Instruction) : String :=
  let selection := instruction.selection
  match instruction.operands with
  | .bare => ""
  | .file field => registerText symbols (selection.register field)
  | .fileBit field bit =>
    let register := selection.register field
    registerText symbols register ++ ", " ++ bitText symbols register bit
  | .fileDest field toFile =>
    registerText symbols (selection.register field) ++ ", " ++ if toFile then "F" else "W"
  | .literal value => Text.hexLiteral 2 value
  | .branch offset => symbols.nameOf (selection.target offset)

/-- The whole instruction as a listing shows it. A word without a meaning is shown as a number. -/
def text (symbols : Symbols) (instruction : Instruction) : String :=
  let name := instruction.mnemonic.text
  let operands := instruction.operandText symbols
  if instruction.mnemonic = .unknown then
    Text.padRight 8 name ++ Text.hexLiteral 4 instruction.word
  else if operands.isEmpty then name
  else Text.padRight 8 name ++ operands

/-- The selection behind the instruction. Only writing a single bit changes it, and which bit that
    is goes by the names of the register and the bit. -/
def after (symbols : Symbols) (instruction : Instruction) : Selection :=
  let written? := do
    let value ← instruction.mnemonic.writtenBit?
    let register ← symbols.registerName? (← instruction.register?)
    let .fileBit _ bit := instruction.operands | none
    instruction.selection.write? register (← symbols.bitName? register bit) value
  written?.getD instruction.selection

/-- The instructions that words make when they are passed one after the other. -/
def sequence (symbols : Symbols) (selection : Selection) : List (Int × Int) → List Instruction
  | [] => []
  | (address, word) :: rest =>
    let instruction : Instruction := ⟨address, word, selection⟩
    instruction :: sequence symbols (instruction.after symbols) rest

/-- The addresses to which instructions branch, in their order. -/
def targets (instructions : List Instruction) : List Int :=
  instructions.filterMap (·.target?)

end Instruction

end Midrange
