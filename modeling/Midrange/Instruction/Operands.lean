import Midrange.Instruction.Encoding

namespace Midrange

/-- The operand fields of an instruction word, before bank, page and names are applied. -/
inductive Operands where
  | bare
  | file (register : Int)
  | fileBit (register : Int) (bit : Int)
  | fileDest (register : Int) (toFile : Bool)
  | literal (value : Int)
  | branch (offset : Int)
  deriving DecidableEq, Repr

namespace Operands

/-- The fields of a word in a given layout: a register has seven bits, a bit number three, a literal
    eight and a branch eleven. -/
def ofWord (layout : Layout) (word : Int) : Operands :=
  match layout with
  | .bare => bare
  | .file => file (word % 128)
  | .fileBit => fileBit (word % 128) (word / 128 % 8)
  | .fileDest => fileDest (word % 128) (word / 128 % 2 == 1)
  | .literal => literal (word % 256)
  | .branch => branch (word % 2048)

/-- The register field, if the layout has one. -/
def register? : Operands → Option Int
  | file register => some register
  | fileBit register _ => some register
  | fileDest register _ => some register
  | _ => none

/-- The branch field, if the layout has one. -/
def branch? : Operands → Option Int
  | branch offset => some offset
  | _ => none

end Operands

end Midrange
