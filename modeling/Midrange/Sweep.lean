import Midrange.Image.Basic
import Midrange.Instruction.Basic
import Midrange.Journal

namespace Midrange

/-- A branch from one address to another. -/
structure Reference where
  source : Int
  target : Int
  kind : BranchKind
  deriving DecidableEq, Repr

/-- What a sweep over an image in the order of its addresses meets. Words that hold data take no
    part in it; bank and page go from one instruction to the next in memory, wherever control would
    go. -/
structure Sweep where
  instructions : List Instruction
  dataWords : Nat
  labelsCreated : Nat

namespace Sweep

/-- The instructions of an image, decoded in the order of their addresses. -/
def decode (symbols : Symbols) (image : Image) : List Instruction :=
  Instruction.sequence symbols {} (image.toList.filter fun (address, _) => !symbols.isData address)

/-- The names once every branch target of the instructions has one. -/
def label (symbols : Symbols) (instructions : List Instruction) : Symbols :=
  symbols.ensureLabels (Instruction.targets instructions)

def ofImage (symbols : Symbols) (image : Image) : Sweep where
  instructions := decode symbols image
  dataWords := image.toList.countP fun (address, _) => symbols.isData address
  labelsCreated := (label symbols (decode symbols image)).labels.size - symbols.labels.size

/-- The addresses of the words that encode no instruction. -/
def unknown (sweep : Sweep) : List Int :=
  (sweep.instructions.filter (·.mnemonic = .unknown)).map (·.address)

def references (sweep : Sweep) : List Reference :=
  sweep.instructions.filterMap fun instruction => do
    return ⟨instruction.address, ← instruction.target?, ← instruction.mnemonic.branchKind?⟩

/-- What is reported of a sweep. -/
def journal (sweep : Sweep) : Journal :=
  let instructions := sweep.instructions.length
  let references := sweep.references.length
  let counts :=
    s!"{instructions} instructions, {sweep.dataWords} data words, {references} references"
  let summary : Report := ⟨.debug, .sweep, s!"Pass 1: {counts}, {sweep.labelsCreated} new labels"⟩
  match sweep.unknown.length with
  | 0 => [summary]
  | unknown => [summary, ⟨.info, .sweep, s!"Pass 1: {unknown} words decode to no instruction"⟩]

end Sweep

end Midrange
