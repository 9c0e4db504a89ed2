import Midrange.Depth.Findings
import Midrange.Device
import Midrange.Sweep
import Midrange.Text.Format

namespace Midrange

/-- What the lines of a listing say. -/
inductive ListingLine where
  | remark (text : String)
  | processor (name : String)
  | blank
  | equate (name : String) (width : Nat) (value : Int)
  | org (address : Int)
  | label (name : String)
  | word (address word : Int) (text : String) (notes : List String)
  deriving DecidableEq, Repr

namespace ListingLine

def indent : String := "        "

/-- The note behind a word: its address, its value, and whatever else is known of it. -/
def comment (address word : Int) (notes : List String) : String :=
  let place := s!"{Text.hexadecimal 4 address}: {Text.hexadecimal 4 word}"
  String.intercalate "  " (("; " ++ place) :: notes)

def text : ListingLine → String
  | .remark text => "; " ++ text
  | .processor name => indent ++ "processor " ++ name
  | .blank => ""
  | .equate name width value => Text.padRight 16 name ++ "equ     " ++ Text.hexLiteral width value
  | .org address => indent ++ "org     " ++ Text.hexLiteral 4 address
  | .label name => name ++ ":"
  | .word address value text notes =>
    indent ++ Text.padRight 28 text ++ comment address value notes

end ListingLine

/-- What stands at the head of a listing. -/
structure ListingHead where
  processor : String := Device.generic.processor
  title : String := "pic16dis listing"
  deriving DecidableEq, Repr

/-- A program as source text, one line for each word and lines around them that name and place
    it. -/
structure Listing where
  head : ListingHead
  symbols : Symbols
  image : Image
  instructions : List Instruction
  findings : Option Depth.Findings

namespace Listing

/-- The listing of an image. Every branch target in it has a label. -/
def ofImage (head : ListingHead) (symbols : Symbols) (image : Image)
    (findings : Option Depth.Findings) : Listing where
  head := head
  symbols := Sweep.label symbols (Sweep.decode symbols image)
  image := image
  instructions := Sweep.decode symbols image
  findings := findings

def headLines (listing : Listing) : List ListingLine :=
  let depthLines :=
    match listing.findings with
    | none => []
    | some findings =>
      .remark s!"max call depth {findings.maxDepth}" ::
        findings.warnings.map fun warning => .remark ("warning: " ++ warning)
  [.remark listing.head.title, .processor listing.head.processor] ++ depthLines ++ [.blank]

/-- A section of lines that is closed by a blank line unless it is empty. -/
def closed (lines : List ListingLine) : List ListingLine :=
  if lines.isEmpty then [] else lines ++ [.blank]

/-- The registers that the program works on, each name once and at the lowest number that has it. -/
def registerLines (listing : Listing) : List ListingLine :=
  let used := listing.symbols.registersAmong (listing.instructions.filterMap (·.register?))
  (distinctBy (·.2) used).map fun (register, name) => .equate name 2 register

/-- The branch targets that have no word of their own to stand in front of. -/
def externalLines (listing : Listing) : List ListingLine :=
  let targets : Std.TreeSet Int := .ofList (Instruction.targets listing.instructions)
  let absent := listing.symbols.labels.toList.filter fun (address, _) =>
    targets.contains address && !listing.image.isPresent address
  absent.map fun (address, label) => .equate label.text 4 address

/-- The line of one word. The instruction is missing where the word is data. -/
def wordLine (listing : Listing) (address word : Int) (instruction? : Option Instruction) :
    ListingLine :=
  let depthNote := (listing.findings.bind (·.depthAt? address)).map fun depth => s!"depth {depth}"
  match instruction? with
  | none =>
    let note := if address = Symbols.configAddress then ["config word"] else []
    .word address word ("dw      " ++ Text.hexLiteral 4 word) (note ++ depthNote.toList)
  | some instruction =>
    let note := if Encoding.isDispatch word then ["lookup table"] else []
    .word address word (instruction.text listing.symbols) (note ++ depthNote.toList)

/-- The lines for words in the order of their addresses, of which the instructions are the ones that
    are no data. A word that does not follow the one before it is placed by a line of its own. -/
def bodyLines (listing : Listing) (expected : Option Int) (instructions : List Instruction) :
    List (Int × Int) → List ListingLine
  | [] => []
  | (address, word) :: rest =>
    let place := if expected = some address then [] else [.org address]
    let labels := ((listing.symbols.label? address).map .label).toList
    let (instruction?, more) :=
      match instructions with
      | instruction :: more =>
        if instruction.address = address then (some instruction, more) else (none, instructions)
      | [] => (none, [])
    place ++ labels ++ listing.wordLine address word instruction? ::
      listing.bodyLines (some (address + 1)) more rest

def lines (listing : Listing) : List ListingLine :=
  listing.headLines ++ closed listing.registerLines ++ closed listing.externalLines ++
    listing.bodyLines none listing.instructions listing.image.toList

def text (listing : Listing) : String :=
  Text.endLines (listing.lines.map (·.text))

end Listing

end Midrange
