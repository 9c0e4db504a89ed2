import Midrange.Depth.Analysis
import Midrange.Device
import Midrange.Listing
import Midrange.Sweep

namespace Midrange

/-- A program taken apart: its source text, the names with every label it needed, and what was found
    on the way. -/
structure Disassembly where
  listing : Listing
  sweep : Sweep
  findings : Option Depth.Findings

namespace Disassembly

def symbols (disassembly : Disassembly) : Symbols :=
  disassembly.listing.symbols

/-- The options of an analysis that nobody asked for in particular: program memory ends where that
    of the device does. -/
def deviceOptions (device : Device) : Depth.Options :=
  { memoryLimit := device.programWords }

/-- A warning about words that the program memory of a device cannot hold. -/
def beyondJournal (device : Device) (image : Image) : Journal :=
  let beyond := image.toList.filter fun (address, _) =>
    device.programWords ≤ address && address < Symbols.programLimit
  match beyond with
  | [] => []
  | (first, _) :: _ =>
    let count := s!"{beyond.length} words beyond the {device.name} program memory"
    [⟨.warning, .disassembly, s!"Image has {count} (first at {Text.hexLiteral 4 first})"⟩]

/-- How the work ends, with its messages: in a disassembly, or in a call that nests too deep. -/
structure Outcome where
  journal : Journal
  result : Except Depth.TooDeep Disassembly

/-- Labels the branch targets of an image, finds the nesting of calls if options for that are given,
    and writes the listing. -/
def run (device : Device) (image : Image) (symbols : Symbols) (analysis : Option Depth.Options) :
    Outcome :=
  let sweep := Sweep.ofImage symbols image
  let swept := Sweep.label symbols sweep.instructions
  let opening := beyondJournal device image ++ sweep.journal
  let head : ListingHead := { processor := device.processor }
  match analysis with
  | none => ⟨opening, .ok ⟨.ofImage head swept image none, sweep, none⟩⟩
  | some options =>
    let outcome := Depth.Analysis.run image swept options
    let journal := opening ++ outcome.journal
    match outcome.result with
    | .error fault => ⟨journal, .error fault⟩
    | .ok findings =>
      ⟨journal, .ok ⟨.ofImage head outcome.symbols image (some findings), sweep, some findings⟩⟩

end Disassembly

end Midrange
