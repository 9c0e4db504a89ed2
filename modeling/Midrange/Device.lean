import Midrange.Symbols.Default

namespace Midrange

/-- A part of the family: how many words of program it holds and how a listing names it. -/
structure Device where
  name : String
  processor : String
  programWords : Int
  summary : String
  deriving DecidableEq, Repr

namespace Device

/-- Stands for every part at once and claims the whole program space. -/
def generic : Device :=
  ⟨"generic", "16f877a", Symbols.programLimit, "Any mid-range part, full 8K word space"⟩

/-- The parts that can be asked for by name. -/
def all : List Device := [
  generic,
  ⟨"16f84a", "16f84a", 0x0400, "PIC16F84A, 1K words, 2 banks"⟩,
  ⟨"16f628a", "16f628a", 0x0800, "PIC16F628A, 2K words, 4 banks"⟩,
  ⟨"16f877a", "16f877a", 0x2000, "PIC16F877A, 8K words, 4 banks"⟩]

def named? (name : String) : Option Device :=
  all.find? (·.name == name)

/-- What is said of a name that no part has. -/
def unknownMessage (name : String) : String :=
  let choices := String.intercalate ", " (all.map (·.name))
  s!"Unknown device '{name}' (choices: {choices})"

end Device

end Midrange
