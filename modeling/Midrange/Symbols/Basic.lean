import Std.Data.TreeMap
import Midrange.Distinct
import Midrange.Symbols.Default

namespace Midrange

/-- Where a label comes from, which decides whether another one may take its place. -/
inductive LabelOrigin where
  | builtin
  | given
  | synthesized
  deriving DecidableEq, Repr

/-- The name of an address. -/
structure Label where
  text : String
  origin : LabelOrigin
  deriving DecidableEq, Repr

/-- Addresses from `start` up to but not including `stop` that hold data and no code. -/
structure DataBlock where
  start : Int
  stop : Int
  name : Option String := none
  deriving DecidableEq, Repr

def DataBlock.covers (block : DataBlock) (address : Int) : Bool :=
  block.start ≤ address && address < block.stop

/-- Everything that has a name: registers, their bits, addresses, and the blocks of data. -/
structure Symbols where
  registers : Std.TreeMap Int String
  bits : Std.TreeMap BitRef String
  labels : Std.TreeMap Int Label
  data : Array DataBlock

namespace Symbols

/-- The label that an address gets when nothing else names it. -/
def synthesizedName (address : Int) : String :=
  "L" ++ Text.hexadecimal 4 address

def label? (symbols : Symbols) (address : Int) : Option String :=
  symbols.labels[address]?.map (·.text)

def isLabelled (symbols : Symbols) (address : Int) : Bool :=
  symbols.labels.contains address

/-- Whether the name of an address was chosen rather than synthesized. -/
def isChosen (symbols : Symbols) (address : Int) : Bool :=
  symbols.labels[address]?.any (·.origin ≠ .synthesized)

/-- The name under which an address appears, whether or not it has been recorded yet. -/
def nameOf (symbols : Symbols) (address : Int) : String :=
  (symbols.label? address).getD (synthesizedName address)

/-- Whether an address may still be given a name: it has none, or that of a built-in vector. -/
def acceptsLabel (symbols : Symbols) (address : Int) : Bool :=
  symbols.labels[address]?.all (·.origin = .builtin)

/-- Gives a name to an address, unless a name that must stay stands there. -/
def addLabel (symbols : Symbols) (address : Int) (name : String) : Symbols :=
  if symbols.acceptsLabel address then
    { symbols with labels := symbols.labels.insert address ⟨name, .given⟩ }
  else symbols

/-- Records a synthesized name for an address without one. -/
def ensureLabel (symbols : Symbols) (address : Int) : Symbols :=
  { symbols with
    labels := symbols.labels.insertIfNew address ⟨synthesizedName address, .synthesized⟩ }

def ensureLabels (symbols : Symbols) (addresses : List Int) : Symbols :=
  addresses.foldl ensureLabel symbols

/-- The names in use, each at the lowest address that has it, in the order of these addresses. -/
def namedAddresses (symbols : Symbols) : List (Int × String) :=
  distinctBy (·.2) (symbols.labels.toList.map fun (address, label) => (address, label.text))

/-- The lowest address that has a given name. -/
def addressOf? (symbols : Symbols) (name : String) : Option Int :=
  (symbols.labels.toList.find? (·.2.text == name)).map (·.1)

/-- The lowest address of every name in use. -/
def addressTable (symbols : Symbols) : Std.TreeMap String Int :=
  symbols.labels.toList.foldl
    (fun found (address, label) => found.insertIfNew label.text address) ∅

def registerName? (symbols : Symbols) (register : Int) : Option String :=
  symbols.registers[register]?

/-- The name of a bit, which belongs to the name of its register: registers that share a name share
    the names of their bits. -/
def bitName? (symbols : Symbols) (register : String) (bit : Int) : Option String :=
  symbols.bits[BitRef.mk register bit]?

def nameRegister (symbols : Symbols) (register : Int) (name : String) : Symbols :=
  { symbols with registers := symbols.registers.insert register name }

def nameBit (symbols : Symbols) (register : String) (bit : Int) (name : String) : Symbols :=
  { symbols with bits := symbols.bits.insert ⟨register, bit⟩ name }

/-- The named registers among some numbers, each once and in increasing order. -/
def registersAmong (symbols : Symbols) (registers : List Int) : List (Int × String) :=
  let asked : Std.TreeSet Int := .ofList registers
  symbols.registers.toList.filter fun (register, _) => asked.contains register

/-- Declares a block of data; a name that is not empty is offered to its first address. -/
def addData (symbols : Symbols) (block : DataBlock) : Symbols :=
  let extended := { symbols with data := symbols.data.push block }
  match block.name with
  | some name => if name.isEmpty then extended else extended.addLabel block.start name
  | none => extended

/-- Whether an address holds data: the configuration word always does. -/
def isData (symbols : Symbols) (address : Int) : Bool :=
  address == configAddress || symbols.data.any (·.covers address)

/-- The block of data memory that every image has. -/
def dataMemory : DataBlock :=
  ⟨dataMemoryStart, dataMemoryStop, some "eeprom_data"⟩

/-- The built-in names, extended by given ones. Given labels come first, and a built-in name goes
    only to a vector that has none. -/
def ofNames (registers : Std.TreeMap Int String) (bits : Std.TreeMap BitRef String)
    (labels : Std.TreeMap Int String) (builtin : Bool) : Symbols where
  registers := registers.foldl .insert defaultRegisters
  bits := bits.foldl .insert defaultBits
  labels :=
    let given := labels.map fun _ name => (⟨name, .given⟩ : Label)
    let offer (found : Std.TreeMap Int Label) (vector : Int × String) :=
      found.insertIfNew vector.1 ⟨vector.2, .builtin⟩
    if builtin then defaultLabels.foldl offer given else given
  data := #[dataMemory]

/-- The names that are known before anything is given. -/
def standard : Symbols :=
  ofNames ∅ ∅ ∅ true

theorem nameOf_of_label? {symbols : Symbols} {address : Int} {name : String}
    (hlabel : symbols.label? address = some name) : symbols.nameOf address = name := by
  simp [nameOf, hlabel]

/-- Recording a synthesized name shows the name that the address already went by, and leaves every
    other address alone. -/
theorem label?_ensureLabel (symbols : Symbols) (address other : Int) :
    (symbols.ensureLabel address).label? other =
      if other = address then some (symbols.nameOf address) else symbols.label? other := by
  simp only [ensureLabel, label?, Std.TreeMap.getElem?_insertIfNew, nameOf]
  by_cases heq : other = address
  · subst heq
    cases hfound : symbols.labels[other]? with
    | none => simp [Std.TreeMap.mem_iff_isSome_getElem?, hfound]
    | some label => simp [Std.TreeMap.mem_iff_isSome_getElem?, hfound]
  · simp [heq, Ne.symm heq]

/-- Names do not change when synthesized labels are recorded. -/
theorem nameOf_ensureLabel (symbols : Symbols) (address : Int) :
    (symbols.ensureLabel address).nameOf = symbols.nameOf := by
  funext other
  simp only [nameOf, label?_ensureLabel]
  by_cases heq : other = address
  · subst heq
    simp
  · simp [heq]

end Symbols

end Midrange
