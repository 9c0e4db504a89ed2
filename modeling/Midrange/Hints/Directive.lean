import Midrange.Symbols.Basic
import Midrange.Text.Numeral

namespace Midrange

/-- The words that open a line of hints. -/
inductive HintKeyword where
  | label
  | register
  | bit
  | data
  deriving DecidableEq, Repr

namespace HintKeyword

/-- The keyword that a word spells in either case. -/
def ofWord? (word : List Char) : Option HintKeyword :=
  match String.ofList (word.map Char.toLower) with
  | "label" => some label
  | "reg" => some register
  | "bit" => some bit
  | "data" => some data
  | _ => none

/-- The form of the line that a keyword opens. -/
def usage : HintKeyword → String
  | label => "label ADDR NAME"
  | register => "reg ADDR NAME"
  | bit => "bit REG BIT NAME"
  | data => "data START END [NAME]"

end HintKeyword

/-- What is wrong with a line of hints. -/
inductive HintCause where
  | unknownKeyword (word : String)
  | wrongForm (keyword : HintKeyword)
  | badNumber (text : String)
  | outOfRange (value limit : Int)
  | badName (text : String)
  | unnamedRegister (register : Int)
  | emptyData (start stop : Int)
  deriving DecidableEq, Repr

def HintCause.message : HintCause → String
  | unknownKeyword word => s!"Unknown directive '{word}'"
  | wrongForm keyword => s!"Expected: {keyword.usage}"
  | badNumber text => s!"Bad number '{text}'"
  | outOfRange value limit =>
    s!"Value {Text.hexLiteral 0 value} out of range (limit {Text.hexLiteral 0 limit})"
  | badName text => s!"Invalid name '{text}'"
  | unnamedRegister register =>
    s!"Register {Text.hexLiteral 0 register} has no name, add a 'reg' line first"
  | emptyData start stop =>
    s!"Empty data range {Text.hexLiteral 4 start}-{Text.hexLiteral 4 stop}"

/-- One hint. The register of a bit is meant by its name, even if the line gives its number. -/
inductive Directive where
  | label (address : Int) (name : String)
  | register (register : Int) (name : String)
  | bit (register : String) (bit : Int) (name : String)
  | data (block : DataBlock)
  deriving DecidableEq, Repr

namespace Directive

/-- The number of registers in all banks. -/
def registerLimit : Int := 0x200

/-- Whether a text may name something: a letter or an underscore, then also digits and points. -/
def isName : List Char → Bool
  | [] => false
  | c :: rest =>
    (c.isAlpha || c == '_') && rest.all fun c => c.isAlphanum || c == '_' || c == '.'

def name (text : List Char) : Except HintCause String :=
  if isName text then .ok (String.ofList text) else .error (.badName (String.ofList text))

/-- A number below a limit. -/
def number (limit : Int) (text : List Char) : Except HintCause Int :=
  match Text.readNumeral text with
  | .error _ => .error (.badNumber (String.ofList text))
  | .ok value => if 0 ≤ value ∧ value < limit then .ok value else .error (.outOfRange value limit)

/-- The name of the register that a field means. A number has to be that of a named register. -/
def registerName (symbols : Symbols) (text : List Char) : Except HintCause String :=
  match Text.readNumeral text with
  | .error _ => name text
  | .ok index =>
    match symbols.registerName? index with
    | some found => .ok found
    | none => .error (.unnamedRegister index)

/-- A block of data that is not empty, with or without a name. -/
def block (start stop : List Char) (named : Option (List Char)) : Except HintCause DataBlock := do
  let start ← number Symbols.imageLimit start
  let stop ← number (Symbols.imageLimit + 1) stop
  if stop ≤ start then .error (.emptyData start stop)
  else
    match named with
    | some text => return ⟨start, stop, some (← name text)⟩
    | none => return ⟨start, stop, none⟩

/-- The hint that the fields of a line make, once their number is right. They are checked from left
    to right. -/
def ofFields (symbols : Symbols) (keyword : HintKeyword) (fields : List (List Char)) :
    Except HintCause Directive :=
  match keyword, fields with
  | .label, [address, text] => do return label (← number Symbols.imageLimit address) (← name text)
  | .register, [index, text] => do return register (← number registerLimit index) (← name text)
  | .bit, [owner, index, text] => do
    return bit (← registerName symbols owner) (← number 8 index) (← name text)
  | .data, [start, stop] => do return data (← block start stop none)
  | .data, [start, stop, text] => do return data (← block start stop (some text))
  | keyword, _ => .error (.wrongForm keyword)

/-- What a hint adds to the names. A label for an address whose name has to stay adds nothing. -/
def apply (symbols : Symbols) : Directive → Symbols
  | label address name => symbols.addLabel address name
  | register index name => symbols.nameRegister index name
  | bit owner index name => symbols.nameBit owner index name
  | data block => symbols.addData block

end Directive

end Midrange
