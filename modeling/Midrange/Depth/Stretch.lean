import Midrange.Image.Basic
import Midrange.Instruction.Basic

namespace Midrange.Depth

/-- What following a program depends on: its words, the names that steer bank and page and mark
    data, and the address where program memory ends. -/
structure Code where
  image : Image
  symbols : Symbols
  limit : Int

/-- Why control goes no further along consecutive addresses. -/
inductive Ending where
  | programEnd
  | absent
  | data
  | tableEnd
  | goto
  | ret
  | retfie
  | retlw
  deriving DecidableEq, Repr

def Ending.text : Ending → String
  | programEnd => "end of program memory"
  | absent => "absent word"
  | data => "data word"
  | tableEnd => "end of lookup table"
  | goto => "goto"
  | ret => "return"
  | retfie => "retfie"
  | retlw => "retlw"

/-- A way for control to leave consecutive addresses, with the address it leaves for. -/
inductive Departure where
  | skip (target : Int)
  | branch (kind : BranchKind) (site target : Int)
  deriving DecidableEq, Repr

def Departure.target : Departure → Int
  | skip target => target
  | branch _ _ target => target

/-- The addresses that control passes one after the other, the departures on the way, and the reason
    why it goes no further. -/
structure Stretch where
  addresses : List Int
  departures : List Departure
  ending : Ending
  deriving DecidableEq, Repr

namespace Stretch

def halted (ending : Ending) : Stretch :=
  ⟨[], [], ending⟩

/-- The stretch that starts one address earlier. -/
def lead (address : Int) (departure? : Option Departure) (stretch : Stretch) : Stretch :=
  { stretch with
    addresses := address :: stretch.addresses
    departures := departure?.toList ++ stretch.departures }

end Stretch

/-- The departure that an instruction offers: a branch to its target, or a skip over the next
    word. -/
def departure? (instruction : Instruction) : Option Departure :=
  let mnemonic := instruction.mnemonic
  match mnemonic.branchKind? with
  | some kind => instruction.target?.map (.branch kind instruction.address)
  | none => if mnemonic.isSkip then some (.skip (instruction.address + 2)) else none

/-- Whether control stops behind an operation. In a table of computed jumps a `goto` or `retlw` is
    only one of the entries, so control may as well reach the next one. -/
def ending? (inTable : Bool) : Mnemonic → Option Ending
  | .ret => some .ret
  | .retfie => some .retfie
  | .goto => if inTable then none else some .goto
  | .retlw => if inTable then none else some .retlw
  | _ => none

namespace Code

/-- The word that control meets at an address, or why it cannot pass. -/
def wordAt (code : Code) (address : Int) : Except Ending Int :=
  if code.limit ≤ address then .error .programEnd
  else
    match code.image.word? address with
    | none => .error .absent
    | some word => if code.symbols.isData address then .error .data else .ok word

/-- Follows at most a number of words. The selection is the one in force at the address, and a table
    of computed jumps lasts as long as its entries do. -/
def follow (code : Code) : Nat → Int → Selection → Bool → Stretch
  | 0, address, _, _ =>
    match code.wordAt address with
    | .error ending => .halted ending
    | .ok _ => .halted .absent
  | count + 1, address, selection, inTable =>
    match code.wordAt address with
    | .error ending => .halted ending
    | .ok word =>
      let instruction : Instruction := ⟨address, word, selection⟩
      let mnemonic := instruction.mnemonic
      if inTable && !mnemonic.isTableEntry then .halted .tableEnd
      else
        match ending? inTable mnemonic with
        | some ending => (Stretch.halted ending).lead address (departure? instruction)
        | none =>
          (code.follow count (address + 1) (instruction.after code.symbols)
            (inTable || Encoding.isDispatch word)).lead address (departure? instruction)

/-- The stretch from an address on, entered with the selection of that address. All words on it are
    present and none comes twice, so there are no more of them than the image holds. -/
def stretch (code : Code) (start : Int) : Stretch :=
  code.follow code.image.size start (.atEntry start) false

end Code

end Midrange.Depth
