namespace Midrange

/-- The operations of the mid-range core, and one for the words that encode none of them. -/
inductive Mnemonic where
  | addwf | andwf | clrf | clrw | comf | decf | decfsz | incf | incfsz | iorwf | movf | movwf
  | nop | rlf | rrf | subwf | swapf | xorwf
  | bcf | bsf | btfsc | btfss
  | addlw | andlw | call | clrwdt | goto | iorlw | movlw | retfie | retlw | ret | sleep | sublw
  | xorlw
  | unknown
  deriving DecidableEq, Repr

/-- The two ways in which control leaves for another address and names it in the instruction. -/
inductive BranchKind where
  | call
  | goto
  deriving DecidableEq, Repr

namespace Mnemonic

/-- The name of an operation in a listing. -/
def text : Mnemonic → String
  | addwf => "addwf"
  | andwf => "andwf"
  | clrf => "clrf"
  | clrw => "clrw"
  | comf => "comf"
  | decf => "decf"
  | decfsz => "decfsz"
  | incf => "incf"
  | incfsz => "incfsz"
  | iorwf => "iorwf"
  | movf => "movf"
  | movwf => "movwf"
  | nop => "nop"
  | rlf => "rlf"
  | rrf => "rrf"
  | subwf => "subwf"
  | swapf => "swapf"
  | xorwf => "xorwf"
  | bcf => "bcf"
  | bsf => "bsf"
  | btfsc => "btfsc"
  | btfss => "btfss"
  | addlw => "addlw"
  | andlw => "andlw"
  | call => "call"
  | clrwdt => "clrwdt"
  | goto => "goto"
  | iorlw => "iorlw"
  | movlw => "movlw"
  | retfie => "retfie"
  | retlw => "retlw"
  | ret => "return"
  | sleep => "sleep"
  | sublw => "sublw"
  | xorlw => "xorlw"
  | unknown => "unknown"

/-- The instructions that pass over the next one on a condition. -/
def isSkip : Mnemonic → Bool
  | btfsc | btfss | decfsz | incfsz => true
  | _ => false

/-- The instructions that may stand in a table of computed jumps. -/
def isTableEntry : Mnemonic → Bool
  | goto | retlw | nop => true
  | _ => false

/-- The value that a bit gets from an instruction that writes a single bit. -/
def writtenBit? : Mnemonic → Option Bool
  | bsf => some true
  | bcf => some false
  | _ => none

def branchKind? : Mnemonic → Option BranchKind
  | call => some .call
  | goto => some .goto
  | _ => none

end Mnemonic

/-- The word for a branch in listings of references and in graphs. -/
def BranchKind.text : BranchKind → String
  | call => "call"
  | goto => "goto"

end Midrange
