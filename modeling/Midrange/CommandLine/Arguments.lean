import Midrange.CommandLine.Settings

namespace Midrange.CommandLine

/-- What a single argument is, before its neighbours are looked at. A switch may carry text; a
    letter switch may carry further letters that way. -/
inductive Token where
  | plain (text : String)
  | divider
  | switch (switch : Switch) (letter : Bool) (carried : Option (List Char))
  | stray (text : String)
  deriving DecidableEq, Repr

namespace Token

/-- A text without the line feed that it may end in. -/
def withoutFinalBreak (text : List Char) : List Char :=
  if text.getLast? = some '\n' then text.dropLast else text

/-- Whether a text is a minus sign and a decimal number, with or without a point. The line may end
    behind it. -/
def isNegativeNumber (text : List Char) : Bool :=
  match withoutFinalBreak text with
  | '-' :: rest =>
    let whole := rest.takeWhile fun c => (Text.decimalValue? c).isSome
    match rest.dropWhile fun c => (Text.decimalValue? c).isSome with
    | [] => !whole.isEmpty
    | '.' :: fraction => !fraction.isEmpty && fraction.all fun c => (Text.decimalValue? c).isSome
    | _ => false
  | _ => false

/-- The parts of an argument before and behind its first equals sign. -/
def splitEquals (argument : List Char) : List Char × Option (List Char) :=
  match argument.dropWhile (· ≠ '=') with
  | [] => (argument, none)
  | _ :: value => (argument.takeWhile (· ≠ '='), some value)

def startsWith (start text : String) : Bool :=
  start.toList.isPrefixOf text.toList

/-- The switches that an argument may abbreviate, with the spelling meant: a word is cut short, and
    a letter carries the rest of the argument. -/
def candidates (argument : List Char) : List (String × Token) :=
  let (name, value) := splitEquals argument
  match argument with
  | '-' :: '-' :: _ =>
    let matching := Switch.spellings.filter fun (spelling, _) =>
      startsWith (String.ofList name) spelling
    matching.map fun (spelling, found) => (spelling, switch found false value)
  | '-' :: c :: rest =>
    let matching := Switch.spellings.filter fun (spelling, _) => spelling == String.ofList ['-', c]
    matching.map fun (spelling, found) => (spelling, switch found true (some rest))
  | _ => []

/-- What an argument means that no switch explains: a number or a text with a space may be a value
    even behind a dash. -/
def unexplained (argument : String) : Token :=
  if isNegativeNumber argument.toList || argument.toList.contains ' ' then plain argument
  else stray argument

/-- Whether a spelling is a dash and one letter. -/
def isLetter (spelling : List Char) : Bool :=
  match spelling with
  | '-' :: '-' :: _ => false
  | _ => true

/-- Tells switches from values. An exact spelling is preferred to an abbreviation, which has to be
    the only one possible. -/
def ofArgument (argument : String) : Except UsageFault Token :=
  match argument.toList with
  | '-' :: _ :: _ =>
    match Switch.spelled? argument with
    | some found => .ok (switch found (isLetter argument.toList) none)
    | none =>
      let (name, value) := splitEquals argument.toList
      match value, Switch.spelled? (String.ofList name) with
      | some value, some found => .ok (switch found (isLetter name) (some value))
      | _, _ =>
        match candidates argument.toList with
        | [] => .ok (unexplained argument)
        | [(_, token)] => .ok token
        | several => .error (.ambiguous argument (several.map (·.1)))
  | _ => .ok (plain argument)

/-- The tokens of a command. Behind a divider everything is a value. -/
def ofArguments : List String → Except UsageFault (List Token)
  | [] => .ok []
  | "--" :: rest => .ok (divider :: rest.map plain)
  | argument :: rest => do
    let token ← ofArgument argument
    return token :: (← ofArguments rest)

end Token

/-- What one argument with a switch amounts to: the switches in it, the last of which may still need
    the next argument as its value. -/
structure Cluster where
  switches : List (Switch × Option String) := []
  open? : Option Switch := none
  deriving DecidableEq, Repr

namespace Cluster

def lead (switch : Switch) (cluster : Cluster) : Cluster :=
  { cluster with switches := (switch, none) :: cluster.switches }

/-- A switch that carries nothing. -/
def bare (switch : Switch) : Cluster :=
  if switch.takesValue then { open? := some switch } else { switches := [(switch, none)] }

/-- A switch with the text that it carries. A letter that takes no value hands the text on to the
    letter that it begins with. -/
def carrying (switch : Switch) (letter : Bool) (text : List Char) : Except UsageFault Cluster :=
  if switch.takesValue then .ok { switches := [(switch, some (String.ofList text))] }
  else
    match letter, text with
    | true, c :: rest =>
      match Switch.spelled? (String.ofList ['-', c]), rest with
      | none, _ => .error (.ignoredValue switch (String.ofList (c :: rest)))
      | some next, [] => .ok ((bare next).lead switch)
      | some next, d :: more => do return (← carrying next true (d :: more)).lead switch
    | _, _ => .error (.ignoredValue switch (String.ofList text))

def ofSwitch (switch : Switch) (letter : Bool) (carried : Option (List Char)) :
    Except UsageFault Cluster :=
  match carried with
  | none => .ok (bare switch)
  | some text => carrying switch letter text

end Cluster

/-- What arguments amount to. -/
inductive Command where
  | run (settings : Settings)
  | showHelp
  | showVersion
  deriving DecidableEq, Repr

/-- The arguments read so far: the settings, whether the input has been named, and what nothing
    could be made of. -/
structure Reading where
  settings : Settings := {}
  hasInput : Bool := false
  extras : List String := []
  deriving DecidableEq, Repr

namespace Reading

def extra (reading : Reading) (texts : List String) : Reading :=
  { reading with extras := reading.extras ++ texts }

/-- Takes a value that belongs to no switch: the first one is the input. -/
def value (reading : Reading) (text : String) : Reading :=
  if reading.hasInput then reading.extra [text]
  else { reading with hasInput := true, settings := { reading.settings with input := text } }

/-- Takes switches in their order, up to one that asks for a text about the program. -/
def switches (reading : Reading) :
    List (Switch × Option String) → Except UsageFault (Reading ⊕ Command)
  | [] => .ok (.inl reading)
  | (.help, _) :: _ => .ok (.inr .showHelp)
  | (.version, _) :: _ => .ok (.inr .showVersion)
  | (switch, none) :: rest =>
    switches { reading with settings := reading.settings.flag switch } rest
  | (switch, some text) :: rest => do
    let settings ← reading.settings.assign switch text
    switches { reading with settings } rest

/-- The command once everything has been read. -/
def finish (reading : Reading) : Except UsageFault Command :=
  if !reading.hasInput then .error .noInput
  else if !reading.extras.isEmpty then .error (.unrecognized reading.extras)
  else .ok (.run reading.settings)

/-- Reads tokens from left to right. A divider next to the input vanishes with it. -/
def tokens (reading : Reading) : List Token → Except UsageFault Command
  | [] => reading.finish
  | .plain text :: .divider :: rest =>
    if reading.hasInput then (reading.extra [text, "--"]).tokens rest
    else (reading.value text).tokens rest
  | .plain text :: rest => (reading.value text).tokens rest
  | .divider :: .plain text :: rest =>
    if reading.hasInput then (reading.extra ["--", text]).tokens rest
    else (reading.value text).tokens rest
  | .divider :: rest => (reading.extra ["--"]).tokens rest
  | .stray text :: rest => (reading.extra [text]).tokens rest
  | .switch switch letter carried :: rest => do
    let cluster ← Cluster.ofSwitch switch letter carried
    match cluster.open?, rest with
    | none, rest =>
      match ← reading.switches cluster.switches with
      | .inl next => next.tokens rest
      | .inr command => return command
    | some last, .plain text :: rest =>
      match ← reading.switches (cluster.switches ++ [(last, some text)]) with
      | .inl next => next.tokens rest
      | .inr command => return command
    | some last, _ => throw (.noValue last)

end Reading

/-- The command that arguments make. -/
def command (arguments : List String) : Except UsageFault Command := do
  ({} : Reading).tokens (← Token.ofArguments arguments)

end Midrange.CommandLine
