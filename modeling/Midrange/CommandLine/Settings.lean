import Midrange.Device
import Midrange.Journal
import Midrange.Text.Numeral

namespace Midrange.CommandLine

/-- The switches of the command line. -/
inductive Switch where
  | help
  | output
  | format
  | hints
  | device
  | depth
  | maxDepth
  | graph
  | oneLinkPerPair
  | hideCalls
  | data
  | verbose
  | quiet
  | logFile
  | version
  deriving DecidableEq, Repr

namespace Switch

/-- The spellings of all switches, in the order in which choices between them are listed. -/
def spellings : List (String × Switch) := [
  ("-h", help), ("--help", help),
  ("-o", output), ("--output", output),
  ("--format", format),
  ("--hints", hints),
  ("--device", device),
  ("--depth", depth),
  ("--max-depth", maxDepth),
  ("--graph", graph),
  ("--single-trace", oneLinkPerPair),
  ("--no-subroutine-edges", hideCalls),
  ("--data", data),
  ("--verbose", verbose), ("-v", verbose),
  ("--quiet", quiet), ("-q", quiet),
  ("--log-file", logFile),
  ("--version", version)]

/-- The switch with exactly a given spelling. -/
def spelled? (spelling : String) : Option Switch :=
  (spellings.find? (·.1 == spelling)).map (·.2)

/-- A switch under all its spellings, as messages name it. -/
def text (switch : Switch) : String :=
  String.intercalate "/" ((spellings.filter (·.2 = switch)).map (·.1))

def takesValue : Switch → Bool
  | output | format | hints | device | maxDepth | graph | data | logFile => true
  | help | depth | oneLinkPerPair | hideCalls | verbose | quiet | version => false

end Switch

/-- The two forms of image files. -/
inductive ImageFormat where
  | hex
  | bin
  deriving DecidableEq, Repr

/-- What is wrong with a range of addresses. -/
inductive RangeFault where
  | noDash (text : String)
  | badNumber (text : String)
  | empty (text : String)
  deriving DecidableEq, Repr

def RangeFault.message : RangeFault → String
  | noDash text => "expected START-END, got " ++ Text.quoted text
  | badNumber text => "invalid number: " ++ Text.quoted text
  | empty text => "empty range " ++ Text.quoted text

/-- One end of a range. -/
def rangeNumber (text : List Char) : Except RangeFault Int :=
  match Text.readNumeral text with
  | .ok value => .ok value
  | .error _ => .error (.badNumber (String.ofList text))

/-- Two numbers around the first dash of a text, the lower one first. -/
def readRange (text : String) : Except RangeFault (Int × Int) :=
  let start := text.toList.takeWhile (· ≠ '-')
  match text.toList.dropWhile (· ≠ '-') with
  | [] => .error (.noDash text)
  | _ :: stop => do
    let start ← rangeNumber start
    let stop ← rangeNumber stop
    if stop ≤ start then .error (.empty text) else return (start, stop)

/-- Why arguments make no command. -/
inductive UsageFault where
  | ambiguous (argument : String) (spellings : List String)
  | noValue (switch : Switch)
  | ignoredValue (switch : Switch) (value : String)
  | badChoice (switch : Switch) (value : String) (choices : List String)
  | badInteger (switch : Switch) (value : String)
  | badRange (switch : Switch) (fault : RangeFault)
  | noInput
  | unrecognized (arguments : List String)
  deriving DecidableEq, Repr

def UsageFault.message : UsageFault → String
  | ambiguous argument spellings =>
    s!"ambiguous option: {argument} could match " ++ String.intercalate ", " spellings
  | noValue switch => s!"argument {switch.text}: expected one argument"
  | ignoredValue switch value =>
    s!"argument {switch.text}: ignored explicit argument {Text.quoted value}"
  | badChoice switch value choices =>
    let list := String.intercalate ", " (choices.map Text.quoted)
    s!"argument {switch.text}: invalid choice: {Text.quoted value} (choose from {list})"
  | badInteger switch value => s!"argument {switch.text}: invalid int value: {Text.quoted value}"
  | badRange switch fault => s!"argument {switch.text}: {fault.message}"
  | noInput => "the following arguments are required: input"
  | unrecognized arguments => "unrecognized arguments: " ++ String.intercalate " " arguments

/-- What a command asks for. A divider as the value of a switch leaves it empty, which shows as
    hints or a range that are missing, or as no device or no limit. -/
structure Settings where
  input : String := ""
  output : Option String := none
  format : Option ImageFormat := none
  hints : List (Option String) := []
  device : Option Device := some .generic
  depth : Bool := false
  maxDepth : Option Int := some 100
  graph : Option String := none
  oneLinkPerPair : Bool := false
  hideCalls : Bool := false
  data : List (Option (Int × Int)) := []
  verbose : Nat := 0
  quiet : Bool := false
  logFile : Option String := none
  deriving DecidableEq, Repr

/-- The least severity that is shown for a count of requests for more and a request for less. -/
def shownFrom (verbose : Nat) (quiet : Bool) : Severity :=
  if quiet then .error
  else
    match verbose with
    | 0 => .warning
    | 1 => .info
    | _ => .debug

namespace Settings

def formatChoices : List (String × ImageFormat) := [("hex", .hex), ("bin", .bin)]

/-- The settings after a switch that stands alone. -/
def flag (settings : Settings) : Switch → Settings
  | .depth => { settings with depth := true }
  | .oneLinkPerPair => { settings with oneLinkPerPair := true }
  | .hideCalls => { settings with hideCalls := true }
  | .verbose => { settings with verbose := settings.verbose + 1 }
  | .quiet => { settings with quiet := true }
  | _ => settings

/-- The settings after a switch with a divider for a value, which is not looked at. An empty format
    is not the binary one, and an empty log file has the name of an empty list. -/
def empty (settings : Settings) : Switch → Settings
  | .output => { settings with output := none }
  | .format => { settings with format := some .hex }
  | .hints => { settings with hints := settings.hints ++ [none] }
  | .device => { settings with device := none }
  | .maxDepth => { settings with maxDepth := none }
  | .graph => { settings with graph := none }
  | .data => { settings with data := settings.data ++ [none] }
  | .logFile => { settings with logFile := some "[]" }
  | _ => settings

/-- The settings after a switch with a value. Hints and ranges add up; of other values the last one
    counts. -/
def assign (settings : Settings) (switch : Switch) (value : String) : Except UsageFault Settings :=
  if value = "--" then .ok (settings.empty switch)
  else
    match switch with
    | .output => .ok { settings with output := some value }
    | .graph => .ok { settings with graph := some value }
    | .logFile => .ok { settings with logFile := some value }
    | .hints => .ok { settings with hints := settings.hints ++ [some value] }
    | .format =>
      match formatChoices.lookup value with
      | some format => .ok { settings with format := some format }
      | none => .error (.badChoice switch value (formatChoices.map (·.1)))
    | .device =>
      match Device.named? value with
      | some device => .ok { settings with device := some device }
      | none => .error (.badChoice switch value (Device.all.map (·.name)))
    | .maxDepth =>
      match Text.integer? .decimal value.toList with
      | some maxDepth => .ok { settings with maxDepth := some maxDepth }
      | none => .error (.badInteger switch value)
    | .data =>
      match readRange value with
      | .ok range => .ok { settings with data := settings.data ++ [some range] }
      | .error fault => .error (.badRange switch fault)
    | _ => .ok settings

end Settings

end Midrange.CommandLine
