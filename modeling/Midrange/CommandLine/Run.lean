import Midrange.CommandLine.Arguments
import Midrange.CommandLine.Files
import Midrange.Disassembly
import Midrange.Graph.Dot
import Midrange.Hints.Load
import Midrange.Image.Basic
import Midrange.Image.HexFile
import Midrange.Text.Utf8

namespace Midrange.CommandLine

/-- Why a command fails. -/
inductive Failure where
  | file (fault : FileFault)
  | image (fault : ImageFault)
  | hint (fault : HintFault)
  | encoding (fault : Text.Utf8Fault)
  | depth (fault : Depth.TooDeep)
  | emptyHints
  | emptyRange
  | emptyLimit
  deriving DecidableEq, Repr

namespace Failure

/-- What is said of a fault for which no other words have been found. -/
def unforeseen (text : String) : String :=
  "Internal disassembler error: " ++ text

def message : Failure → String
  | file fault => fault.message
  | image fault => s!"Image error: {fault.message}"
  | hint fault => s!"Hint file error: {fault.message}"
  | encoding fault => unforeseen fault.message
  | depth fault => s!"Analysis error: {fault.message}"
  | emptyHints => unforeseen "expected str, bytes or os.PathLike object, not list"
  | emptyRange => unforeseen "not enough values to unpack (expected 2, got 0)"
  | emptyLimit => unforeseen "'>' not supported between instances of 'int' and 'list'"

/-- The status with which the command ends. -/
def status : Failure → Nat
  | file .zeroCharacter => 2
  | encoding _ => 2
  | emptyHints => 2
  | emptyRange => 2
  | emptyLimit => 2
  | _ => 1

end Failure

/-- What a command has done so far: its messages, its output, the state of the files, and the place
    of the one among them that the messages are added to. -/
structure Session where
  journal : Journal := []
  output : String := ""
  files : Files
  log : Option Place := none

/-- Work that may fail; what it has done by then stays done. -/
abbrev Work := ExceptT Failure (StateM Session)

namespace Work

def say (report : Report) : Work Unit :=
  modify fun session => { session with journal := session.journal ++ [report] }

def sayAll (journal : Journal) : Work Unit :=
  modify fun session => { session with journal := session.journal ++ journal }

def tell (text : String) : Work Unit :=
  say ⟨.info, .commandLine, text⟩

def lift {ε α : Type} (failure : ε → Failure) (result : Except ε α) : Work α :=
  match result with
  | .ok value => pure value
  | .error fault => throw (failure fault)

end Work

open Work

/-- A message as a log file keeps it, with the part of the program that gave it. -/
def logLine (report : Report) : String :=
  s!"{Text.padRight 7 report.severity.text} | {report.reporter.text} | {report.text}\n"

def logText (journal : Journal) : String :=
  String.join (journal.map logLine)

/-- The bytes of a file. A log file also holds what has been said by now. -/
def Session.bytesOf (session : Session) (path : Path) : Except FileFault (List UInt8) :=
  (session.files.read path.normal).map fun (place, bytes) =>
    if session.log = some place then bytes ++ (logText session.journal).toUTF8.toList else bytes

def readFile (path : Path) : Work (List UInt8) := do
  lift .file ((← get).bytesOf path)

/-- The form of an image file: what the command says, or else what the name ends in. -/
def imageFormat (settings : Settings) : ImageFormat :=
  settings.format.getD
    (if (Path.suffix settings.input).map Char.toLower == ".bin" then .bin else .hex)

/-- The image that the bytes of the input make. -/
def readImage (settings : Settings) (bytes : List UInt8) : Except ImageFault Image :=
  match imageFormat settings with
  | .bin => Image.ofBytes bytes
  | .hex => Image.ofHex (Text.decodeAscii bytes)

def loadImage (settings : Settings) : Work Image := do
  lift .image (readImage settings (← readFile settings.input))

/-- The names after the hints of one more file. -/
def loadHints (symbols : Symbols) : Option Path → Work Symbols
  | none => throw .emptyHints
  | some path => do
    let bytes ← readFile path
    let text ← lift .encoding (Text.decodeUtf8 bytes)
    let (load, fault?) := ({ symbols } : HintLoad).take text
    sayAll load.journal
    match fault? with
    | some fault => throw (.hint fault)
    | none =>
      say ⟨.info, .hints, s!"Loaded {load.applied} hints from {path.normal}"⟩
      return load.symbols

/-- The names after one more range of data. -/
def addRange (symbols : Symbols) : Option (Int × Int) → Work Symbols
  | none => throw .emptyRange
  | some (start, stop) => return symbols.addData ⟨start, stop, none⟩

/-- Whether the nesting of calls is wanted; a graph needs it. -/
def wantsDepth (settings : Settings) : Bool :=
  settings.depth || settings.graph.any (· ≠ "")

/-- The deepest nesting that calls may have. An empty limit stands for zero, so that the first call
    that is followed runs into it. -/
def depthLimit (settings : Settings) : Int :=
  settings.maxDepth.getD 0

def depthOptions (settings : Settings) (device : Device) : Depth.Options :=
  { maxDepth := depthLimit settings
    oneLinkPerPair := settings.oneLinkPerPair
    hideCalls := settings.hideCalls
    memoryLimit := device.programWords }

/-- What it means that a call nests too deep. An empty limit compares with nothing, so it is at
    fault itself. -/
def depthFailure (settings : Settings) (fault : Depth.TooDeep) : Failure :=
  if settings.maxDepth.isNone then .emptyLimit else .depth fault

/-- Writes a text file. -/
def writeFile (path : Path) (text : String) : Work Unit := do
  let files ← lift .file ((← get).files.write path text)
  modify fun session => { session with files }

/-- Puts the listing where the command wants it. -/
def writeListing (settings : Settings) (listing : String) : Work Unit := do
  match settings.output.filter (· ≠ "") with
  | some path =>
    writeFile path listing
    tell s!"Output: {path}"
  | none => modify fun session => { session with output := session.output ++ listing }

/-- Tells how deep calls nest. -/
def tellDeepest (findings : Depth.Findings) : Work Unit :=
  match findings.deepest? with
  | some (address, nesting) =>
    let chain := String.intercalate " -> " nesting.chain
    tell s!"Max call depth {nesting.depth} at {Text.hexLiteral 4 address} via {chain}"
  | none => pure ()

/-- Writes the graph of calls if that is wanted. -/
def writeGraph (settings : Settings) (symbols : Symbols) (findings : Depth.Findings) :
    Work Unit := do
  match settings.graph.filter (· ≠ "") with
  | some (path : Path) =>
    writeFile path.normal (findings.dot (some symbols) (Path.base settings.input))
    tell s!"Graph:  {path} ({findings.links.length} edges)"
  | none => pure ()

/-- Tells where the messages go besides. -/
def tellLog (settings : Settings) : Work Unit :=
  match settings.logFile with
  | some path => say ⟨.info, .session, s!"Log file: {path}"⟩
  | none => pure ()

/-- The image that settings name. -/
def takeImage (settings : Settings) (device : Device) : Work Image := do
  tellLog settings
  tell s!"Input:  {settings.input}"
  tell s!"Device: {device.name} - {device.summary}"
  let image ← loadImage settings
  tell s!"Loaded {image.size} words, codesize {Text.hexLiteral 4 image.codeSize}"
  return image

/-- The names that hints and ranges of data make out of the standard ones. -/
def takeNames (settings : Settings) : Work Symbols := do
  settings.data.foldlM addRange (← settings.hints.foldlM loadHints .standard)

/-- The analysis that settings ask for, if any. -/
def wantedAnalysis (settings : Settings) (device : Device) : Option Depth.Options :=
  if wantsDepth settings then some (depthOptions settings device) else none

/-- Takes the program apart. Nothing is written on the way. -/
def takeApart (settings : Settings) (device : Device) : Work Disassembly := do
  let image ← takeImage settings device
  let symbols ← takeNames settings
  let outcome := Disassembly.run device image symbols (wantedAnalysis settings device)
  sayAll outcome.journal
  lift (depthFailure settings) outcome.result

/-- Puts what has been found where the command wants it. -/
def publish (settings : Settings) (disassembly : Disassembly) : Work Unit := do
  writeListing settings disassembly.listing.text
  match disassembly.findings with
  | some findings =>
    tellDeepest findings
    writeGraph settings disassembly.symbols findings
  | none => pure ()

/-- The work that settings ask for. -/
def work (settings : Settings) (device : Device) : Work Unit := do
  publish settings (← takeApart settings device)

/-- How a command ends. -/
structure Outcome where
  status : Nat
  /-- Whether the arguments alone decided how the command ends. -/
  early : Bool
  output : String := ""
  errors : String := ""
  written : List (Path × String) := []
  log : Option (Path × Journal) := none
  deriving DecidableEq, Repr

/-- A message as the plain handler of the console formats it. The command itself shows its messages
    through a rich handler, which lays out the same severity and text in columns of its own. -/
def consoleLine (report : Report) : String :=
  s!"{Text.padRight 7 report.severity.text} | {report.text}\n"

/-- The messages that are severe enough to be shown, in the plain format. -/
def console (settings : Settings) (journal : Journal) : String :=
  let least := shownFrom settings.verbose settings.quiet
  String.join ((journal.filter fun report => least.rank ≤ report.severity.rank).map consoleLine)

/-- Why a command does not get as far as its input. -/
inductive StartFault where
  | log (fault : FileFault)
  | emptyDevice
  deriving DecidableEq, Repr

def StartFault.message : StartFault → String
  | log fault => fault.reason
  | emptyDevice => "unhashable type: 'list'"

/-- The session that a command starts with. A log file is there from then on. -/
def openSession (settings : Settings) (files : Files) : Except StartFault Session :=
  match settings.logFile with
  | none => .ok { files }
  | some path =>
    match files.locateOutput (Path.direct path) with
    | .error fault => .error (.log fault)
    | .ok place => .ok { files := files.touch place, log := some place }

/-- How a command that started comes out. -/
def outcome (settings : Settings) (result : Except Failure Unit) (session : Session) : Outcome :=
  let shown := console settings session.journal
  let (status, errors) :=
    match result with
    | .ok () => (0, shown)
    | .error failure => (failure.status, shown ++ failure.message ++ "\n")
  { status, early := false, output := session.output, errors, written := session.files.written
    log := session.log.map fun place => (place.text, session.journal) }

/-- Does what settings ask for with the files there are. -/
def perform (settings : Settings) (files : Files) : Except StartFault Outcome := do
  let session ← openSession settings files
  match settings.device with
  | none => .error .emptyDevice
  | some device =>
    let (result, session) := (work settings device).run.run session
    return outcome settings result session

def versionText : String := "pic16dis 0.1.0 (KingAI)\n"

/-- The switches with a mark for those that take a value. -/
def helpText : String :=
  let lines := Switch.spellings.map fun (spelling, switch) =>
    "  " ++ spelling ++ if switch.takesValue then " VALUE" else ""
  Text.endLines ("usage: pic16dis [switches] input" :: lines)

/-- Runs the command that arguments make with the files there are. -/
def run (arguments : List String) (files : Files) : Except StartFault Outcome :=
  match command arguments with
  | .error fault =>
    .ok { status := 2, early := true, errors := s!"pic16dis: error: {fault.message}\n" }
  | .ok .showHelp => .ok { status := 0, early := true, output := helpText }
  | .ok .showVersion => .ok { status := 0, early := true, output := versionText }
  | .ok (.run settings) => perform settings files

end Midrange.CommandLine
