import Midrange.CommandLine.Path
import Midrange.Text.Quoted

namespace Midrange.CommandLine

/-- Why a file can be neither read nor written. -/
inductive FileFault where
  | missing (path : Path)
  | directory (path : Path)
  | notDirectory (path : Path)
  | nameTooLong (path : Path)
  | zeroCharacter
  deriving DecidableEq, Repr

namespace FileFault

/-- What the system says. -/
def reason : FileFault → String
  | missing path => s!"[Errno 2] No such file or directory: {Text.quoted path}"
  | directory path => s!"[Errno 21] Is a directory: {Text.quoted path}"
  | notDirectory path => s!"[Errno 20] Not a directory: {Text.quoted path}"
  | nameTooLong path => s!"[Errno 36] File name too long: {Text.quoted path}"
  | zeroCharacter => "embedded null byte"

def message : FileFault → String
  | missing path => s!"Error: File not found: {path}"
  | zeroCharacter => "Internal disassembler error: " ++ zeroCharacter.reason
  | fault => "I/O error: " ++ fault.reason

end FileFault

/-- The files that a command can see, by the texts of their places: those that it can read, and
    those that it has written. -/
structure Files where
  present : List (Path × List UInt8) := []
  directories : List Path := []
  written : List (Path × String) := []
  deriving DecidableEq, Repr

namespace Files

/-- The longest name, in bytes. -/
def nameLimit : Nat := 255

/-- The longest path, in bytes. -/
def pathLimit : Nat := 4095

def isFile (files : Files) (place : Place) : Bool :=
  files.present.any (·.1 == place.text) || files.written.any (·.1 == place.text)

def isDirectory (files : Files) (place : Place) : Bool :=
  place.isOutset || files.directories.contains place.text ||
    files.present.any fun (other, _) => (place.text ++ "/").toList.isPrefixOf other.toList

/-- Goes from a place to where one more part of a path leads, which takes a directory. -/
def step (files : Files) (path : Path) (place : Place) (part : String) : Except FileFault Place :=
  if files.isDirectory place then
    if nameLimit < part.utf8ByteSize then .error (.nameTooLong path) else .ok (place.enter part)
  else if files.isFile place then .error (.notDirectory path)
  else .error (.missing path)

/-- Goes all the way that some parts of a path lead. -/
def walk (files : Files) (path : Path) (parts : List String) : Except FileFault Place :=
  if path.toList.contains '\x00' then .error .zeroCharacter
  else if pathLimit < path.utf8ByteSize then .error (.nameTooLong path)
  else parts.foldlM (files.step path) path.start

/-- The place of a file, which may be new. -/
def locate (files : Files) (path : Path) : Except FileFault Place := do
  let place ← files.walk path path.parts
  if files.isDirectory place then .error (.directory path) else .ok place

/-- The place of a file and its bytes. -/
def read (files : Files) (path : Path) : Except FileFault (Place × List UInt8) := do
  let place ← files.locate path
  match files.present.lookup place.text with
  | some bytes => .ok (place, bytes)
  | none => .error (.missing path)

/-- The place that a file can be written to. A path that ends in a slash can only be that of a
    directory, there or not. -/
def locateOutput (files : Files) (path : Path) : Except FileFault Place := do
  if path.endsInSlash then
    let parent ← files.walk path path.parts.dropLast
    let _ ← files.step path parent "."
    .error (.directory path)
  else files.locate path

/-- Writes a text in place of whatever a file held. -/
def write (files : Files) (path : Path) (text : String) : Except FileFault Files := do
  let place ← files.locateOutput path
  .ok { files with written := files.written.filter (·.1 ≠ place.text) ++ [(place.text, text)] }

/-- Makes sure that there is a file. -/
def touch (files : Files) (place : Place) : Files :=
  if files.isFile place then files else { files with present := (place.text, []) :: files.present }

end Files

end Midrange.CommandLine
