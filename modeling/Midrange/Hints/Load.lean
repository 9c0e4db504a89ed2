import Midrange.Hints.Directive
import Midrange.Journal
import Midrange.Text.Lines

namespace Midrange

/-- The line at which loading hints stops, with everything on it. -/
structure HintFault where
  line : Nat
  text : String
  cause : HintCause
  deriving DecidableEq, Repr

def HintFault.message (fault : HintFault) : String :=
  s!"Line {fault.line}: {fault.cause.message}"

/-- The names while hints are loaded, how many hints were followed, and a notice for each label that
    came too late. -/
structure HintLoad where
  symbols : Symbols
  applied : Nat := 0
  ignored : Array String := #[]

namespace HintLoad

/-- The fields of a line up to a comment. -/
def lineFields (line : List Char) : List (List Char) :=
  Text.fields (line.takeWhile fun c => c ≠ '#' && c ≠ ';')

/-- The notice for a label that cannot replace the name of its address. -/
def notice? (symbols : Symbols) (line : Nat) : Directive → Option String
  | .label address name =>
    if symbols.acceptsLabel address then none
    else
      let present := symbols.nameOf address
      some
        s!"Line {line}: {Text.hexLiteral 4 address} already labelled '{present}', '{name}' ignored"
  | _ => none

/-- Follows a hint that stands on a given line. -/
def follow (load : HintLoad) (line : Nat) (directive : Directive) : HintLoad :=
  let notices := (notice? load.symbols line directive).toList
  { symbols := directive.apply load.symbols
    applied := load.applied + 1
    ignored := load.ignored ++ notices }

/-- The hint on a line, or nothing if the line has no fields. -/
def directive? (symbols : Symbols) (line : List Char) : Except HintCause (Option Directive) :=
  match lineFields line with
  | [] => .ok none
  | word :: fields =>
    match HintKeyword.ofWord? word with
    | none => .error (.unknownKeyword (String.ofList word))
    | some keyword => (Directive.ofFields symbols keyword fields).map some

/-- Follows numbered lines up to the first one at fault, which itself changes nothing. -/
def takeLines (load : HintLoad) : List (Nat × List Char) → HintLoad × Option HintFault
  | [] => (load, none)
  | (number, line) :: rest =>
    match directive? load.symbols line with
    | .error cause => (load, some ⟨number, String.ofList line, cause⟩)
    | .ok none => load.takeLines rest
    | .ok (some directive) => (load.follow number directive).takeLines rest

/-- Follows the hints of a text, and says which line stopped that. -/
def take (load : HintLoad) (text : String) : HintLoad × Option HintFault :=
  load.takeLines (Text.numberedLines text)

/-- The notices as messages of the run. -/
def journal (load : HintLoad) : Journal :=
  load.ignored.toList.map (⟨.warning, .hints, ·⟩)

end HintLoad

end Midrange
