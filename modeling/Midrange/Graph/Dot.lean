import Midrange.Depth.Findings
import Midrange.Text.Format

namespace Midrange.Depth.Findings

/-- The characters of a text as they stand between quotes: a backslash protects a quote and another
    backslash. -/
def dotEscape : List Char → List Char
  | [] => []
  | c :: rest => if c = '"' ∨ c = '\\' then '\\' :: c :: dotEscape rest else c :: dotEscape rest

def dotEscaped (text : String) : String :=
  String.ofList (dotEscape text.toList)

def dotQuoted (text : String) : String :=
  "\"" ++ dotEscaped text ++ "\""

/-- The colour in which a vector is filled. -/
def vectorColour? (address : Int) : Option String :=
  if address = Symbols.resetVector then some "lightgreen"
  else if address = Symbols.interruptVector then some "lightsalmon"
  else none

/-- The attributes of a routine. One with a known address shows it below its name, and its depth if
    it is reached. -/
def nodeAttributes (findings : Findings) (label : String) (address? : Option Int) : String :=
  match address? with
  | none => "label=" ++ dotQuoted label
  | some address =>
    let depth := ((findings.depthAt? address).map fun depth => s!"  depth {depth}").getD ""
    let fill :=
      ((vectorColour? address).map fun colour => s!", style=filled, fillcolor={colour}").getD ""
    let name := dotEscaped label ++ "\\n" ++ Text.hexLiteral 4 address
    "label=\"" ++ name ++ depth ++ "\"" ++ fill

def nodeLine (findings : Findings) (addresses : Std.TreeMap String Int) (label : String) : String :=
  let attributes := findings.nodeAttributes label addresses[label]?
  s!"  {dotQuoted label} [{attributes}];"

/-- A call is drawn solid and a goto dashed. -/
def linkLine (link : Link) : String :=
  let style := match link.kind with
    | .call => "solid"
    | .goto => "dashed"
  let ends := dotQuoted link.source ++ " -> " ++ dotQuoted link.target
  s!"  {ends} [style={style}, label={dotQuoted link.kind.text}];"

/-- The graph of the links between routines in the DOT language. -/
def dot (findings : Findings) (symbols : Option Symbols) (title : String := "CallGraph") : String :=
  let opening := [
    "digraph " ++ dotQuoted title ++ " \x7b",
    "  rankdir=LR;",
    "  node [shape=box, fontsize=10];"]
  let addresses := (symbols.map (·.addressTable)).getD ∅
  let nodes := findings.nodes.map (findings.nodeLine addresses)
  let links := findings.links.map linkLine
  Text.endLines (opening ++ nodes ++ links ++ ["\x7d"])

end Midrange.Depth.Findings
