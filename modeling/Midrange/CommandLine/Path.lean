namespace Midrange.CommandLine

/-- Paths from the root or from a working directory, with slashes between their parts. -/
abbrev Path := String

/-- A place that parts lead to one after the other, from the root or from the working directory. The
    only dotted parts left in it lead above the working directory and come first. -/
structure Place where
  fromRoot : Bool := false
  parts : List String := []
  deriving DecidableEq, Repr

namespace Place

def text (place : Place) : Path :=
  let joined := (if place.fromRoot then "/" else "") ++ String.intercalate "/" place.parts
  if joined.isEmpty then "." else joined

/-- The directory that holds a place. The root holds itself. -/
def parent (place : Place) : Place :=
  match place.parts.getLast? with
  | none => if place.fromRoot then place else { place with parts := [".."] }
  | some last =>
    if last = ".." then { place with parts := place.parts ++ [".."] }
    else { place with parts := place.parts.dropLast }

/-- Where one more part leads. -/
def enter (place : Place) (part : String) : Place :=
  if part = "" ∨ part = "." then place
  else if part = ".." then place.parent
  else { place with parts := place.parts ++ [part] }

/-- Whether a place is the root, the working directory or above it. -/
def isOutset (place : Place) : Bool :=
  place.parts.all (· = "..")

end Place

namespace Path

/-- The parts of a text between slashes. -/
def splitSlashes : List Char → List (List Char)
  | [] => [[]]
  | '/' :: rest => [] :: splitSlashes rest
  | c :: rest =>
    match splitSlashes rest with
    | part :: parts => (c :: part) :: parts
    | [] => [[c]]

/-- The parts of a path that are not empty. -/
def parts (path : Path) : List String :=
  (splitSlashes path.toList).map String.ofList |>.filter (· ≠ "")

/-- The slashes that a path from the root begins with. Two of them are kept, and any other number
    means the same as one. -/
def root (path : Path) : String :=
  match path.toList.takeWhile (· = '/') with
  | [] => ""
  | ['/', '/'] => "//"
  | _ => "/"

/-- The path that has given parts behind the root of another one. -/
def withParts (path : Path) (parts : List String) : Path :=
  let joined := path.root ++ String.intercalate "/" parts
  if joined.isEmpty then "." else joined

/-- The path without the parts that lead nowhere. -/
def normal (path : Path) : Path :=
  path.withParts (path.parts.filter (· ≠ "."))

/-- Where a path starts. -/
def start (path : Path) : Place :=
  { fromRoot := path.root ≠ "" }

/-- The places along a path, from its start on, if every part of it can be entered. -/
def places (path : Path) : List Place :=
  (List.range (path.parts.length + 1)).map fun count =>
    (path.parts.take count).foldl .enter path.start

/-- The path with every part cancelled that two dots lead back from, there or not. -/
def direct (path : Path) : Path :=
  path.withParts (path.parts.foldl .enter path.start).parts

/-- Everything behind the last slash. -/
def base (path : Path) : String :=
  String.ofList ((splitSlashes path.toList).getLast?.getD [])

def endsInSlash (path : Path) : Bool :=
  path.toList.getLast? = some '/'

/-- The ending of a name from its last point on, where something stands on both sides of it. -/
def suffix (path : Path) : String :=
  let name := ((path.parts.filter (· ≠ ".")).getLast?.getD "").toList
  let stem := name.reverse.dropWhile (· ≠ '.') |>.drop 1
  let ending := (name.reverse.takeWhile (· ≠ '.')).reverse
  if stem.isEmpty || ending.isEmpty then "" else String.ofList ('.' :: ending)

end Path

end Midrange.CommandLine
