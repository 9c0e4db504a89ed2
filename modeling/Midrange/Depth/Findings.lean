import Midrange.Depth.Agenda
import Midrange.Distinct
import Midrange.Graph.Link

namespace Midrange.Depth

/-- Everything that a finished analysis tells about a program. -/
structure Findings where
  records : Std.TreeMap Int Nesting := ∅
  links : List Link := []
  visits : List Visit := []
  warnings : List String := []
  cut : Std.TreeSet Ends := ∅
  tally : Tally := {}

namespace Findings

def depthAt? (findings : Findings) (address : Int) : Option Int :=
  findings.records[address]?.map (·.depth)

/-- The lowest address at which the nesting is deepest. -/
def deepest? (findings : Findings) : Option (Int × Nesting) :=
  findings.records.toList.foldl
    (fun best found =>
      match best with
      | none => some found
      | some (_, nesting) => if nesting.depth < found.2.depth then some found else best)
    none

/-- The deepest nesting of all, and zero where nothing is reached. -/
def maxDepth (findings : Findings) : Int :=
  (findings.deepest?.map (·.2.depth)).getD 0

/-- The routines that links join, in the order in which they first appear. -/
def nodes (findings : Findings) : List String :=
  distinct (findings.links.flatMap fun link => [link.source, link.target])

end Findings

end Midrange.Depth
