import Std.Data.TreeMap
import Midrange.Distinct
import Midrange.Graph.Link

namespace Midrange

namespace Graph

variable {α : Type} [Ord α]

/-- A generation of members and everything that steps lead to from it. The known members, those of
    the generation among them, are passed over, so that each one comes up once. A generation takes
    one unit of fuel. -/
def spread (next : α → List α) : Nat → Std.TreeSet α → List α → List α
  | 0, _, generation => generation
  | _ + 1, _, [] => []
  | fuel + 1, known, member :: others =>
    let generation := member :: others
    let children := fresh known (generation.flatMap next)
    generation ++ spread next fuel (known.insertMany children) children

/-- Everything that steps lead to from some members, the nearest first. The fuel has to be at least
    the number of members that can be met. -/
def reach (next : α → List α) (fuel : Nat) (starts : List α) : List α :=
  spread next fuel (.ofList starts) (distinct starts)

end Graph

/-- The routines that stand beside each routine, by the addresses where they start and then by their
    names. -/
abbrev Neighbours := Std.TreeMap String (Std.TreeSet Entry)

namespace Neighbours

def add (neighbours : Neighbours) (routine : String) (entry : Entry) : Neighbours :=
  neighbours.insert routine ((neighbours.getD routine ∅).insert entry)

/-- The neighbours of one routine in order. -/
def of (neighbours : Neighbours) (routine : String) : List String :=
  (neighbours.getD routine ∅).toList.map (·.routine)

end Neighbours

/-- The routines that a program can reach, with the addresses where they start, and the calls and
    gotos between them. -/
structure CallGraph where
  entries : Std.TreeMap String Int := ∅
  calls : Std.TreeSet Ends := ∅
  gotos : Std.TreeSet Ends := ∅

namespace CallGraph

def addLink (graph : CallGraph) (link : Link) : CallGraph :=
  match link.kind with
  | .call => { graph with calls := graph.calls.insert link.ends }
  | .goto => { graph with gotos := graph.gotos.insert link.ends }

/-- Adds a link whose target starts at an address, unless it is known to start elsewhere. -/
def addBranch (graph : CallGraph) (link : Link) (address : Int) : CallGraph :=
  let known := { graph with entries := graph.entries.insertIfNew link.target address }
  known.addLink link

/-- Where a routine is entered; one without a known start counts as starting at zero. -/
def entry (graph : CallGraph) (routine : String) : Entry :=
  ⟨graph.entries.getD routine 0, routine⟩

/-- What the links join. Two routines that both a call and a goto join come twice. -/
def ends (graph : CallGraph) : List Ends :=
  graph.calls.toList ++ graph.gotos.toList

/-- The targets beside each source. -/
def targets (graph : CallGraph) (ends : List Ends) : Neighbours :=
  ends.foldl (fun found ends => found.add ends.source (graph.entry ends.target)) ∅

/-- The routines to which each routine has a link. -/
def outgoing (graph : CallGraph) : Neighbours :=
  graph.targets graph.ends

/-- The routines from which each routine has a link. -/
def incoming (graph : CallGraph) : Neighbours :=
  graph.targets (graph.ends.map .reverse)

/-- The routines that each routine calls. -/
def callees (graph : CallGraph) : Neighbours :=
  graph.targets graph.calls.toList

def successors (graph : CallGraph) (routine : String) : List String :=
  graph.outgoing.of routine

/-- A bound on the number of routines that links lead to from any one. -/
def bound (graph : CallGraph) : Nat :=
  2 * graph.ends.length + 1

/-- The routines that links lead to from a routine, itself included. -/
def reach (graph : CallGraph) (routine : String) : List String :=
  Graph.reach graph.outgoing.of graph.bound [routine]

/-- The routines from which links lead to a routine, itself included. -/
def reachBack (graph : CallGraph) (routine : String) : List String :=
  Graph.reach graph.incoming.of graph.bound [routine]

end CallGraph

end Midrange
