import Midrange.Graph.DepthFirst

namespace Midrange

/-- What it takes to tell recursion from other cycles, for every routine at once: its neighbours
    along the links, against them, and along calls alone. -/
structure CycleChart where
  outgoing : Neighbours
  incoming : Neighbours
  callees : Neighbours
  bound : Nat

/-- Routines of which it is still open whether they are recursive, and those found to be. A routine
    is recursive if some call stays among the routines that share a cycle with it. -/
structure Verdicts where
  pending : Std.TreeSet String
  recursive : Std.TreeSet String := ∅

namespace CycleChart

def ofGraph (graph : CallGraph) : CycleChart :=
  ⟨graph.outgoing, graph.incoming, graph.callees, graph.bound⟩

/-- The routines on a common cycle with a routine, itself included. All of them are among the
    pending ones, since the verdict on one is the verdict on all. -/
def component (chart : CycleChart) (pending : Std.TreeSet String) (routine : String) :
    List String :=
  let before (member : String) := (chart.incoming.of member).filter pending.contains
  let back : Std.TreeSet String := .ofList (Graph.reach before chart.bound [routine])
  let behind (member : String) := (chart.outgoing.of member).filter back.contains
  Graph.reach behind chart.bound [routine]

/-- Whether some call stays within some routines. -/
def holdsCall (chart : CycleChart) (members : List String) : Bool :=
  let within : Std.TreeSet String := .ofList members
  members.any fun member => (chart.callees.of member).any within.contains

/-- Gives the verdict on a pending routine and on all that share a cycle with it. -/
def judge (chart : CycleChart) (verdicts : Verdicts) (routine : String) : Verdicts :=
  if verdicts.pending.contains routine then
    let members := chart.component verdicts.pending routine
    let { pending, recursive } := verdicts
    { pending := members.foldl .erase pending
      recursive := if chart.holdsCall members then recursive.insertMany members else recursive }
  else verdicts

/-- The recursive routines among those that a depth-first search has finished. The last one to
    finish comes first, so that what leads to a routine and is still pending shares a cycle with
    it. -/
def recursive (chart : CycleChart) (search : DepthFirst) : Std.TreeSet String :=
  (search.order.foldl chart.judge { pending := search.finished }).recursive

end CycleChart

/-- What is joined by the links on which recursion is cut: those that close a cycle at a recursive
    routine. A cycle of gotos alone nests nothing and stays whole. -/
def CallGraph.recursion (graph : CallGraph) (roots : List String) : Std.TreeSet Ends :=
  let search := graph.depthFirst roots
  let recursive := (CycleChart.ofGraph graph).recursive search
  .ofList (search.back.toList.filter fun ends => recursive.contains ends.target)

end Midrange
