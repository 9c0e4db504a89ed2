import Midrange.Graph.Basic

namespace Midrange

/-- The progress of a depth-first search: the routines that are finished, also in order with the
    last one first, and what is joined by the links found so far that lead back to where they come
    from. -/
structure DepthFirst where
  finished : Std.TreeSet String := ∅
  order : List String := []
  back : Array Ends := #[]

namespace DepthFirst

/-- Searches from a routine that is neither finished nor on the path that leads to it. A link to the
    path is noted and not followed. The path has no routine twice, which bounds the fuel. -/
def visit (next : String → List String) :
    Nat → Std.TreeSet String → String → DepthFirst → DepthFirst
  | 0, _, _, search => search
  | fuel + 1, above, routine, search =>
    let path := above.insert routine
    let searched := (next routine).foldl
      (fun search target =>
        if search.finished.contains target then search
        else if path.contains target then { search with back := search.back.push ⟨routine, target⟩ }
        else visit next fuel path target search)
      search
    { searched with
      finished := searched.finished.insert routine
      order := routine :: searched.order }

/-- Searches from one routine after another, passing over those that are finished by then. -/
def visitAll (next : String → List String) (fuel : Nat) (roots : List String) : DepthFirst :=
  roots.foldl
    (fun search root =>
      if search.finished.contains root then search else visit next fuel ∅ root search)
    {}

end DepthFirst

namespace CallGraph

/-- The depth-first search of a graph from some roots. -/
def depthFirst (graph : CallGraph) (roots : List String) : DepthFirst :=
  .visitAll graph.outgoing.of graph.bound roots

/-- What is joined by the links that close a cycle in a depth-first search from some roots, in the
    order in which they are met. -/
def backLinks (graph : CallGraph) (roots : List String) : List Ends :=
  (graph.depthFirst roots).back.toList

end CallGraph

end Midrange
