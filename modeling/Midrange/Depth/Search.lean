import Midrange.Depth.Explore

namespace Midrange.Depth

/-- A call that would nest deeper than is allowed: where it leads, how deep that is, the calls that
    lead there, and the limit. -/
structure TooDeep where
  address : Int
  depth : Int
  chain : List String
  limit : Int
  deriving DecidableEq, Repr

def TooDeep.message (fault : TooDeep) : String :=
  let place := s!"limit {fault.limit} at {Text.hexLiteral 4 fault.address}"
  let chain := String.intercalate " -> " fault.chain
  s!"Call depth {fault.depth} exceeds {place}; stack: {chain}"

/-- What a search obeys: the code it follows, the routines between which it cuts recursion, and the
    deepest nesting that a call may bring about. -/
structure Plan where
  chart : Chart
  cut : Std.TreeSet Ends
  maxDepth : Int

def Plan.cuts (plan : Plan) (link : Link) : Bool :=
  plan.cut.contains link.ends

/-- The state of a search: what waits, whom it has visited, and the links it has met, in order. -/
structure Search where
  agenda : Agenda := {}
  visits : Array Visit := #[]
  links : Array Link := #[]

namespace Search

def push (search : Search) (arrival : Arrival) : Search :=
  { search with agenda := search.agenda.push arrival }

/-- A search that ends early, with all it had done by then. -/
structure Failure where
  fault : TooDeep
  search : Search

/-- The nesting behind a branch: a call nests one level deeper, a goto as deep as before. -/
def nestingBehind (nesting : Nesting) (link : Link) : Nesting :=
  match link.kind with
  | .call => ⟨nesting.depth + 1, link.target :: nesting.calls⟩
  | .goto => nesting

/-- Follows one departure of an arrival. A cut link is met but leads nowhere. -/
def depart (plan : Plan) (arrival : Arrival) (search : Search) (departure : Departure) :
    Except Failure Search :=
  let entry := plan.chart.code.enter arrival.entry.routine departure
  match plan.chart.code.link? arrival.entry.routine departure with
  | none => .ok (search.push ⟨entry, arrival.nesting⟩)
  | some link =>
    let met := { search with links := search.links.push link }
    let nesting := nestingBehind arrival.nesting link
    if plan.cuts link then .ok met
    else if link.kind = .call ∧ plan.maxDepth < nesting.depth then
      .error ⟨⟨entry.start, nesting.depth, nesting.chain, plan.maxDepth⟩, met⟩
    else .ok (met.push ⟨entry, nesting⟩)

/-- Follows the stretch of an arrival and offers everything that it leads to. -/
def visit (plan : Plan) (search : Search) (arrival : Arrival) : Except Failure Search := do
  let stretch := plan.chart.stretch arrival.entry.start
  let walked := { search with agenda := search.agenda.walk arrival.entry arrival.nesting }
  let departed ← stretch.departures.foldlM (depart plan arrival) walked
  return { departed with visits := departed.visits.push ⟨arrival, stretch⟩ }

/-- Takes up what has waited longest, unless its entry has been followed as deep already. -/
def step (plan : Plan) (search : Search) : Except Failure Search :=
  match search.agenda.pop? with
  | none => .ok search
  | some (arrival, agenda) =>
    let popped := { search with agenda }
    if agenda.improves arrival then popped.visit plan arrival else .ok popped

/-- Takes steps until nothing waits. -/
def settle (plan : Plan) : Nat → Search → Except Failure Search
  | 0, search => .ok search
  | fuel + 1, search =>
    if search.agenda.waiting.isEmpty then .ok search
    else
      match search.step plan with
      | .error failure => .error failure
      | .ok next => settle plan fuel next

/-- A search in which the seeds wait. -/
def start (seeds : List Seed) : Search :=
  seeds.foldl (fun search seed => search.push seed.arrival) {}

/-- A bound on the number of steps. An entry is followed at most once for each depth, and no depth
    is above that of the seeds by more than the number of routines, since without the cut links no
    cycle nests. -/
def stepBound (entries routines : Nat) (seeds : List Seed) : Nat :=
  let depths := seeds.map (·.depth)
  let spread := (depths.max?.getD 0 - depths.min?.getD 0).toNat
  entries * (spread + routines + 1) + 1

end Search

end Midrange.Depth
