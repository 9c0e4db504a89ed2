import Midrange.Depth.Agenda
import Midrange.Depth.Chart
import Midrange.Graph.Basic

namespace Midrange.Depth

/-- A vector that holds code: its address, the nesting that control has there, and its label. -/
structure Seed where
  address : Int
  depth : Int
  label : String
  deriving DecidableEq, Repr

namespace Seed

def entry (seed : Seed) : Entry :=
  ⟨seed.address, seed.label⟩

def arrival (seed : Seed) : Arrival :=
  ⟨seed.entry, ⟨seed.depth, [seed.label]⟩⟩

/-- The order of seeds by address, then depth, then label. -/
def precedes (left right : Seed) : Bool :=
  if left.address ≠ right.address then left.address < right.address
  else if left.depth ≠ right.depth then left.depth < right.depth
  else left.label < right.label

end Seed

namespace Code

/-- The entry to which a departure leads. A skip stays in its routine, and a branch enters the one
    that its target is named for. -/
def enter (code : Code) (routine : String) : Departure → Entry
  | .skip target => ⟨target, routine⟩
  | .branch _ _ target => ⟨target, code.symbols.nameOf target⟩

/-- The link that a departure makes between routines. -/
def link? (code : Code) (routine : String) : Departure → Option Link
  | .skip _ => none
  | .branch kind _ target => some ⟨routine, code.symbols.nameOf target, kind⟩

/-- A bound on the number of addresses where control can enter. A word leads to the second address
    behind it, or to one address in each of four pages. -/
def startBound (code : Code) (seeds : List Seed) : Nat :=
  5 * code.image.size + seeds.length

/-- Code with every stretch on which control can come from the seeds. -/
def chart (code : Code) (seeds : List Seed) : Chart :=
  Chart.spread (code.startBound seeds) { code } (seeds.map (·.address))

end Code

namespace Chart

def successors (chart : Chart) (entry : Entry) : List Entry :=
  (chart.stretch entry.start).departures.map (chart.code.enter entry.routine)

/-- A bound on the number of entries: each is an address where control can enter, in the routine of
    a seed or of a branch target. -/
def entryBound (chart : Chart) (seeds : List Seed) : Nat :=
  chart.code.startBound seeds * (4 * chart.code.image.size + seeds.length)

/-- Every entry that control can reach from the seeds, whatever the nesting, the nearest first. -/
def entries (chart : Chart) (seeds : List Seed) : List Entry :=
  Graph.reach chart.successors (chart.entryBound seeds) (seeds.map Seed.entry)

/-- The branches on the stretches of some entries, each stretch looked at once. -/
def branches (chart : Chart) (entries : List Entry) : List (Int × Int) :=
  (distinct (entries.map (·.start))).flatMap fun start =>
    (chart.stretch start).departures.filterMap fun
      | .skip _ => none
      | .branch _ site target => some (site, target)

/-- The routines of some entries and the links that their stretches make. A routine starts at its
    seed, or else where the first branch to it leads. -/
def callGraph (chart : Chart) (seeds : List Seed) (entries : List Entry) : CallGraph :=
  let seeded : CallGraph :=
    { entries := seeds.foldl (fun found seed => found.insert seed.label seed.address) ∅ }
  entries.foldl
    (fun graph entry =>
      (chart.stretch entry.start).departures.foldl
        (fun graph departure =>
          match chart.code.link? entry.routine departure with
          | none => graph
          | some link => graph.addBranch link departure.target)
        graph)
    seeded

end Chart

/-- Gives every branch target a label, and warns of those that had none: a sweep in memory order
    labels every target it sees, so control has come there with another page. -/
def labelTargets (symbols : Symbols) : List (Int × Int) → Symbols × List String
  | [] => (symbols, [])
  | (site, target) :: rest =>
    let (labelled, warnings) := labelTargets (symbols.ensureLabel target) rest
    if symbols.isLabelled target then (labelled, warnings)
    else
      let place := s!"{Text.hexLiteral 4 site}: branch target {Text.hexLiteral 4 target}"
      (labelled, s!"{place} has no label, page tracking may have diverged" :: warnings)

end Midrange.Depth
