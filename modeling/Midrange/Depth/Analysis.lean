import Midrange.Depth.Findings
import Midrange.Depth.Search
import Midrange.Graph.Recursion
import Midrange.Journal

namespace Midrange.Depth

/-- What an analysis is asked for. -/
structure Options where
  /-- The deepest nesting that a call may bring about. -/
  maxDepth : Int := 100
  /-- Whether to keep one link for each pair of routines. -/
  oneLinkPerPair : Bool := false
  /-- Whether to leave calls out of the links. -/
  hideCalls : Bool := false
  resetVector : Option Int := some Symbols.resetVector
  interruptVector : Option Int := some Symbols.interruptVector
  /-- The nesting with which an interrupt starts: it counts as one call. -/
  interruptDepth : Int := 1
  /-- The address where program memory ends. -/
  memoryLimit : Int := Symbols.programLimit
  deriving DecidableEq, Repr

/-- How an analysis ends: the names with the labels it gave, its messages, and what it found, or the
    call that nests too deep. -/
structure Outcome where
  symbols : Symbols
  journal : Journal
  result : Except TooDeep Findings

namespace Analysis

/-- The vectors that options ask for, with the nesting of each. -/
def vectors (options : Options) : List (Int × Int) :=
  (options.resetVector.map (·, 0)).toList ++
    (options.interruptVector.map (·, options.interruptDepth)).toList

/-- The vectors that hold code. -/
def seeds (image : Image) (symbols : Symbols) (options : Options) : List Seed :=
  (vectors options).filterMap fun (address, depth) =>
    if image.isPresent address then some ⟨address, depth, symbols.nameOf address⟩ else none

/-- A message for each vector without code. -/
def seedJournal (image : Image) (options : Options) : Journal :=
  (vectors options).filterMap fun (address, _) =>
    if image.isPresent address then none
    else
      let place := Text.hexLiteral 4 address
      some ⟨.debug, .depth, s!"Vector {place} not present in image, not seeded"⟩

/-- The labels of the seeds in the order of the seeds. -/
def roots (seeds : List Seed) : List String :=
  match seeds with
  | [first, second] =>
    if second.precedes first then [second.label, first.label] else [first.label, second.label]
  | seeds => seeds.map (·.label)

/-- Deepens the record of an address that is passed at a nesting. -/
def deepen (records : Std.TreeMap Int Nesting) (nesting : Nesting) (address : Int) :
    Std.TreeMap Int Nesting :=
  match records[address]? with
  | some found =>
    if found.depth < nesting.depth then records.insert address nesting else records
  | none => records.insert address nesting

/-- The deepest nesting at each address that visits pass, the earliest one of equal depth. -/
def records (visits : List Visit) : Std.TreeMap Int Nesting :=
  visits.foldl
    (fun records visit =>
      visit.stretch.addresses.foldl (deepen · visit.arrival.nesting) records)
    ∅

/-- The links that options leave in. -/
def shownLinks (options : Options) (links : List Link) : List Link :=
  let shown := if options.hideCalls then links.filter (·.kind ≠ .call) else links
  if options.oneLinkPerPair then distinctBy Link.ends shown else shown

def recursionWarning (link : Link) : String :=
  let verb := match link.kind with
    | .call => "call"
    | .goto => "branch"
  s!"Recursive {verb} to {link.target} from {link.source}, not followed"

/-- A warning for each kind of link on which recursion was cut, once each. -/
def recursionWarnings (plan : Plan) (links : List Link) : List String :=
  distinct ((links.filter plan.cuts).map recursionWarning)

/-- Everything that a finished search tells, after some earlier warnings. -/
def findings (plan : Plan) (options : Options) (warnings : List String) (search : Search) :
    Findings where
  records := records search.visits.toList
  links := shownLinks options search.links.toList
  visits := search.visits.toList
  warnings := warnings ++ recursionWarnings plan search.links.toList
  cut := plan.cut
  tally := search.agenda.tally

/-- The message that sums up what was found. -/
def summary (findings : Findings) : Report :=
  let reached := s!"{findings.records.size} reachable words, max call depth {findings.maxDepth}"
  let size := s!"{findings.links.length} edges, {findings.visits.length} avenues"
  let { merged, dropped, .. } := findings.tally
  let work := s!"{merged} merged, {dropped} dropped, {findings.cut.size} recursion edges"
  ⟨.info, .depth, s!"Pass 2: {reached}, {size} ({work})"⟩

/-- What is known of a program before any nesting is: the vectors that hold code, the code itself,
    every entry that control can reach, and the graph of the routines. -/
structure Survey where
  seeds : List Seed
  chart : Chart
  entries : List Entry
  graph : CallGraph

def survey (image : Image) (symbols : Symbols) (options : Options) : Survey :=
  let seeds := seeds image symbols options
  let code : Code := ⟨image, symbols.ensureLabels (seeds.map (·.address)), options.memoryLimit⟩
  let chart := code.chart seeds
  let entries := chart.entries seeds
  ⟨seeds, chart, entries, chart.callGraph seeds entries⟩

namespace Survey

/-- The search that options ask for, recursion cut before it starts. -/
def plan (survey : Survey) (options : Options) : Plan :=
  ⟨survey.chart, survey.graph.recursion (roots survey.seeds), options.maxDepth⟩

/-- The search once nothing waits. -/
def settled (survey : Survey) (plan : Plan) : Except Search.Failure Search :=
  let routines := survey.graph.entries.size
  (Search.start survey.seeds).settle plan
    (Search.stepBound survey.entries.length routines survey.seeds)

/-- The names with a label for every branch target in reach, and the warnings about those that had
    none. -/
def labelled (survey : Survey) : Symbols × List String :=
  labelTargets survey.chart.code.symbols (survey.chart.branches survey.entries)

/-- The messages that come before the search, some warnings among them. -/
def journal (survey : Survey) (options : Options) (warnings : List String) : Journal :=
  let size := s!"{survey.graph.entries.size} routines, {survey.entries.length} start points"
  seedJournal survey.chart.code.image options ++ warnings.map (⟨.warning, .depth, ·⟩) ++
    [⟨.debug, .depth, s!"Routine graph: {size}"⟩]

end Survey

/-- The messages of a search itself. -/
def searchJournal (plan : Plan) (search : Search) : Journal :=
  (recursionWarnings plan search.links.toList).map (⟨.warning, .depth, ·⟩)

/-- Finds how deeply calls nest at every address that control can reach. -/
def run (image : Image) (symbols : Symbols) (options : Options) : Outcome :=
  let survey := survey image symbols options
  let plan := survey.plan options
  let (labelled, warnings) := survey.labelled
  let opening := survey.journal options warnings
  match survey.settled plan with
  | .error failure =>
    ⟨labelled, opening ++ searchJournal plan failure.search, .error failure.fault⟩
  | .ok search =>
    let found := findings plan options warnings search
    ⟨labelled, opening ++ searchJournal plan search ++ [summary found], .ok found⟩

end Analysis

end Midrange.Depth
