import Midrange.Depth.Stretch
import Midrange.Fifo
import Midrange.Graph.Link

namespace Midrange.Depth

/-- How deeply calls are nested, and the labels of the calls that bring it about, the innermost
    first. -/
structure Nesting where
  depth : Int
  calls : List String
  deriving DecidableEq, Repr

/-- The labels of the calls in the order in which they are made. -/
def Nesting.chain (nesting : Nesting) : List String :=
  nesting.calls.reverse

/-- Control reaching an entry at some nesting. -/
structure Arrival where
  entry : Entry
  nesting : Nesting
  deriving DecidableEq, Repr

/-- An arrival together with the stretch that was followed from it. -/
structure Visit where
  arrival : Arrival
  stretch : Stretch
  deriving DecidableEq, Repr

/-- How often the waiting work grew, was improved in place, and was offered something of no use. -/
structure Tally where
  pushed : Nat := 0
  merged : Nat := 0
  dropped : Nat := 0
  deriving DecidableEq, Repr

/-- Entries that wait to be followed, first in, first out and each at most once, with the nesting at
    which control reaches them, beside the nesting with which each entry was last followed. -/
structure Agenda where
  walked : Std.TreeMap Entry Nesting := ∅
  order : Fifo Entry := {}
  waiting : Std.TreeMap Entry Nesting := ∅
  tally : Tally := {}

namespace Agenda

/-- Whether an arrival is nested deeper than the last one that was followed from its entry. -/
def improves (agenda : Agenda) (arrival : Arrival) : Bool :=
  agenda.walked[arrival.entry]?.all fun nesting => nesting.depth < arrival.nesting.depth

/-- The arrival that waits at an entry. -/
def waiting? (agenda : Agenda) (entry : Entry) : Option Arrival :=
  agenda.waiting[entry]?.map fun nesting => ⟨entry, nesting⟩

/-- Whether an arrival would wait on its own account. -/
def admits (agenda : Agenda) (arrival : Arrival) : Bool :=
  agenda.improves arrival && !agenda.waiting.contains arrival.entry

/-- Of two nestings that wait at one entry the deeper one counts, and of two equal ones the
    earlier. -/
def deeper (earlier later : Nesting) : Nesting :=
  if earlier.depth < later.depth then later else earlier

/-- Offers an arrival. It is dropped unless it improves on what was followed, joins the one that
    waits at its entry if there is one, and else waits behind all others. -/
def push (agenda : Agenda) (arrival : Arrival) : Agenda :=
  let tally := agenda.tally
  if !agenda.improves arrival then
    { agenda with tally := { tally with dropped := tally.dropped + 1 } }
  else
    match agenda.waiting[arrival.entry]? with
    | some nesting =>
      { agenda with
        waiting := agenda.waiting.insert arrival.entry (deeper nesting arrival.nesting)
        tally := { tally with merged := tally.merged + 1 } }
    | none =>
      { agenda with
        order := agenda.order.push arrival.entry
        waiting := agenda.waiting.insert arrival.entry arrival.nesting
        tally := { tally with pushed := tally.pushed + 1 } }

/-- The arrival that has waited longest, and the agenda without it. -/
def pop? (agenda : Agenda) : Option (Arrival × Agenda) := do
  let (entry, order) ← agenda.order.pop?
  let nesting ← agenda.waiting[entry]?
  return (⟨entry, nesting⟩, { agenda with order, waiting := agenda.waiting.erase entry })

/-- Notes the nesting with which an entry is followed. -/
def walk (agenda : Agenda) (entry : Entry) (nesting : Nesting) : Agenda :=
  { agenda with walked := agenda.walked.insert entry nesting }

end Agenda

end Midrange.Depth
