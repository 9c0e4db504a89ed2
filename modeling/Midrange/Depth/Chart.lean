import Midrange.Depth.Stretch
import Midrange.Distinct
import Midrange.Graph.Link

namespace Midrange.Depth

/-- Code together with the stretches from some of its addresses, so that none of these has to be
    followed again. -/
structure Chart where
  code : Code
  known : Std.TreeMap Int Stretch := ∅
  known_eq {start : Int} {stretch : Stretch} (hknown : known[start]? = some stretch) :
    stretch = code.stretch start := by simp

namespace Chart

/-- The stretch from an address on, at hand or not. -/
def stretch (chart : Chart) (start : Int) : Stretch :=
  match chart.known[start]? with
  | some stretch => stretch
  | none => chart.code.stretch start

@[simp]
theorem stretch_eq (chart : Chart) (start : Int) :
    chart.stretch start = chart.code.stretch start := by
  simp only [stretch]
  split
  next hknown => exact chart.known_eq hknown
  next => rfl

/-- Keeps the stretch from one more address at hand. -/
def add (chart : Chart) (start : Int) : Chart where
  code := chart.code
  known := chart.known.insert start (chart.code.stretch start)
  known_eq {other stretch} hknown := by
    rw [Std.TreeMap.getElem?_insert] at hknown
    split at hknown
    next heq =>
      obtain rfl := Std.compare_eq_iff_eq.mp heq
      exact (Option.some.inj hknown).symm
    next => exact chart.known_eq hknown

/-- Adds the stretches from a generation of addresses, and then from every new address for which
    control leaves them. A generation takes one unit of fuel. -/
def spread : Nat → Chart → List Int → Chart
  | 0, chart, _ => chart
  | _ + 1, chart, [] => chart
  | fuel + 1, chart, start :: others =>
    let generation := start :: others
    let grown := generation.foldl add chart
    let targets := generation.flatMap fun start => (grown.stretch start).departures.map (·.target)
    grown.spread fuel ((distinct targets).filter fun target => !grown.known.contains target)

theorem code_foldl_add (chart : Chart) (starts : List Int) :
    (starts.foldl add chart).code = chart.code := by
  induction starts generalizing chart with
  | nil => rfl
  | cons start rest ih => exact ih (chart.add start)

theorem code_spread (fuel : Nat) (chart : Chart) (generation : List Int) :
    (chart.spread fuel generation).code = chart.code := by
  induction fuel generalizing chart generation with
  | zero => rfl
  | succ fuel ih =>
    cases generation with
    | nil => rfl
    | cons start others => exact (ih _ _).trans (code_foldl_add chart (start :: others))

end Chart

end Midrange.Depth
