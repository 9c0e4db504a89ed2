import Midrange.Depth.Search
import Midrange.Proofs.Depth.Path

namespace Midrange.Depth

namespace Plan

/-- Where a departure brings an arrival, unless recursion is cut there. -/
def lead? (plan : Plan) (arrival : Arrival) (departure : Departure) : Option Arrival :=
  let entry := plan.chart.code.enter arrival.entry.routine departure
  match plan.chart.code.link? arrival.entry.routine departure with
  | none => some ⟨entry, arrival.nesting⟩
  | some link =>
    if plan.cuts link then none else some ⟨entry, Search.nestingBehind arrival.nesting link⟩

/-- Everything to which an arrival leads at once. -/
def offers (plan : Plan) (arrival : Arrival) : List Arrival :=
  (plan.chart.code.stretch arrival.entry.start).departures.filterMap (plan.lead? arrival)

variable {plan : Plan} {arrival offered : Arrival} {entry other : Entry} {levels : Int}

/-- A skip is offered within the routine at the same nesting. A branch is offered in the routine of
    its target, one level deeper if it is a call, unless it is cut. -/
theorem mem_offers_iff : offered ∈ plan.offers arrival ↔
    (∃ target, .skip target ∈ (plan.chart.code.stretch arrival.entry.start).departures ∧
      offered = ⟨⟨target, arrival.entry.routine⟩, arrival.nesting⟩) ∨
    ∃ kind site target,
      .branch kind site target ∈ (plan.chart.code.stretch arrival.entry.start).departures ∧
      ⟨arrival.entry.routine, plan.chart.code.symbols.nameOf target⟩ ∉ plan.cut ∧
      offered = ⟨⟨target, plan.chart.code.symbols.nameOf target⟩,
        Search.nestingBehind arrival.nesting
          ⟨arrival.entry.routine, plan.chart.code.symbols.nameOf target, kind⟩⟩ := by
  rw [offers, List.mem_filterMap]
  constructor
  · rintro ⟨departure, hmem, hlead⟩
    cases departure with
    | skip target => exact Or.inl ⟨target, hmem, (Option.some.inj hlead).symm⟩
    | branch kind site target =>
      simp only [lead?, Code.link?, Option.ite_none_left_eq_some, Plan.cuts,
        Std.TreeSet.contains_iff_mem, Option.some.injEq] at hlead
      exact Or.inr ⟨kind, site, target, hmem, hlead.1, hlead.2.symm⟩
  · rintro (⟨target, hmem, rfl⟩ | ⟨kind, site, target, hmem, huncut, rfl⟩)
    · exact ⟨_, hmem, rfl⟩
    · refine ⟨_, hmem, if_neg ?_⟩
      rwa [Plan.cuts, Std.TreeSet.contains_iff_mem]

/-- What is offered lies one step further. -/
theorem exists_step_of_mem_offers (hoffered : offered ∈ plan.offers arrival) :
    ∃ levels, plan.chart.code.Step plan.cut arrival.entry levels offered.entry ∧
      offered.nesting.depth = arrival.nesting.depth + levels := by
  obtain ⟨target, hmem, rfl⟩ | ⟨kind, site, target, hmem, huncut, rfl⟩ := mem_offers_iff.mp hoffered
  · exact ⟨0, .skip hmem, (Int.add_zero _).symm⟩
  · cases kind with
    | call => exact ⟨1, .call hmem huncut, rfl⟩
    | goto => exact ⟨0, .goto hmem huncut, (Int.add_zero _).symm⟩

/-- Whatever lies one step further is offered. -/
theorem exists_mem_offers_of_step (nesting : Nesting)
    (hstep : plan.chart.code.Step plan.cut entry levels other) :
    ∃ offered ∈ plan.offers ⟨entry, nesting⟩, offered.entry = other ∧
      offered.nesting.depth = nesting.depth + levels := by
  cases hstep with
  | skip hmem =>
    exact ⟨_, mem_offers_iff.mpr (Or.inl ⟨_, hmem, rfl⟩), rfl, (Int.add_zero _).symm⟩
  | goto hmem huncut =>
    exact ⟨_, mem_offers_iff.mpr (Or.inr ⟨_, _, _, hmem, huncut, rfl⟩), rfl, (Int.add_zero _).symm⟩
  | call hmem huncut =>
    exact ⟨_, mem_offers_iff.mpr (Or.inr ⟨_, _, _, hmem, huncut, rfl⟩), rfl, rfl⟩

end Plan

/-- Control can arrive like this: at a seed, or one step further than it can arrive elsewhere. -/
inductive Arrives (plan : Plan) (seeds : List Seed) : Arrival → Prop where
  | seed {seed : Seed} (hseed : seed ∈ seeds) : Arrives plan seeds seed.arrival
  | offered {arrival offered : Arrival} (harrives : Arrives plan seeds arrival)
      (hoffered : offered ∈ plan.offers arrival) : Arrives plan seeds offered

namespace Arrives

variable {plan : Plan} {seeds : List Seed} {arrival : Arrival} {entry : Entry} {depth : Int}

/-- The depth of an arrival is that of a path to it. -/
theorem arrivesAt (harrives : Arrives plan seeds arrival) :
    plan.chart.code.ArrivesAt plan.cut seeds arrival.entry arrival.nesting.depth := by
  induction harrives with
  | @seed seed hseed => exact ⟨seed, hseed, 0, .refl _, (Int.add_zero _).symm⟩
  | offered _ hoffered ih =>
    obtain ⟨seed, hseed, levels, hpath, hdepth⟩ := ih
    obtain ⟨more, hstep, hmore⟩ := Plan.exists_step_of_mem_offers hoffered
    exact ⟨seed, hseed, levels + more, hpath.step hstep, by omega⟩

end Arrives

end Midrange.Depth
