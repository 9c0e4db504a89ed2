import Midrange.Proofs.Depth.LongestPath

namespace Midrange.Depth

/-- A path from a seed ends in a call that is not cut, and behind it control nests deeper than the
    limit. -/
def Code.Overruns (code : Code) (cut : Std.TreeSet Ends) (seeds : List Seed) (limit : Int) : Prop :=
  ∃ entry depth site target, code.ArrivesAt cut seeds entry depth ∧
    .branch .call site target ∈ (code.stretch entry.start).departures ∧
    ⟨entry.routine, code.symbols.nameOf target⟩ ∉ cut ∧ limit < depth + 1

namespace Plan

variable {plan : Plan} {arrival offered : Arrival}

/-- Only a call is refused, which leads to its target and nests one level deeper. -/
theorem call_of_refused (hoffered : offered ∈ plan.offers arrival)
    (hrefused : ¬ plan.Allows arrival offered) : ∃ site target,
      .branch .call site target ∈ (plan.chart.code.stretch arrival.entry.start).departures ∧
      ⟨arrival.entry.routine, plan.chart.code.symbols.nameOf target⟩ ∉ plan.cut ∧
      offered = ⟨⟨target, plan.chart.code.symbols.nameOf target⟩, arrival.nesting.depth + 1,
        plan.chart.code.symbols.nameOf target :: arrival.nesting.calls⟩ ∧
      plan.maxDepth < arrival.nesting.depth + 1 := by
  obtain ⟨hdeeper, hlimit⟩ : arrival.nesting.depth < offered.nesting.depth ∧
      plan.maxDepth < offered.nesting.depth := by
    simpa only [Allows, Classical.not_imp, Int.not_le] using hrefused
  obtain ⟨target, _, rfl⟩ | ⟨kind, site, target, hmem, huncut, rfl⟩ := mem_offers_iff.mp hoffered
  · exact absurd hdeeper (Int.lt_irrefl _)
  · cases kind with
    | goto => exact absurd hdeeper (Int.lt_irrefl _)
    | call => exact ⟨site, target, hmem, huncut, rfl, hlimit⟩

/-- A call that is not cut is offered, and refused where it nests too deep. -/
theorem exists_refused {site target : Int}
    (hmem : .branch .call site target ∈ (plan.chart.code.stretch arrival.entry.start).departures)
    (huncut : ⟨arrival.entry.routine, plan.chart.code.symbols.nameOf target⟩ ∉ plan.cut)
    (hlimit : plan.maxDepth < arrival.nesting.depth + 1) :
    ∃ offered ∈ plan.offers arrival, ¬ plan.Allows arrival offered := by
  refine ⟨_, mem_offers_iff.mpr (Or.inr ⟨.call, site, target, hmem, huncut, rfl⟩),
    fun hallows => ?_⟩
  have hwithin : arrival.nesting.depth + 1 ≤ plan.maxDepth := hallows (Int.lt_succ _)
  omega

end Plan

/-- A call that is refused anywhere overruns the limit. -/
theorem Arrives.overruns_of_refused {plan : Plan} {seeds : List Seed} {arrival offered : Arrival}
    (harrives : Arrives plan seeds arrival) (hoffered : offered ∈ plan.offers arrival)
    (hrefused : ¬ plan.Allows arrival offered) :
    plan.chart.code.Overruns plan.cut seeds plan.maxDepth := by
  obtain ⟨site, target, hmem, huncut, -, hlimit⟩ := Plan.call_of_refused hoffered hrefused
  exact ⟨_, _, site, target, harrives.arrivesAt, hmem, huncut, hlimit⟩

/-- Where a call overruns the limit, no search gets to its end: it would have followed the path to
    the call at least as deep, and would have been refused the call. -/
theorem Search.Sound.not_overruns {plan : Plan} {seeds : List Seed} {search : Search}
    (hsound : search.Sound plan seeds)
    (hsettled : search.agenda.waiting.isEmpty = true) :
    ¬ plan.chart.code.Overruns plan.cut seeds plan.maxDepth := by
  rintro ⟨entry, depth, site, target, harrives, hmem, huncut, hlimit⟩
  obtain ⟨visit, hvisit, rfl, hdepth⟩ := hsound.exists_visit_of_arrivesAt hsettled harrives
  have hdeep : plan.maxDepth < visit.arrival.nesting.depth + 1 := by omega
  obtain ⟨offered, hoffered, hrefused⟩ := Plan.exists_refused hmem huncut hdeep
  exact hrefused (hsound.offers_allowed visit hvisit offered hoffered)

namespace Analysis

variable {image : Image} {symbols : Symbols} {options : Options}

theorem overruns_plan_iff {cut : Std.TreeSet Ends} {seeds : List Seed} {limit : Int} :
    ((survey image symbols options).plan options).chart.code.Overruns cut seeds limit ↔
      (⟨image, symbols, options.memoryLimit⟩ : Code).Overruns cut seeds limit := by
  simp only [Code.Overruns, stretch_plan, nameOf_plan, arrivesAt_plan_iff]

/-- The fault of an analysis is that of a call that is refused. -/
theorem exists_refused_of_fault {fault : TooDeep}
    (herror : (run image symbols options).result = .error fault) :
    let plan := (survey image symbols options).plan options
    ∃ arrival, Arrives plan (seeds image symbols options) arrival ∧
      ∃ offered ∈ plan.offers arrival, ¬ plan.Allows arrival offered ∧
        fault = plan.fault offered := by
  intro plan
  obtain ⟨_, _, _, _, hok⟩ | ⟨_, last, failure, hturns, hwaiting, hstep, hfault⟩ :=
    run_cases image symbols options
  · rw [herror] at hok
    cases hok
  · obtain rfl := Except.error.inj (herror.symm.trans hfault)
    have hsound := hturns.run.sound
    obtain ⟨arrival, _, htakes, ⟨hnext, -⟩ | ⟨offered, hoffered, _, hrefused, hfailed⟩⟩ :=
      hsound.step_cases hwaiting
    · rw [hnext] at hstep
      cases hstep
    · obtain rfl := Except.error.inj (hstep.symm.trans hfailed)
      exact ⟨arrival, hsound.arrives_of_takes htakes, offered, hoffered, hrefused, rfl⟩

/-- An analysis fails exactly where some call overruns the limit. -/
theorem exists_fault_iff (image : Image) (symbols : Symbols) (options : Options) :
    (∃ fault, (run image symbols options).result = .error fault) ↔
      (⟨image, symbols, options.memoryLimit⟩ : Code).Overruns
        ((survey image symbols options).plan options).cut (seeds image symbols options)
        options.maxDepth := by
  rw [← overruns_plan_iff]
  constructor
  · rintro ⟨fault, herror⟩
    obtain ⟨arrival, harrives, offered, hoffered, hrefused, -⟩ := exists_refused_of_fault herror
    exact harrives.overruns_of_refused hoffered hrefused
  · intro hoverruns
    cases hresult : (run image symbols options).result with
    | error fault => exact ⟨fault, rfl⟩
    | ok found =>
      obtain ⟨last, hsound, hsettled, -⟩ := exists_settled_of_run hresult
      exact absurd hoverruns (hsound.not_overruns hsettled)

end Analysis

end Midrange.Depth
