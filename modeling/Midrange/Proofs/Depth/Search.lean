import Midrange.Proofs.Depth.Agenda
import Midrange.Proofs.Depth.Arrival

namespace Midrange.Depth

variable {plan : Plan} {arrival offered : Arrival} {departure : Departure}
  {departures : List Departure} {search next : Search} {rest : Agenda} {failure : Search.Failure}

namespace Plan

/-- Control may nest deeper than it did as long as it stays within the limit. -/
def Allows (plan : Plan) (arrival offered : Arrival) : Prop :=
  arrival.nesting.depth < offered.nesting.depth → offered.nesting.depth ≤ plan.maxDepth

/-- The fault of an arrival that is nested too deep. -/
def fault (plan : Plan) (arrival : Arrival) : TooDeep :=
  ⟨arrival.entry.start, arrival.nesting.depth, arrival.nesting.chain, plan.maxDepth⟩

/-- The links on the stretch of an arrival, those that are cut among them. -/
def links (plan : Plan) (arrival : Arrival) : List Link :=
  (plan.chart.code.stretch arrival.entry.start).departures.filterMap
    (plan.chart.code.link? arrival.entry.routine)

end Plan

namespace Search

/-- A search that has met some departures and offered where they lead. -/
def met (plan : Plan) (arrival : Arrival) (departures : List Departure) (search : Search) :
    Search where
  agenda := (departures.filterMap (plan.lead? arrival)).foldl Agenda.push search.agenda
  visits := search.visits
  links :=
    search.links ++ (departures.filterMap (plan.chart.code.link? arrival.entry.routine)).toArray

/-- A search that has taken up an arrival and followed it. -/
def followed (plan : Plan) (arrival : Arrival) (rest : Agenda) (search : Search) : Search where
  agenda := (plan.offers arrival).foldl Agenda.push (rest.walk arrival.entry arrival.nesting)
  visits := search.visits.push ⟨arrival, plan.chart.code.stretch arrival.entry.start⟩
  links := search.links ++ (plan.links arrival).toArray

theorem met_cons (departure : Departure) (departures : List Departure) :
    search.met plan arrival (departure :: departures) =
      (search.met plan arrival [departure]).met plan arrival departures := by
  simp only [met, List.filterMap_cons, List.filterMap_nil]
  cases plan.lead? arrival departure <;>
    cases plan.chart.code.link? arrival.entry.routine departure <;> simp

/-- A departure is met, or else it is a call that would nest too deep. -/
theorem depart_cases (plan : Plan) (arrival : Arrival) (search : Search) (departure : Departure) :
    (depart plan arrival search departure = .ok (search.met plan arrival [departure]) ∧
      ∀ offered, plan.lead? arrival departure = some offered → plan.Allows arrival offered) ∨
    ∃ offered partly, plan.lead? arrival departure = some offered ∧ ¬ plan.Allows arrival offered ∧
      depart plan arrival search departure = .error ⟨plan.fault offered, partly⟩ := by
  cases departure with
  | skip target =>
    left
    refine ⟨by simp [depart, met, Plan.lead?, Code.link?, push], ?_⟩
    rintro _ hlead hdeeper
    obtain rfl := Option.some.inj hlead
    exact absurd hdeeper (Int.lt_irrefl _)
  | branch kind site target =>
    let link : Link := ⟨arrival.entry.routine, plan.chart.code.symbols.nameOf target, kind⟩
    by_cases hcut : plan.cuts link = true
    · left
      refine ⟨by simp [depart, met, Plan.lead?, Code.link?, hcut, link], ?_⟩
      simp [Plan.lead?, Code.link?, hcut, link]
    · let nesting := nestingBehind arrival.nesting link
      let offered : Arrival := ⟨⟨target, plan.chart.code.symbols.nameOf target⟩, nesting⟩
      have hlead : plan.lead? arrival (.branch kind site target) = some offered := if_neg hcut
      have hdepart : depart plan arrival search (.branch kind site target) =
          if kind = .call ∧ plan.maxDepth < nesting.depth then
            .error ⟨plan.fault offered, { search with links := search.links.push link }⟩
          else .ok (search.met plan arrival [.branch kind site target]) := by
        have hmet : search.met plan arrival [.branch kind site target] =
            { search with links := search.links.push link }.push offered := by
          simp [met, hlead, Code.link?, push, link]
        rw [hmet]
        exact if_neg hcut
      by_cases hrefused : kind = .call ∧ plan.maxDepth < nesting.depth
      · right
        refine ⟨offered, _, hlead, fun hallows => ?_, hdepart.trans (if_pos hrefused)⟩
        obtain ⟨rfl, hdeep⟩ := hrefused
        have hwithin := hallows (Int.lt_succ arrival.nesting.depth)
        exact Int.not_lt.mpr hwithin hdeep
      · left
        refine ⟨hdepart.trans (if_neg hrefused), fun other hother hdeeper => ?_⟩
        obtain rfl := Option.some.inj (hlead.symm.trans hother)
        cases kind with
        | call => exact Int.not_lt.mp fun hdeep => hrefused ⟨rfl, hdeep⟩
        | goto => exact absurd hdeeper (Int.lt_irrefl _)

/-- All departures are met, or else one of them is a call that would nest too deep. -/
theorem foldlM_depart_cases (plan : Plan) (arrival : Arrival) (search : Search)
    (departures : List Departure) :
    (departures.foldlM (depart plan arrival) search = .ok (search.met plan arrival departures) ∧
      ∀ offered ∈ departures.filterMap (plan.lead? arrival), plan.Allows arrival offered) ∨
    ∃ offered ∈ departures.filterMap (plan.lead? arrival), ∃ partly, ¬ plan.Allows arrival offered ∧
      departures.foldlM (depart plan arrival) search = .error ⟨plan.fault offered, partly⟩ := by
  induction departures generalizing search with
  | nil => exact Or.inl ⟨by simp [met, pure, Except.pure], by simp⟩
  | cons departure rest ih =>
    have hmem (offered : Arrival) : offered ∈ (departure :: rest).filterMap (plan.lead? arrival) ↔
        plan.lead? arrival departure = some offered ∨
          offered ∈ rest.filterMap (plan.lead? arrival) := by
      simp only [List.mem_filterMap, List.mem_cons, or_and_right, exists_or, exists_eq_left]
    rw [List.foldlM_cons]
    obtain ⟨hmet, hallows⟩ | ⟨offered, partly, hlead, hrefused, hfault⟩ :=
      depart_cases plan arrival search departure
    · rw [hmet, met_cons departure rest]
      obtain ⟨hrest, hall⟩ | ⟨offered, hoffered, partly, hrefused, hfault⟩ :=
        ih (search.met plan arrival [departure])
      · refine Or.inl ⟨hrest, fun offered hoffered => ?_⟩
        obtain hlead | hoffered := (hmem offered).mp hoffered
        · exact hallows offered hlead
        · exact hall offered hoffered
      · exact Or.inr ⟨offered, (hmem offered).mpr (Or.inr hoffered), partly, hrefused, hfault⟩
    · refine Or.inr ⟨offered, (hmem offered).mpr (Or.inl hlead), partly, hrefused, ?_⟩
      rw [hfault]
      rfl

/-- A turn that takes up an arrival with the rest of the agenda left: the arrival is followed unless
    its entry has been followed as deep already. -/
def takeUp (plan : Plan) (search : Search) (arrival : Arrival) (rest : Agenda) :
    Except Failure Search :=
  let taken := { search with agenda := rest }
  if rest.improves arrival then taken.visit plan arrival else .ok taken

/-- A step takes up what has waited longest. -/
theorem step_eq_takeUp (plan : Plan) (hpop : search.agenda.pop? = some (arrival, rest)) :
    search.step plan = search.takeUp plan arrival rest := by
  simp only [step, hpop, takeUp]

/-- A turn follows the arrival that it takes up, or else a call from there would nest too deep. -/
theorem takeUp_cases (plan : Plan) (search : Search) (himproves : rest.improves arrival = true) :
    (search.takeUp plan arrival rest = .ok (search.followed plan arrival rest) ∧
      ∀ offered ∈ plan.offers arrival, plan.Allows arrival offered) ∨
    ∃ offered ∈ plan.offers arrival, ∃ partly, ¬ plan.Allows arrival offered ∧
      search.takeUp plan arrival rest = .error ⟨plan.fault offered, partly⟩ := by
  simp only [takeUp, himproves, if_true, visit, Chart.stretch_eq]
  obtain ⟨hmet, hallows⟩ | ⟨offered, hoffered, partly, hrefused, hfault⟩ :=
    foldlM_depart_cases plan arrival
      { search with agenda := rest.walk arrival.entry arrival.nesting }
      (plan.chart.code.stretch arrival.entry.start).departures
  · left
    rw [hmet]
    exact ⟨rfl, hallows⟩
  · right
    rw [hfault]
    exact ⟨offered, hoffered, partly, hrefused, rfl⟩

theorem agenda_start (seeds : List Seed) :
    (start seeds).agenda = (seeds.map Seed.arrival).foldl Agenda.push {} := by
  have hfold (search : Search) :
      (seeds.foldl (fun search seed => search.push seed.arrival) search).agenda =
        (seeds.map Seed.arrival).foldl Agenda.push search.agenda := by
    induction seeds generalizing search with
    | nil => rfl
    | cons seed rest ih => exact ih (search.push seed.arrival)
  exact hfold {}

theorem visits_start (seeds : List Seed) : (start seeds).visits = #[] := by
  have hfold (search : Search) :
      (seeds.foldl (fun search seed => search.push seed.arrival) search).visits =
        search.visits := by
    induction seeds generalizing search with
    | nil => rfl
    | cons seed rest ih => exact ih (search.push seed.arrival)
  exact hfold {}

end Search

end Midrange.Depth
