import Midrange.Proofs.Depth.LongestPath

namespace Midrange.Depth

namespace Code

/-- A routine takes a call or a goto that is not cut, on the stretch from some entry of it at which
    control arrives. -/
def Follows (code : Code) (cut : Std.TreeSet Ends) (seeds : List Seed) (link : Link) : Prop :=
  (∃ entry depth site target, code.ArrivesAt cut seeds entry depth ∧
    .branch link.kind site target ∈ (code.stretch entry.start).departures ∧
    entry.routine = link.source ∧ code.symbols.nameOf target = link.target) ∧ link.ends ∉ cut

/-- Calls that can really nest within each other, the outermost first, and the depth that they make:
    the first one is the label of a seed, each further one is called below the one before it and
    nests one level deeper, and no routine is called again before it returns. -/
structure Nests (code : Code) (cut : Std.TreeSet Ends) (seeds : List Seed) (depth : Int)
    (chain : List String) : Prop where
  outermost : ∃ seed ∈ seeds, chain.head? = some seed.label ∧ depth = seed.depth + chain.length - 1
  isChain : chain.IsChain (Calls (code.Follows cut seeds))
  nodup : chain.Nodup

end Code

namespace Arrives

variable {plan : Plan} {seeds : List Seed} {arrival : Arrival}

/-- The calls of an arrival nest within each other along calls and gotos that control follows. -/
theorem chain_follows (harrives : Arrives plan seeds arrival) :
    Chain (plan.chart.code.Follows plan.cut seeds) (Analysis.roots seeds) arrival.nesting.calls
      arrival.entry.routine := by
  induction harrives with
  | @seed seed hseed => exact .root (Analysis.mem_roots_iff.mpr ⟨seed, hseed, rfl⟩)
  | @offered arrival offered harrives hoffered ih =>
    obtain ⟨target, hmem, rfl⟩ | ⟨kind, site, target, hmem, huncut, rfl⟩ :=
      Plan.mem_offers_iff.mp hoffered
    · exact ih
    · have hfollows : plan.chart.code.Follows plan.cut seeds
          ⟨arrival.entry.routine, plan.chart.code.symbols.nameOf target, kind⟩ :=
        ⟨⟨_, _, site, target, harrives.arrivesAt, hmem, rfl, rfl⟩, huncut⟩
      cases kind with
      | call => exact ih.call hfollows
      | goto => exact ih.goto hfollows

theorem nests (hcuts : plan.CutsRecursion seeds) (harrives : Arrives plan seeds arrival) :
    plan.chart.code.Nests plan.cut seeds arrival.nesting.depth arrival.nesting.chain := by
  constructor
  case outermost =>
    obtain ⟨seed, hseed, hlast, hdepth⟩ := harrives.exists_seed
    refine ⟨seed, hseed, by rwa [Nesting.chain, List.head?_reverse], ?_⟩
    rw [Nesting.chain, List.length_reverse]
    omega
  case isChain => exact harrives.chain_follows.isChain_calls.1
  case nodup =>
    have hchain := harrives.chain
    rw [hcuts] at hchain
    exact List.nodup_reverse.mpr hchain.nodup

end Arrives

namespace Search

/-- What waits and what was followed at some point of a search, and the visits made by then. The
    last of them may be under way: it has passed some of its addresses, or all of them and has taken
    some of its departures. -/
inductive Moment (plan : Plan) (seeds : List Seed) : Agenda → List Visit → Prop where
  | offering {offered : List Seed} (hpart : offered <+: seeds) :
      Moment plan seeds (start offered).agenda []
  | between {turns : Nat} {search : Search} (hturns : Turns plan seeds turns search) :
      Moment plan seeds search.agenda search.visits.toList
  | taken {turns : Nat} {search : Search} {arrival : Arrival} {rest : Agenda}
      (hturns : Turns plan seeds turns search) (hpop : search.agenda.pop? = some (arrival, rest)) :
      Moment plan seeds rest search.visits.toList
  | passing {turns : Nat} {search : Search} {arrival : Arrival} {rest : Agenda}
      {addresses : List Int}
      (hturns : Turns plan seeds turns search) (hpop : search.agenda.pop? = some (arrival, rest))
      (hpart : addresses <+: (plan.chart.stretch arrival.entry.start).addresses) :
      Moment plan seeds (rest.walk arrival.entry arrival.nesting)
        (search.visits.toList ++ [⟨arrival,
          { plan.chart.stretch arrival.entry.start with addresses }⟩])
  | departing {turns : Nat} {search partly : Search} {arrival : Arrival} {rest : Agenda}
      {departures : List Departure}
      (hturns : Turns plan seeds turns search) (hpop : search.agenda.pop? = some (arrival, rest))
      (hpart : departures <+: (plan.chart.stretch arrival.entry.start).departures)
      (hdeparted : departures.foldlM (depart plan arrival)
        { search with agenda := rest.walk arrival.entry arrival.nesting } = .ok partly) :
      Moment plan seeds partly.agenda
        (search.visits.toList ++ [⟨arrival, plan.chart.stretch arrival.entry.start⟩])

variable {plan : Plan} {seeds : List Seed} {agenda : Agenda} {visits : List Visit}
  {search partly : Search} {arrival : Arrival} {departures : List Departure}

/-- Departures that are taken lead to where control arrives. -/
private theorem all_departed (hall : search.agenda.All (Arrives plan seeds))
    (harrives : Arrives plan seeds arrival)
    (hsubset : ∀ departure ∈ departures,
      departure ∈ (plan.chart.stretch arrival.entry.start).departures)
    (hdeparted : departures.foldlM (depart plan arrival) search = .ok partly) :
    partly.agenda.All (Arrives plan seeds) := by
  obtain ⟨hmet, -⟩ | ⟨_, _, _, _, hfault⟩ := foldlM_depart_cases plan arrival search departures
  · obtain rfl := Except.ok.inj (hdeparted.symm.trans hmet)
    refine hall.foldl_push _ fun offered hoffered => ?_
    obtain ⟨departure, hmem, hlead⟩ := List.mem_filterMap.mp hoffered
    have hmem := hsubset departure hmem
    rw [Chart.stretch_eq] at hmem
    exact harrives.offered (List.mem_filterMap.mpr ⟨departure, hmem, hlead⟩)
  · rw [hfault] at hdeparted
    cases hdeparted

/-- At any point of a search control arrives like everything says that waits, was followed or is
    visited. -/
theorem Moment.arrives (hmoment : Moment plan seeds agenda visits) :
    agenda.All (Arrives plan seeds) ∧ ∀ visit ∈ visits, Arrives plan seeds visit.arrival := by
  have hvisits {search : Search} {visit : Visit} (hsound : search.Sound plan seeds)
      (hlast : Arrives plan seeds visit.arrival) :
      ∀ other ∈ search.visits.toList ++ [visit], Arrives plan seeds other.arrival := by
    intro other hother
    obtain hother | hother := List.mem_append.mp hother
    · exact hsound.visits_arrive other hother
    · obtain rfl := List.mem_singleton.mp hother
      exact hlast
  cases hmoment with
  | offering hpart => exact ⟨all_start plan fun _ hmem => hpart.mem hmem, by simp⟩
  | between hturns =>
    have hsound := hturns.run.sound
    exact ⟨hsound.arrives, hsound.visits_arrive⟩
  | taken hturns hpop =>
    have hsound := hturns.run.sound
    have htakes := Agenda.takes_of_pop? hpop
    exact ⟨htakes.all_rest hsound.arrives, hsound.visits_arrive⟩
  | passing hturns hpop hpart =>
    have hsound := hturns.run.sound
    have htakes := Agenda.takes_of_pop? hpop
    have harrives := hsound.arrives_of_takes htakes
    exact ⟨htakes.all_walk hsound.arrives, hvisits hsound harrives⟩
  | departing hturns hpop hpart hdeparted =>
    have hsound := hturns.run.sound
    have htakes := Agenda.takes_of_pop? hpop
    have harrives := hsound.arrives_of_takes htakes
    have hall := htakes.all_walk hsound.arrives
    refine ⟨all_departed hall harrives (fun _ hmem => hpart.mem hmem) hdeparted, ?_⟩
    exact hvisits hsound harrives

end Search

namespace Analysis

open Search (Moment)

variable {image : Image} {symbols : Symbols} {options : Options}

theorem nests_plan_iff {cut : Std.TreeSet Ends} {seeds : List Seed} {depth : Int}
    {chain : List String} :
    ((survey image symbols options).plan options).chart.code.Nests cut seeds depth chain ↔
      (⟨image, symbols, options.memoryLimit⟩ : Code).Nests cut seeds depth chain := by
  have hfollows : ((survey image symbols options).plan options).chart.code.Follows cut seeds =
      (⟨image, symbols, options.memoryLimit⟩ : Code).Follows cut seeds := by
    funext link
    simp only [Code.Follows, stretch_plan, nameOf_plan, arrivesAt_plan_iff]
  constructor
  · rintro ⟨houtermost, hchain, hnodup⟩
    exact ⟨houtermost, hfollows ▸ hchain, hnodup⟩
  · rintro ⟨houtermost, hchain, hnodup⟩
    exact ⟨houtermost, hfollows ▸ hchain, hnodup⟩

/-- Every stack of calls is one that can really come about without recursion, together with its
    depth: at any point of an analysis those of the records, of what waits and of what was followed,
    and in the end that of the call that nests too deep or those of the records that are found. -/
theorem nests_of_run (image : Image) (symbols : Symbols) (options : Options) :
    let code : Code := ⟨image, symbols, options.memoryLimit⟩
    let plan := (survey image symbols options).plan options
    let seeds := seeds image symbols options
    (∀ agenda visits, Moment plan seeds agenda visits →
      (∀ (address : Int) nesting, (records visits)[address]? = some nesting →
        code.Nests plan.cut seeds nesting.depth nesting.chain) ∧
      (∀ (entry : Entry) nesting, agenda.walked[entry]? = some nesting →
        code.Nests plan.cut seeds nesting.depth nesting.chain) ∧
      ∀ (entry : Entry) nesting, agenda.waiting[entry]? = some nesting →
        code.Nests plan.cut seeds nesting.depth nesting.chain) ∧
    (∀ fault, (run image symbols options).result = .error fault →
      code.Nests plan.cut seeds fault.depth fault.chain) ∧
    ∀ found, (run image symbols options).result = .ok found → found.cut = plan.cut ∧
      ∀ (address : Int) nesting, found.records[address]? = some nesting →
        code.Nests plan.cut seeds nesting.depth nesting.chain := by
  intro code plan seeds
  have hcuts := cutsRecursion_plan image symbols options
  have hnests {arrival : Arrival} (harrives : Arrives plan seeds arrival) :
      code.Nests plan.cut seeds arrival.nesting.depth arrival.nesting.chain :=
    nests_plan_iff.mp (harrives.nests hcuts)
  have hrecords {visits : List Visit} (hvisits : ∀ visit ∈ visits, Arrives plan seeds visit.arrival)
      (address : Int) (nesting : Nesting) (hfound : (records visits)[address]? = some nesting) :
      code.Nests plan.cut seeds nesting.depth nesting.chain := by
    obtain ⟨visit, hvisit, -, rfl⟩ := exists_visit_of_record hfound
    exact hnests (hvisits visit hvisit)
  refine ⟨fun agenda visits hmoment => ?_, fun fault herror => ?_, fun found hok => ?_⟩
  · obtain ⟨hall, hvisits⟩ := hmoment.arrives
    refine ⟨hrecords hvisits, fun entry nesting hwalked => ?_, fun entry nesting hwaiting => ?_⟩
    · exact hnests (hall.walked entry nesting hwalked)
    · exact hnests (hall.waiting entry nesting hwaiting)
  · obtain ⟨_, _, _, _, hok⟩ | ⟨_, last, failure, hturns, hwaiting, hstep, hfault⟩ :=
      run_cases image symbols options
    · rw [herror] at hok
      cases hok
    · obtain rfl := Except.error.inj (herror.symm.trans hfault)
      have hsound := hturns.run.sound
      obtain ⟨arrival, _, htakes, ⟨hnext, -⟩ | ⟨offered, hoffered, _, _, hrefused⟩⟩ :=
        hsound.step_cases hwaiting
      · rw [hnext] at hstep
        cases hstep
      · obtain rfl := Except.error.inj (hstep.symm.trans hrefused)
        exact hnests ((hsound.arrives_of_takes htakes).offered hoffered)
  · obtain ⟨last, hsound, -, hcut, -, heq⟩ := exists_settled_of_run hok
    refine ⟨hcut, fun address nesting hfound => ?_⟩
    rw [heq] at hfound
    exact hrecords hsound.visits_arrive address nesting hfound

end Analysis

end Midrange.Depth
