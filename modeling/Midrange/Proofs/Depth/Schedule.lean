import Midrange.Proofs.Depth.Limit

namespace Midrange.Depth

variable {plan : Plan} {seeds : List Seed} {search next last : Search} {entry : Entry}
  {depth address : Int} {choices : List Entry} {failure : Search.Failure}

namespace Search

/-- The turn of a search that takes up what waits at some entry, however long it has waited. -/
inductive Turn (plan : Plan) (search : Search) (entry : Entry) : Except Failure Search → Prop where
  | takeUp {nesting : Nesting} {rest : Agenda}
      (htakes : search.agenda.Takes ⟨entry, nesting⟩ rest) :
      Turn plan search entry (search.takeUp plan ⟨entry, nesting⟩ rest)

/-- The searches to which turns from the seeds lead when the entry of each turn is chosen at will
    among those that wait. The latest choice comes first. -/
inductive Schedule (plan : Plan) (seeds : List Seed) : List Entry → Search → Prop where
  | start : Schedule plan seeds [] (start seeds)
  | turn {choices : List Entry} {search next : Search} {entry : Entry}
      (hschedule : Schedule plan seeds choices search) (hturn : Turn plan search entry (.ok next)) :
      Schedule plan seeds (entry :: choices) next

/-- Whatever waits can be taken up next. -/
theorem exists_turn (plan : Plan) (hentry : entry ∈ search.agenda.waiting) :
    ∃ outcome, Turn plan search entry outcome := by
  obtain ⟨nesting, hwaiting⟩ := Agenda.mem_waiting_iff.mp hentry
  let rest : Agenda :=
    { search.agenda with
      order := { front := search.agenda.order.toList.erase entry }
      waiting := search.agenda.waiting.erase entry }
  have htakes : search.agenda.Takes ⟨entry, nesting⟩ rest :=
    ⟨hwaiting, rfl, rfl, by simp [rest, Fifo.toList]⟩
  exact ⟨_, .takeUp htakes⟩

theorem Schedule.run (hschedule : Schedule plan seeds choices search) :
    Run plan seeds choices.length search := by
  induction hschedule with
  | start => exact .start
  | turn _ hturn ih =>
    generalize houtcome : Except.ok _ = outcome at hturn
    obtain @⟨nesting, rest, htakes⟩ := hturn
    obtain ⟨hnext, hallows⟩ | ⟨_, _, _, _, hfault⟩ := ih.sound.takeUp_cases htakes
    · obtain rfl := Except.ok.inj (houtcome.trans hnext)
      exact .step ih htakes hallows
    · rw [hfault] at houtcome
      cases houtcome

/-- Steps that take up what has waited longest follow one of the schedules. -/
theorem Turns.exists_schedule {turns : Nat} (hturns : Turns plan seeds turns search) :
    ∃ choices, Schedule plan seeds choices search := by
  induction hturns with
  | start => exact ⟨[], .start⟩
  | step hturns hwaiting hstep ih =>
    obtain ⟨choices, hschedule⟩ := ih
    obtain ⟨arrival, rest, hpop⟩ := Agenda.exists_pop? hturns.run.sound.valid.listed hwaiting
    rw [step_eq_takeUp plan hpop] at hstep
    have hturn : Turn plan _ _ _ := .takeUp (Agenda.takes_of_pop? hpop)
    rw [hstep] at hturn
    exact ⟨_, hschedule.turn hturn⟩

/-- A schedule can only fail where some call overruns the limit. -/
theorem Schedule.overruns_of_failure (hschedule : Schedule plan seeds choices search)
    (hturn : Turn plan search entry (.error failure)) :
    plan.chart.code.Overruns plan.cut seeds plan.maxDepth := by
  have hsound := hschedule.run.sound
  generalize houtcome : Except.error _ = outcome at hturn
  obtain @⟨nesting, rest, htakes⟩ := hturn
  obtain ⟨hnext, -⟩ | ⟨offered, hoffered, _, hrefused, -⟩ := hsound.takeUp_cases htakes
  · rw [hnext] at houtcome
    cases houtcome
  · exact (hsound.arrives_of_takes htakes).overruns_of_refused hoffered hrefused

/-- The depth at which an entry was last followed. -/
def entryDepth? (search : Search) (entry : Entry) : Option Int :=
  search.agenda.walked[entry]?.map (·.depth)

/-- The greatest depth at which the visits so far pass an address. -/
def depthAt? (search : Search) (address : Int) : Option Int :=
  (Analysis.records search.visits.toList)[address]?.map (·.depth)

namespace Sound

variable (hsound : search.Sound plan seeds) (hsettled : search.agenda.waiting.isEmpty = true)

include hsound hsettled

/-- Once nothing waits, an entry was last followed at the greatest depth at which control arrives
    there. -/
theorem entryDepth?_eq_some_iff : search.entryDepth? entry = some depth ↔
    IsGreatest {depth | plan.chart.code.ArrivesAt plan.cut seeds entry depth} depth := by
  have hgreatest (nesting : Nesting) (hwalked : search.agenda.walked[entry]? = some nesting) :
      IsGreatest {depth | plan.chart.code.ArrivesAt plan.cut seeds entry depth} nesting.depth := by
    refine ⟨(hsound.arrives.walked entry nesting hwalked).arrivesAt, fun other harrives => ?_⟩
    obtain ⟨visit, hvisit, rfl, hle⟩ := hsound.exists_visit_of_arrivesAt hsettled harrives
    obtain ⟨found, hfound, hdepth⟩ := hsound.walked_of_visit visit hvisit
    obtain rfl := Option.some.inj (hwalked.symm.trans hfound)
    exact Int.le_trans hle hdepth
  rw [entryDepth?, Option.map_eq_some_iff]
  constructor
  · rintro ⟨nesting, hwalked, rfl⟩
    exact hgreatest nesting hwalked
  · intro hdepth
    obtain ⟨visit, hvisit, rfl, -⟩ := hsound.exists_visit_of_arrivesAt hsettled hdepth.1
    obtain ⟨nesting, hwalked, -⟩ := hsound.walked_of_visit visit hvisit
    exact ⟨nesting, hwalked, (hgreatest nesting hwalked).unique hdepth⟩

/-- Once nothing waits, the record of an address holds the greatest depth at which control passes
    it. -/
theorem depthAt?_eq_some_iff : search.depthAt? address = some depth ↔
    IsGreatest (plan.chart.code.depthsAt plan.cut seeds address) depth := by
  rw [depthAt?, Option.map_eq_some_iff]
  constructor
  · rintro ⟨nesting, hfound, rfl⟩
    exact hsound.isGreatest_of_record hsettled hfound
  · intro hdepth
    have hmem := (hsound.mem_records_iff hsettled address).mpr hdepth.nonempty
    obtain ⟨nesting, hfound⟩ :=
      Option.isSome_iff_exists.mp (Std.TreeMap.mem_iff_isSome_getElem?.mp hmem)
    exact ⟨nesting, hfound, (hsound.isGreatest_of_record hsettled hfound).unique hdepth⟩

variable {other : Search} (hother : other.Sound plan seeds)
  (hfinished : other.agenda.waiting.isEmpty = true)

include hother hfinished

/-- Two searches in which nothing waits any more have followed every entry as deep. -/
theorem entryDepth?_eq : search.entryDepth? = other.entryDepth? := by
  funext entry
  refine Option.ext fun depth => ?_
  rw [hsound.entryDepth?_eq_some_iff hsettled, hother.entryDepth?_eq_some_iff hfinished]

/-- Two searches in which nothing waits any more agree on the depth of every address. -/
theorem depthAt?_eq : search.depthAt? = other.depthAt? := by
  funext address
  refine Option.ext fun depth => ?_
  rw [hsound.depthAt?_eq_some_iff hsettled, hother.depthAt?_eq_some_iff hfinished]

end Sound

end Search

namespace Analysis

open Search (Schedule Turn)

theorem depthAt?_findings (plan : Plan) (options : Options) (warnings : List String)
    (search : Search) : (findings plan options warnings search).depthAt? = search.depthAt? :=
  rfl

/-- It does not matter in which order waiting work is taken up. Whatever is chosen, a schedule goes
    on until nothing waits or a turn fails, and there are only so many turns. Either the analysis
    fails and no schedule gets to an end at which nothing waits, or it succeeds, no schedule ever
    fails, and all of them end with the depths of the analysis, for each entry and for each address,
    and reach the same addresses. -/
theorem run_eq_of_schedule (image : Image) (symbols : Symbols) (options : Options) :
    let survey := survey image symbols options
    let plan := survey.plan options
    let bound := Search.stepBound survey.entries.length survey.graph.entries.size survey.seeds
    (∀ choices search, Schedule plan survey.seeds choices search →
      choices.length < bound ∧
        ∀ entry ∈ search.agenda.waiting, ∃ outcome, Turn plan search entry outcome) ∧
    ((∃ fault, (run image symbols options).result = .error fault ∧
      ∀ choices search, Schedule plan survey.seeds choices search →
        search.agenda.waiting.isEmpty = false) ∨
    ∃ choices last, Schedule plan survey.seeds choices last ∧ last.agenda.waiting.isEmpty = true ∧
      (run image symbols options).result = .ok (findings plan options survey.labelled.2 last) ∧
      (∀ choices search, Schedule plan survey.seeds choices search →
        ∀ entry failure, ¬ Turn plan search entry (.error failure)) ∧
      ∀ choices other, Schedule plan survey.seeds choices other →
        other.agenda.waiting.isEmpty = true →
        (∀ entry, other.entryDepth? entry = last.entryDepth? entry) ∧
        (∀ address, other.depthAt? address =
          (findings plan options survey.labelled.2 last).depthAt? address) ∧
        ∀ address, address ∈ records other.visits.toList ↔
          address ∈ (findings plan options survey.labelled.2 last).records) := by
  intro survey plan bound
  refine ⟨fun choices search hschedule =>
    ⟨?_, fun entry hentry => Search.exists_turn plan hentry⟩, ?_⟩
  · exact turns_lt_stepBound hschedule.run
  obtain ⟨_, last, hturns, hwaiting, hok⟩ | ⟨_, last, failure, hturns, hwaiting, hstep, herror⟩ :=
    run_cases image symbols options
  · have hsound := hturns.run.sound
    obtain ⟨choices, hfifo⟩ := hturns.exists_schedule
    refine Or.inr ⟨choices, last, hfifo, hwaiting, hok, ?_, ?_⟩
    · intro choices search hschedule entry failure hturn
      exact hsound.not_overruns hwaiting (hschedule.overruns_of_failure hturn)
    · intro choices other hschedule hfinished
      have hother := hschedule.run.sound
      have hentries := hother.entryDepth?_eq hfinished hsound hwaiting
      have haddresses := hother.depthAt?_eq hfinished hsound hwaiting
      have hmem := hsound.mem_records_iff hwaiting
      rw [depthAt?_findings]
      refine ⟨congrFun hentries, congrFun haddresses, fun address => ?_⟩
      exact (hother.mem_records_iff hfinished address).trans (hmem address).symm
  · have hoverruns :=
      overruns_plan_iff.mpr ((exists_fault_iff image symbols options).mp ⟨_, herror⟩)
    refine Or.inl ⟨_, herror, fun choices search hschedule => ?_⟩
    refine Bool.eq_false_iff.mpr fun hfinished => ?_
    exact hschedule.run.sound.not_overruns hfinished hoverruns

end Analysis

end Midrange.Depth
