import Midrange.Proofs.Depth.Search

namespace Midrange.Depth.Search

variable {plan : Plan} {seeds : List Seed} {turns : Nat} {search : Search} {arrival : Arrival}
  {rest : Agenda}

/-- A number of turns of a search from seeds, each of which takes up any arrival that waits and
    follows it, with no call that nests too deep. -/
inductive Run (plan : Plan) (seeds : List Seed) : Nat → Search → Prop where
  | start : Run plan seeds 0 (start seeds)
  | step {turns : Nat} {search : Search} {arrival : Arrival} {rest : Agenda}
      (hrun : Run plan seeds turns search) (htakes : search.agenda.Takes arrival rest)
      (hallows : ∀ offered ∈ plan.offers arrival, plan.Allows arrival offered) :
      Run plan seeds (turns + 1) (search.followed plan arrival rest)

/-- The later of two visits from one entry is the deeper one. -/
def Deepens (earlier later : Visit) : Prop :=
  earlier.arrival.entry = later.arrival.entry →
    earlier.arrival.nesting.depth < later.arrival.nesting.depth

/-- What holds of a search at any time: control arrives everywhere like the search says, nothing is
    lost that the seeds and the visits lead to, and visits from one entry only deepen. -/
structure Sound (plan : Plan) (seeds : List Seed) (search : Search) : Prop where
  valid : search.agenda.Valid
  arrives : search.agenda.All (Arrives plan seeds)
  seeds_covered : ∀ seed ∈ seeds, search.agenda.Covers seed.entry seed.depth
  offers_covered : ∀ visit ∈ search.visits.toList, ∀ offered ∈ plan.offers visit.arrival,
    search.agenda.Covers offered.entry offered.nesting.depth
  offers_allowed : ∀ visit ∈ search.visits.toList, ∀ offered ∈ plan.offers visit.arrival,
    plan.Allows visit.arrival offered
  visits_arrive : ∀ visit ∈ search.visits.toList, Arrives plan seeds visit.arrival
  stretch_eq : ∀ visit ∈ search.visits.toList,
    visit.stretch = plan.chart.code.stretch visit.arrival.entry.start
  visit_of_walked : ∀ entry nesting, search.agenda.walked[entry]? = some nesting →
    ∃ visit ∈ search.visits.toList, visit.arrival = ⟨entry, nesting⟩
  walked_of_visit : ∀ visit ∈ search.visits.toList, ∃ nesting,
    search.agenda.walked[visit.arrival.entry]? = some nesting ∧
    visit.arrival.nesting.depth ≤ nesting.depth
  deepens : search.visits.toList.Pairwise Deepens

/-- Whichever seeds are offered, control arrives there. -/
theorem all_start (plan : Plan) {offered : List Seed} (hoffered : ∀ seed ∈ offered, seed ∈ seeds) :
    (start offered).agenda.All (Arrives plan seeds) := by
  have hall : ({} : Agenda).All (Arrives plan seeds) := by
    constructor <;> simp
  rw [agenda_start]
  refine hall.foldl_push _ fun arrival harrival => ?_
  obtain ⟨seed, hseed, rfl⟩ := List.mem_map.mp harrival
  exact .seed (hoffered seed hseed)

theorem sound_start (plan : Plan) (seeds : List Seed) : (start seeds).Sound plan seeds := by
  have hvisits : (start seeds).visits.toList = [] := by rw [visits_start]
  have hvalid : ({} : Agenda).Valid := by
    constructor <;> simp [Fifo.toList]
  constructor
  case valid => simpa only [agenda_start] using hvalid.foldl_push _
  case arrives => exact all_start plan fun _ hseed => hseed
  case seeds_covered =>
    intro seed hseed
    rw [agenda_start]
    exact Agenda.covers_foldl_push _ _ seed.arrival (List.mem_map_of_mem hseed)
  case visit_of_walked => simp [agenda_start]
  all_goals simp [hvisits]

private theorem mem_visits_followed {visit : Visit} :
    visit ∈ (search.followed plan arrival rest).visits.toList ↔ visit ∈ search.visits.toList ∨
      visit = ⟨arrival, plan.chart.code.stretch arrival.entry.start⟩ := by
  simp [followed]

private theorem getElem?_walked_followed {entry : Entry}
    (htakes : search.agenda.Takes arrival rest) :
    (search.followed plan arrival rest).agenda.walked[entry]? =
      if arrival.entry = entry then some arrival.nesting else search.agenda.walked[entry]? := by
  simp only [followed, Agenda.walked_foldl_push, htakes.getElem?_walked_walk]

namespace Sound

variable (hsound : search.Sound plan seeds)

include hsound

theorem arrives_of_takes (htakes : search.agenda.Takes arrival rest) : Arrives plan seeds arrival :=
  hsound.arrives.waiting _ _ htakes.waiting

/-- What is taken up is deeper than any visit from its entry. -/
theorem lt_depth_of_takes (htakes : search.agenda.Takes arrival rest) :
    ∀ visit ∈ search.visits.toList, visit.arrival.entry = arrival.entry →
      visit.arrival.nesting.depth < arrival.nesting.depth := by
  intro visit hvisit hentry
  obtain ⟨nesting, hwalked, hdepth⟩ := hsound.walked_of_visit visit hvisit
  rw [hentry] at hwalked
  have himproves := hsound.valid.improves _ _ htakes.waiting
  have hless := Agenda.improves_iff.mp himproves nesting hwalked
  exact Int.lt_of_le_of_lt hdepth hless

/-- A turn follows whatever it takes up, or fails at a call behind it. -/
theorem takeUp_cases (htakes : search.agenda.Takes arrival rest) :
    (search.takeUp plan arrival rest = .ok (search.followed plan arrival rest) ∧
      ∀ offered ∈ plan.offers arrival, plan.Allows arrival offered) ∨
    ∃ offered ∈ plan.offers arrival, ∃ partly, ¬ plan.Allows arrival offered ∧
      search.takeUp plan arrival rest = .error ⟨plan.fault offered, partly⟩ :=
  Search.takeUp_cases plan search (htakes.improves hsound.valid)

/-- While anything waits, a step takes up some arrival and follows it, or fails at a call behind
    it. -/
theorem step_cases (hwaiting : search.agenda.waiting.isEmpty = false) :
    ∃ arrival rest, search.agenda.Takes arrival rest ∧
      ((search.step plan = .ok (search.followed plan arrival rest) ∧
        ∀ offered ∈ plan.offers arrival, plan.Allows arrival offered) ∨
      ∃ offered ∈ plan.offers arrival, ∃ partly, ¬ plan.Allows arrival offered ∧
        search.step plan = .error ⟨plan.fault offered, partly⟩) := by
  obtain ⟨arrival, rest, hpop⟩ := Agenda.exists_pop? hsound.valid.listed hwaiting
  have htakes := Agenda.takes_of_pop? hpop
  rw [step_eq_takeUp plan hpop]
  exact ⟨arrival, rest, htakes, hsound.takeUp_cases htakes⟩

theorem followed (htakes : search.agenda.Takes arrival rest)
    (hallows : ∀ offered ∈ plan.offers arrival, plan.Allows arrival offered) :
    (search.followed plan arrival rest).Sound plan seeds := by
  have harrives := hsound.arrives_of_takes htakes
  constructor
  case valid => exact (htakes.valid_walk hsound.valid).foldl_push _
  case arrives =>
    exact (htakes.all_walk hsound.arrives).foldl_push _ fun _ hoffered => harrives.offered hoffered
  case seeds_covered =>
    intro seed hseed
    exact (htakes.covers_walk hsound.valid (hsound.seeds_covered seed hseed)).foldl_push _
  case offers_covered =>
    intro visit hvisit offered hoffered
    obtain hvisit | rfl := mem_visits_followed.mp hvisit
    · have hcovers := hsound.offers_covered visit hvisit offered hoffered
      exact (htakes.covers_walk hsound.valid hcovers).foldl_push _
    · exact Agenda.covers_foldl_push _ _ offered hoffered
  case offers_allowed =>
    intro visit hvisit
    obtain hvisit | rfl := mem_visits_followed.mp hvisit
    · exact hsound.offers_allowed visit hvisit
    · exact hallows
  case visits_arrive =>
    intro visit hvisit
    obtain hvisit | rfl := mem_visits_followed.mp hvisit
    · exact hsound.visits_arrive visit hvisit
    · exact harrives
  case stretch_eq =>
    intro visit hvisit
    obtain hvisit | rfl := mem_visits_followed.mp hvisit
    · exact hsound.stretch_eq visit hvisit
    · rfl
  case visit_of_walked =>
    intro entry nesting hwalked
    rw [getElem?_walked_followed htakes] at hwalked
    split at hwalked
    · rename_i heq
      obtain rfl := heq
      obtain rfl := Option.some.inj hwalked
      exact ⟨_, mem_visits_followed.mpr (Or.inr rfl), rfl⟩
    · obtain ⟨visit, hvisit, heq⟩ := hsound.visit_of_walked entry nesting hwalked
      exact ⟨visit, mem_visits_followed.mpr (Or.inl hvisit), heq⟩
  case walked_of_visit =>
    intro visit hvisit
    rw [getElem?_walked_followed htakes]
    obtain hvisit | rfl := mem_visits_followed.mp hvisit
    · split
      · rename_i heq
        have hless := hsound.lt_depth_of_takes htakes visit hvisit heq.symm
        exact ⟨_, rfl, Int.le_of_lt hless⟩
      · exact hsound.walked_of_visit visit hvisit
    · exact ⟨_, if_pos rfl, Int.le_refl _⟩
  case deepens =>
    simp only [Search.followed, Array.toList_push, List.pairwise_append]
    refine ⟨hsound.deepens, List.pairwise_singleton _ _, fun visit hvisit later hlater => ?_⟩
    obtain rfl := List.mem_singleton.mp hlater
    exact hsound.lt_depth_of_takes htakes visit hvisit

end Sound

theorem Run.sound (hrun : Run plan seeds turns search) : search.Sound plan seeds := by
  induction hrun with
  | start => exact sound_start plan seeds
  | step _ htakes hallows ih => exact ih.followed htakes hallows

/-- Every turn makes a visit. -/
theorem Run.length_visits (hrun : Run plan seeds turns search) :
    search.visits.toList.length = turns := by
  induction hrun with
  | start => simp [visits_start]
  | step _ _ _ ih => simpa [followed] using ih

end Midrange.Depth.Search
