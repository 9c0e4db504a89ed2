import Midrange.Proofs.Depth.Limit
import Midrange.Proofs.Depth.Renaming

namespace Midrange.Depth

variable {E : Entry → Entry → Prop}

/-- Nestings that may differ in the labels of their calls. -/
def Nesting.SameDepth (nesting nesting' : Nesting) : Prop :=
  nesting.depth = nesting'.depth

/-- Arrivals of one depth at corresponding entries. -/
structure Arrival.Renames (E : Entry → Entry → Prop) (arrival arrival' : Arrival) : Prop where
  entry : E arrival.entry arrival'.entry
  sameDepth : arrival.nesting.SameDepth arrival'.nesting

/-- Agendas in which the same work waits in the same order and the same was followed, at
    corresponding entries. -/
structure Agenda.Renames (E : Entry → Entry → Prop) (agenda agenda' : Agenda) : Prop where
  order : List.Forall₂ E agenda.order.toList agenda'.order.toList
  waiting : Matches E Nesting.SameDepth agenda.waiting agenda'.waiting
  walked : Matches E Nesting.SameDepth agenda.walked agenda'.walked

namespace Agenda.Renames

variable {agenda agenda' rest rest' : Agenda} {arrival arrival' : Arrival}
  {offers offers' : List Arrival}

theorem empty : Agenda.Renames E {} {} :=
  ⟨.nil, .empty, .empty⟩

variable (hrenames : agenda.Renames E agenda')

include hrenames

theorem improves_eq (harrival : arrival.Renames E arrival') :
    agenda.improves arrival = agenda'.improves arrival' := by
  have hwalked := hrenames.walked.rel harrival.entry
  have hdepth : arrival.nesting.depth = arrival'.nesting.depth := harrival.sameDepth
  unfold improves
  generalize agenda.walked[arrival.entry]? = found at hwalked ⊢
  generalize agenda'.walked[arrival'.entry]? = found' at hwalked ⊢
  cases hwalked with
  | none => rfl
  | @some nesting nesting' hsame =>
    have hsame : nesting.depth = nesting'.depth := hsame
    rw [Option.all_some, Option.all_some, hsame, hdepth]

theorem joined (harrival : arrival.Renames E arrival') :
    (agenda.joined arrival).SameDepth (agenda'.joined arrival') := by
  have hwaiting := hrenames.waiting.rel harrival.entry
  have hdepth : arrival.nesting.depth = arrival'.nesting.depth := harrival.sameDepth
  unfold Agenda.joined
  generalize agenda.waiting[arrival.entry]? = found at hwaiting ⊢
  generalize agenda'.waiting[arrival'.entry]? = found' at hwaiting ⊢
  cases hwaiting with
  | none => exact harrival.sameDepth
  | @some nesting nesting' hsame =>
    have hsame : nesting.depth = nesting'.depth := hsame
    simp only [deeper, hsame, hdepth]
    split
    · exact harrival.sameDepth
    · exact hsame

variable (hunique : Relator.BiUnique E)

include hunique

theorem push (harrival : arrival.Renames E arrival') :
    (agenda.push arrival).Renames E (agenda'.push arrival') := by
  have himproves := hrenames.improves_eq harrival
  constructor
  case walked =>
    rw [walked_push, walked_push]
    exact hrenames.walked
  case waiting =>
    by_cases hdeeper : agenda.improves arrival = true
    · rw [waiting_push_of_improves hdeeper, waiting_push_of_improves (himproves ▸ hdeeper)]
      exact hrenames.waiting.insert hunique harrival.entry (hrenames.joined harrival)
    · rw [(push_eq_of_not_improves hdeeper).1, (push_eq_of_not_improves (himproves ▸ hdeeper)).1]
      exact hrenames.waiting
  case order =>
    by_cases hdeeper : agenda.improves arrival = true
    · simp only [toList_order_push_of_improves hdeeper,
        toList_order_push_of_improves (himproves ▸ hdeeper),
        hrenames.waiting.mem_iff harrival.entry]
      split
      · exact hrenames.order
      · exact List.rel_append hrenames.order (.cons harrival.entry .nil)
    · rw [(push_eq_of_not_improves hdeeper).2, (push_eq_of_not_improves (himproves ▸ hdeeper)).2]
      exact hrenames.order

theorem foldl_push (hoffers : List.Forall₂ (Arrival.Renames E) offers offers') :
    (offers.foldl Agenda.push agenda).Renames E (offers'.foldl Agenda.push agenda') :=
  List.rel_foldl (fun _ _ hagenda _ _ harrival => hagenda.push hunique harrival) hrenames hoffers

/-- Both agendas give the same work first. -/
theorem pop? (hpop : agenda.pop? = some (arrival, rest))
    (hpop' : agenda'.pop? = some (arrival', rest')) :
    arrival.Renames E arrival' ∧ rest.Renames E rest' := by
  have htakes := takes_of_pop? hpop
  have htakes' := takes_of_pop? hpop'
  have horder := hrenames.order
  rw [toList_order_of_pop? hpop, toList_order_of_pop? hpop'] at horder
  obtain ⟨hentry, hrest⟩ := List.forall₂_cons.mp horder
  have hwaiting := hrenames.waiting.rel hentry
  rw [htakes.waiting, htakes'.waiting] at hwaiting
  obtain hsame | _ := hwaiting
  refine ⟨⟨hentry, hsame⟩, hrest, ?_, ?_⟩
  · rw [htakes.waiting_rest, htakes'.waiting_rest]
    exact hrenames.waiting.erase hunique hentry
  · rw [htakes.walked_rest, htakes'.walked_rest]
    exact hrenames.walked

theorem walk (harrival : arrival.Renames E arrival') :
    (agenda.walk arrival.entry arrival.nesting).Renames E
      (agenda'.walk arrival'.entry arrival'.nesting) where
  order := hrenames.order
  waiting := hrenames.waiting
  walked := hrenames.walked.insert hunique harrival.entry harrival.sameDepth

end Agenda.Renames

variable {R : String → String → Prop} {within : Int → Prop} {plan plan' : Plan}
  {seeds seeds' : List Seed} {arrival arrival' offered offered' : Arrival}

namespace Plan.Renames

variable (hrenames : plan.Renames R within seeds plan' seeds')

include hrenames

/-- Corresponding arrivals lead to corresponding ones in the same order. -/
theorem offers (harrival : arrival.Renames (Entry.Renames R within) arrival') :
    List.Forall₂ (Arrival.Renames (Entry.Renames R within)) (plan.offers arrival)
      (plan'.offers arrival') := by
  have hdepth : arrival.nesting.depth = arrival'.nesting.depth := harrival.sameDepth
  refine List.rel_filterMap (fun departure _ hdeparture => ?_)
    (hrenames.code.departures harrival.entry)
  obtain ⟨rfl, hmem⟩ := hdeparture
  have henter := hrenames.code.enter harrival.entry hmem
  cases departure with
  | skip target => exact .some ⟨henter, harrival.sameDepth⟩
  | branch kind site target =>
    have hcut : (⟨arrival.entry.routine, plan.chart.code.symbols.nameOf target⟩ : Ends) ∈ plan.cut ↔
        (⟨arrival'.entry.routine, plan'.chart.code.symbols.nameOf target⟩ : Ends) ∈ plan'.cut :=
      hrenames.mem_cut_iff ⟨harrival.entry.routine, henter.routine⟩
    simp only [lead?, Code.link?, Plan.cuts, Std.TreeSet.contains_iff_mem, Link.ends, hcut]
    split
    · exact .none
    · refine .some ⟨henter, ?_⟩
      cases kind with
      | call => exact congrArg (· + 1) hdepth
      | goto => exact harrival.sameDepth

/-- Names make no difference to how many steps a search may take. -/
theorem stepBound_eq :
    Search.stepBound (plan.chart.entries seeds).length (plan.graph seeds).entries.size seeds =
      Search.stepBound (plan'.chart.entries seeds').length (plan'.graph seeds').entries.size
        seeds' := by
  have hdepths : seeds.map (·.depth) = seeds'.map (·.depth) := by
    rw [← List.forall₂_eq_eq_eq, List.forall₂_map_left_iff, List.forall₂_map_right_iff]
    exact hrenames.renames_seeds.imp fun _ _ hseed => hseed.depth_eq
  rw [Search.stepBound, Search.stepBound, hrenames.entries.length_eq,
    hrenames.matches_graph.size_eq, hdepths]

theorem allows_iff {E : Entry → Entry → Prop} (harrival : arrival.Renames E arrival')
    (hoffered : offered.Renames E offered') :
    plan.Allows arrival offered ↔ plan'.Allows arrival' offered' := by
  have hdepth : arrival.nesting.depth = arrival'.nesting.depth := harrival.sameDepth
  have hdepth' : offered.nesting.depth = offered'.nesting.depth := hoffered.sameDepth
  rw [Allows, Allows, hdepth, hdepth', hrenames.maxDepth_eq]

end Plan.Renames

/-- Visits of one depth along one stretch, at corresponding entries. -/
structure Visit.Renames (E : Entry → Entry → Prop) (visit visit' : Visit) : Prop where
  arrival : visit.arrival.Renames E visit'.arrival
  stretch_eq : visit.stretch = visit'.stretch

namespace Analysis

variable {records records' : Std.TreeMap Int Nesting} {nesting nesting' : Nesting}
  {visits visits' : List Visit}

theorem matches_deepen (hrecords : Matches Eq Nesting.SameDepth records records')
    (hnesting : nesting.SameDepth nesting') (address : Int) :
    Matches Eq Nesting.SameDepth (deepen records nesting address)
      (deepen records' nesting' address) := by
  have hinsert := hrecords.insert biUnique_eq (rfl : address = address) hnesting
  have hfound := hrecords.rel (rfl : address = address)
  have hdepth : nesting.depth = nesting'.depth := hnesting
  unfold deepen
  generalize records[address]? = found at hfound ⊢
  generalize records'[address]? = found' at hfound ⊢
  cases hfound with
  | none => exact hinsert
  | @some found found' hsame =>
    have hsame : found.depth = found'.depth := hsame
    simp only [hsame, hdepth]
    split
    · exact hinsert
    · exact hrecords

/-- Visits of the same depths along the same stretches leave records of the same depths. -/
theorem matches_records (hvisits : List.Forall₂ (Visit.Renames E) visits visits') :
    Matches Eq Nesting.SameDepth (Analysis.records visits) (Analysis.records visits') := by
  refine List.rel_foldl (fun records records' hrecords visit visit' hvisit => ?_) .empty hvisits
  have haddresses : List.Forall₂ Eq visit.stretch.addresses visit'.stretch.addresses := by
    rw [hvisit.stretch_eq, List.forall₂_eq_eq_eq]
  refine List.rel_foldl (fun _ _ hknown address _ haddress => ?_) hrecords haddresses
  subst haddress
  exact matches_deepen hknown hvisit.arrival.sameDepth address

theorem depthAt?_eq_of_matches {found found' : Findings}
    (hrecords : Matches Eq Nesting.SameDepth found.records found'.records) (address : Int) :
    found.depthAt? address = found'.depthAt? address := by
  have hfound := hrecords.rel (rfl : address = address)
  unfold Findings.depthAt?
  generalize found.records[address]? = nesting at hfound ⊢
  generalize found'.records[address]? = nesting' at hfound ⊢
  cases hfound with
  | none => rfl
  | some hsame => exact congrArg some hsame

end Analysis

/-- Searches that have done the same work in the same order and have the same work left, at
    corresponding entries. -/
structure Search.Renames (E : Entry → Entry → Prop) (search search' : Search) : Prop where
  agenda : search.agenda.Renames E search'.agenda
  visits : List.Forall₂ (Visit.Renames E) search.visits.toList search'.visits.toList

namespace Search.Renames

variable {search search' : Search} {rest rest' : Agenda}
  (hplan : plan.Renames R within seeds plan' seeds')

include hplan

theorem start : (start seeds).Renames (Entry.Renames R within) (Search.start seeds') := by
  constructor
  case agenda =>
    have hoffers : List.Forall₂ (Arrival.Renames (Entry.Renames R within)) (seeds.map Seed.arrival)
        (seeds'.map Seed.arrival) := by
      rw [List.forall₂_map_left_iff, List.forall₂_map_right_iff]
      exact hplan.renames_seeds.imp fun _ _ hseed => ⟨hseed.entry, hseed.depth_eq⟩
    rw [agenda_start, agenda_start]
    exact Agenda.Renames.empty.foldl_push (Entry.biUnique_renames hplan.code.unique) hoffers
  case visits =>
    rw [visits_start, visits_start]
    exact .nil

variable (hrenames : search.Renames (Entry.Renames R within) search')

include hrenames

theorem followed (harrival : arrival.Renames (Entry.Renames R within) arrival')
    (hrest : rest.Renames (Entry.Renames R within) rest') :
    (search.followed plan arrival rest).Renames (Entry.Renames R within)
      (search'.followed plan' arrival' rest') := by
  have hunique : Relator.BiUnique (Entry.Renames R within) :=
    Entry.biUnique_renames hplan.code.unique
  constructor
  case agenda => exact (hrest.walk hunique harrival).foldl_push hunique (hplan.offers harrival)
  case visits =>
    have hstretch : plan.chart.code.stretch arrival.entry.start =
        plan'.chart.code.stretch arrival'.entry.start := by
      rw [hplan.code.stretch_eq, harrival.entry.start_eq]
    simp only [Search.followed, Array.toList_push]
    exact List.rel_append hrenames.visits (.cons ⟨harrival, hstretch⟩ .nil)

variable (hsound : search.Sound plan seeds) (hsound' : search'.Sound plan' seeds')

include hsound hsound'

/-- Searches take their steps together: they follow corresponding arrivals, or fail at calls of one
    depth. -/
theorem step_cases (hwaiting : search.agenda.waiting.isEmpty = false) :
    (∃ next next', search.step plan = .ok next ∧ search'.step plan' = .ok next' ∧
      next.Renames (Entry.Renames R within) next' ∧ next.Sound plan seeds ∧
      next'.Sound plan' seeds') ∨
    ∃ failure failure', search.step plan = .error failure ∧ search'.step plan' = .error failure' ∧
      failure.fault.depth = failure'.fault.depth := by
  have hwaiting' : search'.agenda.waiting.isEmpty = false := by
    rwa [← hrenames.agenda.waiting.isEmpty_eq]
  obtain ⟨arrival, rest, hpop⟩ := Agenda.exists_pop? hsound.valid.listed hwaiting
  obtain ⟨arrival', rest', hpop'⟩ := Agenda.exists_pop? hsound'.valid.listed hwaiting'
  obtain ⟨harrival, hrest⟩ :=
    hrenames.agenda.pop? (Entry.biUnique_renames hplan.code.unique) hpop hpop'
  have htakes := Agenda.takes_of_pop? hpop
  have htakes' := Agenda.takes_of_pop? hpop'
  have hoffers := hplan.offers harrival
  rw [step_eq_takeUp plan hpop, step_eq_takeUp plan' hpop']
  -- a call that one search is refused has a counterpart of its depth among the offers of the other
  obtain ⟨hnext, hallows⟩ | ⟨offered, hoffered, _, hrefused, hfault⟩ := hsound.takeUp_cases htakes
  · obtain ⟨hnext', hallows'⟩ | ⟨offered', hoffered', _, hrefused', -⟩ :=
      hsound'.takeUp_cases htakes'
    · exact Or.inl ⟨_, _, hnext, hnext', hrenames.followed hplan harrival hrest,
        hsound.followed htakes hallows, hsound'.followed htakes' hallows'⟩
    · obtain ⟨offered, hoffered, hcounterpart⟩ := exists_of_forall₂ hoffers.flip hoffered'
      exact absurd ((hplan.allows_iff harrival hcounterpart).mp (hallows offered hoffered))
        hrefused'
  · obtain ⟨hnext', hallows'⟩ | ⟨offered', hoffered', _, hrefused', hfault'⟩ :=
      hsound'.takeUp_cases htakes'
    · obtain ⟨offered', hoffered', hcounterpart⟩ := exists_of_forall₂ hoffers hoffered
      exact absurd ((hplan.allows_iff harrival hcounterpart).mpr (hallows' offered' hoffered'))
        hrefused
    · obtain ⟨_, _, -, -, rfl, -⟩ := Plan.call_of_refused hoffered hrefused
      obtain ⟨_, _, -, -, rfl, -⟩ := Plan.call_of_refused hoffered' hrefused'
      have hsame : arrival.nesting.depth = arrival'.nesting.depth := harrival.sameDepth
      refine Or.inr ⟨_, _, hfault, hfault', ?_⟩
      simp only [Plan.fault, hsame]

theorem settle_cases (fuel : Nat) :
    (∃ last last', settle plan fuel search = .ok last ∧ settle plan' fuel search' = .ok last' ∧
      last.Renames (Entry.Renames R within) last') ∨
    ∃ failure failure', settle plan fuel search = .error failure ∧
      settle plan' fuel search' = .error failure' ∧
      failure.fault.depth = failure'.fault.depth := by
  induction fuel generalizing search search' with
  | zero => exact Or.inl ⟨search, search', rfl, rfl, hrenames⟩
  | succ fuel ih =>
    have hempty := hrenames.agenda.waiting.isEmpty_eq
    cases hwaiting : search.agenda.waiting.isEmpty with
    | true =>
      rw [hwaiting] at hempty
      simp only [settle, hwaiting, ← hempty, if_true]
      exact Or.inl ⟨search, search', rfl, rfl, hrenames⟩
    | false =>
      rw [hwaiting] at hempty
      simp only [settle, hwaiting, ← hempty, Bool.false_eq_true, if_false]
      obtain ⟨next, next', hnext, hnext', hrenames, hsound, hsound'⟩ |
          ⟨failure, failure', hfault, hfault', hdepth⟩ :=
        hrenames.step_cases hplan hsound hsound' hwaiting
      · rw [hnext, hnext']
        exact ih hrenames hsound hsound'
      · rw [hfault, hfault']
        exact Or.inr ⟨failure, failure', rfl, rfl, hdepth⟩

end Search.Renames

end Midrange.Depth
