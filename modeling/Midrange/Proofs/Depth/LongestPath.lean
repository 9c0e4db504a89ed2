import Mathlib.Order.Bounds.Basic
import Midrange.Proofs.Depth.Records
import Midrange.Proofs.Depth.Termination

namespace Midrange.Depth

/-- The depths at which control can pass an address: each is that of a seed and the levels that some
    path nests from there. -/
def Code.depthsAt (code : Code) (cut : Std.TreeSet Ends) (seeds : List Seed) (address : Int) :
    Set Int :=
  {depth | ∃ entry, code.ArrivesAt cut seeds entry depth ∧
    address ∈ (code.stretch entry.start).addresses}

namespace Search.Sound

variable {plan : Plan} {seeds : List Seed} {search : Search} {entry : Entry} {address depth : Int}
  (hsound : search.Sound plan seeds) (hsettled : search.agenda.waiting.isEmpty = true)

include hsound hsettled

/-- Once nothing waits, whatever is covered has been visited. -/
theorem exists_visit_of_covers (hcovers : search.agenda.Covers entry depth) :
    ∃ visit ∈ search.visits.toList, visit.arrival.entry = entry ∧
      depth ≤ visit.arrival.nesting.depth := by
  obtain ⟨nesting, hwaiting, -⟩ | ⟨nesting, hwalked, hdepth⟩ := hcovers
  · rw [Std.TreeMap.getElem?_of_isEmpty hsettled] at hwaiting
    cases hwaiting
  · obtain ⟨visit, hvisit, heq⟩ := hsound.visit_of_walked entry nesting hwalked
    exact ⟨visit, hvisit, by rw [heq], by rw [heq]; exact hdepth⟩

/-- Once nothing waits, every path has been followed by a visit that is at least so deep. -/
theorem exists_visit_of_arrivesAt
    (harrives : plan.chart.code.ArrivesAt plan.cut seeds entry depth) :
    ∃ visit ∈ search.visits.toList, visit.arrival.entry = entry ∧
      depth ≤ visit.arrival.nesting.depth := by
  obtain ⟨seed, hseed, levels, hpath, rfl⟩ := harrives
  induction hpath with
  | refl =>
    rw [Int.add_zero]
    exact hsound.exists_visit_of_covers hsettled (hsound.seeds_covered seed hseed)
  | step _ hstep ih =>
    obtain ⟨visit, hvisit, rfl, hdepth⟩ := ih
    obtain ⟨offered, hoffered, rfl, hlevels⟩ :=
      Plan.exists_mem_offers_of_step visit.arrival.nesting hstep
    have hcovers := hsound.offers_covered visit hvisit offered hoffered
    obtain ⟨later, hlater, hentry, hle⟩ := hsound.exists_visit_of_covers hsettled hcovers
    exact ⟨later, hlater, hentry, by omega⟩

/-- Once nothing waits, an address has a record if control can pass it. -/
theorem mem_records_iff (address : Int) : address ∈ Analysis.records search.visits.toList ↔
    (plan.chart.code.depthsAt plan.cut seeds address).Nonempty := by
  rw [Std.TreeMap.mem_iff_isSome_getElem?, Option.isSome_iff_exists]
  constructor
  · rintro ⟨found, hfound⟩
    obtain ⟨visit, hvisit, hpass, -⟩ := Analysis.exists_visit_of_record hfound
    rw [hsound.stretch_eq visit hvisit] at hpass
    exact ⟨_, _, (hsound.visits_arrive visit hvisit).arrivesAt, hpass⟩
  · rintro ⟨depth, entry, harrives, hpass⟩
    obtain ⟨visit, hvisit, rfl, -⟩ := hsound.exists_visit_of_arrivesAt hsettled harrives
    rw [← hsound.stretch_eq visit hvisit] at hpass
    obtain ⟨found, hfound, -⟩ := Analysis.recorded_of_visit hvisit hpass
    exact ⟨found, hfound⟩

/-- Once nothing waits, a record holds the greatest depth at which control can pass the address. -/
theorem isGreatest_of_record {found : Nesting}
    (hfound : (Analysis.records search.visits.toList)[address]? = some found) :
    IsGreatest (plan.chart.code.depthsAt plan.cut seeds address) found.depth := by
  obtain ⟨visit, hvisit, hpass, rfl⟩ := Analysis.exists_visit_of_record hfound
  rw [hsound.stretch_eq visit hvisit] at hpass
  refine ⟨⟨_, (hsound.visits_arrive visit hvisit).arrivesAt, hpass⟩, ?_⟩
  rintro depth ⟨entry, harrives, hpass⟩
  obtain ⟨later, hlater, rfl, hdepth⟩ := hsound.exists_visit_of_arrivesAt hsettled harrives
  rw [← hsound.stretch_eq later hlater] at hpass
  obtain ⟨more, hmore, hle⟩ := Analysis.recorded_of_visit hlater hpass
  obtain rfl := Option.some.inj (hfound.symm.trans hmore)
  exact Int.le_trans hdepth hle

end Search.Sound

namespace Analysis

variable {image : Image} {symbols : Symbols} {options : Options} {found : Findings}

/-- The findings of an analysis are those of a sound search that has nothing left to do. -/
theorem exists_settled_of_run (hresult : (run image symbols options).result = .ok found) :
    let plan := (survey image symbols options).plan options
    ∃ last : Search, last.Sound plan (seeds image symbols options) ∧
      last.agenda.waiting.isEmpty = true ∧ found.cut = plan.cut ∧
      found.visits = last.visits.toList ∧ found.records = records last.visits.toList := by
  intro plan
  obtain ⟨_, last, hturns, hwaiting, rfl⟩ := exists_turns_of_run hresult
  exact ⟨last, hturns.run.sound, hwaiting, rfl, rfl, rfl⟩

/-- The depth that is found at an address is the greatest one at which control can pass it, and none
    is found exactly where control cannot pass. -/
theorem depth_eq_longest (hresult : (run image symbols options).result = .ok found)
    (address : Int) :
    let code : Code := ⟨image, symbols, options.memoryLimit⟩
    let depths := code.depthsAt found.cut (seeds image symbols options) address
    (∀ depth, found.depthAt? address = some depth ↔ IsGreatest depths depth) ∧
      (found.depthAt? address = none ↔ depths = ∅) := by
  intro code depths
  obtain ⟨last, hsound, hsettled, hcut, -, hrecords⟩ := exists_settled_of_run hresult
  have hdepths : ((survey image symbols options).plan options).chart.code.depthsAt
      ((survey image symbols options).plan options).cut (seeds image symbols options) address =
        depths := by
    simp only [depths, code, Code.depthsAt, stretch_plan, arrivesAt_plan_iff, hcut]
  have hmem := hsound.mem_records_iff hsettled address
  rw [hdepths, ← hrecords, Std.TreeMap.mem_iff_isSome_getElem?, Option.isSome_iff_exists] at hmem
  have hgreatest (nesting : Nesting) (hfound : found.records[address]? = some nesting) :
      IsGreatest depths nesting.depth := by
    rw [← hdepths]
    exact hsound.isGreatest_of_record hsettled (hrecords ▸ hfound)
  constructor
  · intro depth
    rw [Findings.depthAt?, Option.map_eq_some_iff]
    constructor
    · rintro ⟨nesting, hfound, rfl⟩
      exact hgreatest nesting hfound
    · intro hdepth
      obtain ⟨nesting, hfound⟩ := hmem.mpr hdepth.nonempty
      exact ⟨nesting, hfound, (hgreatest nesting hfound).unique hdepth⟩
  · rw [Findings.depthAt?, Option.map_eq_none_iff, Option.eq_none_iff_forall_ne_some,
      ← Set.not_nonempty_iff_eq_empty, ← hmem, not_exists]

/-- An analysis succeeds where something that its findings show can be told. -/
theorem exists_found {α : Type} {outcome : Outcome} {observe : Findings → α} {observed : α}
    (hobserved : outcome.result.toOption.map observe = some observed) :
    ∃ found, outcome.result = .ok found ∧ observe found = observed := by
  cases hresult : outcome.result with
  | error fault =>
    rw [hresult] at hobserved
    cases hobserved
  | ok found =>
    rw [hresult] at hobserved
    exact ⟨found, rfl, Option.some.inj hobserved⟩

/-- A program whose second routine calls the first one back. -/
def callBack : Image where
  words := .ofList ([(0, 0x2002), (1, 0x2801), (2, 0x2000), (3, 0x0008)] : List (Int × Int))

theorem exists_found_callBack : ∃ found, (run callBack .standard {}).result = .ok found ∧
    found.cut.toList = [⟨"L0002", "reset_vector"⟩] ∧ found.depthAt? 3 = some 1 ∧
    found.depthAt? 4 = none := by
  have hobserved : (run callBack .standard {}).result.toOption.map
      (fun found => (found.cut.toList, found.depthAt? 3, found.depthAt? 4)) =
        some ([⟨"L0002", "reset_vector"⟩], some 1, none) := by decide +kernel
  obtain ⟨found, hresult, hobserved⟩ := exists_found hobserved
  obtain ⟨hcut, hdepths⟩ := Prod.mk.inj hobserved
  obtain ⟨hthird, hfourth⟩ := Prod.mk.inj hdepths
  exact ⟨found, hresult, hcut, hthird, hfourth⟩

theorem depth_eq_longest_callBack :
    let code : Code := ⟨callBack, .standard, Symbols.programLimit⟩
    ∃ found, (run callBack .standard {}).result = .ok found ∧
      IsGreatest (code.depthsAt found.cut (seeds callBack .standard {}) 3) 1 ∧
      code.depthsAt found.cut (seeds callBack .standard {}) 4 = ∅ := by
  obtain ⟨found, hresult, -, hthird, hfourth⟩ := exists_found_callBack
  refine ⟨found, hresult, ?_, ?_⟩
  · exact ((depth_eq_longest hresult 3).1 1).mp hthird
  · exact (depth_eq_longest hresult 4).2.mp hfourth

end Analysis

end Midrange.Depth
