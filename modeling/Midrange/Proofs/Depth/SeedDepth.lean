import Midrange.Proofs.Depth.Overrun

namespace Midrange.Depth

namespace Code

variable {code : Code} {cut : Std.TreeSet Ends} {seeds : List Seed} {seed : Seed} {entry : Entry}
  {calls : List String} {limit depth : Int}

/-- Behind any call control nests within the limit, unless a call overruns it: skips and gotos go on
    at the same depth. -/
theorem Trail.overruns (hseed : seed ∈ seeds) (htrail : code.Trail cut seed.entry calls entry)
    (hcalls : calls ≠ []) (hlimit : limit < seed.depth + calls.length) :
    code.Overruns cut seeds limit := by
  induction htrail with
  | refl => exact absurd rfl hcalls
  | within _ _ ih => exact ih hcalls hlimit
  | @call calls caller callee htrail hstep _ =>
    rw [List.length_cons] at hlimit
    cases hstep with
    | call hmem huncut =>
      exact ⟨caller, _, _, _, ⟨seed, hseed, _, htrail.path, rfl⟩, hmem, huncut, by omega⟩

/-- Deeper than the limit control can only arrive where a call overruns it, or at the depth of a
    seed. -/
theorem ArrivesAt.overruns_or_seed (harrives : code.ArrivesAt cut seeds entry depth)
    (hlimit : limit < depth) :
    code.Overruns cut seeds limit ∨ ∃ seed ∈ seeds, seed.depth = depth := by
  obtain ⟨seed, hseed, levels, hpath, rfl⟩ := harrives
  obtain ⟨calls, htrail, rfl⟩ := hpath.exists_trail
  by_cases hcalls : calls = []
  · exact Or.inr ⟨seed, hseed, by simp [hcalls]⟩
  · exact Or.inl (htrail.overruns hseed hcalls hlimit)

end Code

/-- Where no call overruns the limit, an arrival that is deeper nests like a seed. -/
theorem Arrives.nesting_eq_of_lt {plan : Plan} {seeds : List Seed} {arrival : Arrival}
    (harrives : Arrives plan seeds arrival)
    (hwithin : ¬ plan.chart.code.Overruns plan.cut seeds plan.maxDepth)
    (hlimit : plan.maxDepth < arrival.nesting.depth) :
    ∃ seed ∈ seeds, arrival.nesting = seed.arrival.nesting := by
  obtain ⟨seed, hseed, calls, htrail, hnesting⟩ := harrives.exists_trail
  rw [hnesting] at hlimit
  by_cases hcalls : calls = []
  · exact ⟨seed, hseed, by simp [hnesting, hcalls, Seed.arrival]⟩
  · exact absurd (htrail.overruns hseed hcalls hlimit) hwithin

namespace Analysis

/-- The limit bounds calls and not the seeds. Where an analysis succeeds, all visits are within the
    limit exactly if the seeds are. Visits and records that are deeper nest like a seed, without any
    call. An address that control can pass deeper than the limit makes an analysis fail unless a
    seed is as deep. -/
theorem within_limit_iff_seeds (image : Image) (symbols : Symbols) (options : Options) :
    let code : Code := ⟨image, symbols, options.memoryLimit⟩
    let cut := ((survey image symbols options).plan options).cut
    let seeds := seeds image symbols options
    (∀ found, (run image symbols options).result = .ok found →
      ((∀ visit ∈ found.visits, visit.arrival.nesting.depth ≤ options.maxDepth) ↔
        ∀ seed ∈ seeds, seed.depth ≤ options.maxDepth) ∧
      (∀ visit ∈ found.visits, options.maxDepth < visit.arrival.nesting.depth →
        ∃ seed ∈ seeds, visit.arrival.nesting = seed.arrival.nesting) ∧
      ∀ (address : Int) nesting, found.records[address]? = some nesting →
        options.maxDepth < nesting.depth →
        ∃ seed ∈ seeds, nesting = seed.arrival.nesting) ∧
    ∀ address, ∀ depth ∈ code.depthsAt cut seeds address, options.maxDepth < depth →
      (∃ fault, (run image symbols options).result = .error fault) ∨
      ∃ seed ∈ seeds, seed.depth = depth := by
  intro code cut seeds
  constructor
  · intro found hresult
    obtain ⟨last, hsound, hsettled, -, hvisits, hrecords⟩ := exists_settled_of_run hresult
    have hwithin := hsound.not_overruns hsettled
    rw [hvisits, hrecords]
    have hdeep : ∀ visit ∈ last.visits.toList, options.maxDepth < visit.arrival.nesting.depth →
        ∃ seed ∈ seeds, visit.arrival.nesting = seed.arrival.nesting :=
      fun visit hvisit hlimit => (hsound.visits_arrive visit hvisit).nesting_eq_of_lt hwithin hlimit
    refine ⟨⟨fun hall seed hseed => ?_, fun hall visit hvisit => ?_⟩, hdeep, ?_⟩
    · obtain ⟨visit, hvisit, -, hdepth⟩ :=
        hsound.exists_visit_of_covers hsettled (hsound.seeds_covered seed hseed)
      exact Int.le_trans hdepth (hall visit hvisit)
    · by_contra hover
      obtain ⟨seed, hseed, hnesting⟩ := hdeep visit hvisit (Int.not_le.mp hover)
      rw [hnesting] at hover
      exact hover (hall seed hseed)
    · intro address nesting hfound hlimit
      obtain ⟨visit, hvisit, -, rfl⟩ := exists_visit_of_record hfound
      exact hdeep visit hvisit hlimit
  · rintro address depth ⟨entry, harrives, -⟩ hlimit
    obtain hoverruns | hseed := harrives.overruns_or_seed hlimit
    · exact Or.inl ((exists_fault_iff image symbols options).mpr hoverruns)
    · exact Or.inr hseed

/-- A program that returns from an interrupt at once. -/
def bareInterrupt : Image where
  words := .ofList ([(0x04, 0x0009)] : List (Int × Int))

/-- With a limit of zero the interrupt vector is still found one level deep. -/
theorem depth_above_limit_of_interrupt :
    ∃ found, (run bareInterrupt .standard { maxDepth := 0 }).result = .ok found ∧
      found.depthAt? 0x04 = some 1 ∧ found.visits.map (·.arrival.nesting.depth) = [1] := by
  have hobserved : (run bareInterrupt .standard { maxDepth := 0 }).result.toOption.map
      (fun found => (found.depthAt? 0x04, found.visits.map (·.arrival.nesting.depth))) =
        some (some 1, [1]) := by decide +kernel
  obtain ⟨found, hresult, hobserved⟩ := exists_found hobserved
  exact ⟨found, hresult, Prod.mk.inj hobserved⟩

end Analysis

end Midrange.Depth
