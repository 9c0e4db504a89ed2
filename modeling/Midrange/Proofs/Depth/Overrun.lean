import Midrange.Proofs.Depth.Limit

namespace Midrange.Depth

namespace Code

/-- Steps from an entry to another one, with the routines that they call, the last one first. -/
inductive Trail (code : Code) (cut : Std.TreeSet Ends) (first : Entry) :
    List String → Entry → Prop where
  | refl : Trail code cut first [] first
  | within {calls : List String} {second third : Entry} (htrail : Trail code cut first calls second)
      (hstep : Step code cut second 0 third) : Trail code cut first calls third
  | call {calls : List String} {second third : Entry} (htrail : Trail code cut first calls second)
      (hstep : Step code cut second 1 third) : Trail code cut first (third.routine :: calls) third

variable {code : Code} {image : Image} {left right : Symbols} {limit : Int} {cut : Std.TreeSet Ends}
  {first second : Entry} {calls : List String}

/-- A path nests as many levels as it has calls. -/
theorem Trail.path (htrail : code.Trail cut first calls second) :
    code.Path cut first calls.length second := by
  induction htrail with
  | refl => exact .refl _
  | within _ hstep ih =>
    have hpath := ih.step hstep
    rwa [Int.add_zero] at hpath
  | call _ hstep ih => exact ih.step hstep

theorem Path.exists_trail {levels : Int} (hpath : code.Path cut first levels second) :
    ∃ calls, code.Trail cut first calls second ∧ levels = calls.length := by
  induction hpath with
  | refl => exact ⟨[], .refl, rfl⟩
  | step _ hstep ih =>
    obtain ⟨calls, htrail, rfl⟩ := ih
    cases hstep with
    | skip hmem => exact ⟨calls, htrail.within (.skip hmem), Int.add_zero _⟩
    | goto hmem huncut => exact ⟨calls, htrail.within (.goto hmem huncut), Int.add_zero _⟩
    | call hmem huncut => exact ⟨_, htrail.call (.call hmem huncut), rfl⟩

theorem Trail.congr (hsame : SameCode left right) (hname : left.nameOf = right.nameOf)
    (htrail : Trail ⟨image, left, limit⟩ cut first calls second) :
    Trail ⟨image, right, limit⟩ cut first calls second := by
  induction htrail with
  | refl => exact .refl
  | within _ hstep ih => exact ih.within (hstep.congr hsame hname)
  | call _ hstep ih => exact ih.call (hstep.congr hsame hname)

end Code

/-- A fault tells of a path from a seed that ends in a call: where the call leads, how many calls
    are made on the way, on top of the nesting of the seed, and that these are too many. -/
def TooDeep.Reports (fault : TooDeep) (code : Code) (cut : Std.TreeSet Ends)
    (seeds : List Seed) : Prop :=
  ∃ seed ∈ seeds, ∃ calls caller callee, code.Trail cut seed.entry calls caller ∧
    code.Step cut caller 1 callee ∧ fault.address = callee.start ∧
    fault.depth = seed.depth + calls.length + 1 ∧
    fault.chain = seed.label :: (callee.routine :: calls).reverse ∧ fault.limit < fault.depth

/-- Where a fault can be told of, some call overruns the limit. -/
theorem TooDeep.Reports.overruns {fault : TooDeep} {code : Code} {cut : Std.TreeSet Ends}
    {seeds : List Seed} (hreports : fault.Reports code cut seeds) :
    code.Overruns cut seeds fault.limit := by
  obtain ⟨seed, hseed, calls, caller, callee, htrail, hstep, -, hdepth, -, hlimit⟩ := hreports
  rw [hdepth] at hlimit
  cases hstep with
  | call hmem huncut =>
    exact ⟨caller, _, _, _, ⟨seed, hseed, _, htrail.path, rfl⟩, hmem, huncut, hlimit⟩

namespace Arrives

variable {plan : Plan} {seeds : List Seed} {arrival offered : Arrival}

/-- An arrival tells the calls of a path to it. -/
theorem exists_trail (harrives : Arrives plan seeds arrival) : ∃ seed ∈ seeds, ∃ calls,
    plan.chart.code.Trail plan.cut seed.entry calls arrival.entry ∧
      arrival.nesting = ⟨seed.depth + calls.length, calls ++ [seed.label]⟩ := by
  induction harrives with
  | @seed seed hseed => exact ⟨seed, hseed, [], .refl, by simp [Seed.arrival]⟩
  | @offered arrival offered harrives hoffered ih =>
    obtain ⟨seed, hseed, calls, htrail, hnesting⟩ := ih
    refine ⟨seed, hseed, ?_⟩
    obtain ⟨target, hmem, rfl⟩ | ⟨kind, site, target, hmem, huncut, rfl⟩ :=
      Plan.mem_offers_iff.mp hoffered
    · exact ⟨calls, htrail.within (.skip hmem), hnesting⟩
    · cases kind with
      | goto => exact ⟨calls, htrail.within (.goto hmem huncut), hnesting⟩
      | call =>
        refine ⟨_, htrail.call (.call hmem huncut), ?_⟩
        simp only [Search.nestingBehind, hnesting, List.length_cons, List.cons_append,
          Nesting.mk.injEq, and_true]
        omega

/-- The fault of a call that is refused tells of a path to it. -/
theorem reports_of_refused (harrives : Arrives plan seeds arrival)
    (hoffered : offered ∈ plan.offers arrival) (hrefused : ¬ plan.Allows arrival offered) :
    (plan.fault offered).Reports plan.chart.code plan.cut seeds := by
  obtain ⟨seed, hseed, calls, htrail, hnesting⟩ := harrives.exists_trail
  obtain ⟨site, target, hmem, huncut, rfl, hlimit⟩ := Plan.call_of_refused hoffered hrefused
  refine ⟨seed, hseed, calls, _, _, htrail, .call hmem huncut, rfl, ?_, ?_, hlimit⟩
  · simp [Plan.fault, hnesting]
  · simp [Plan.fault, Nesting.chain, hnesting]

end Arrives

namespace Search

variable {plan : Plan} {search next last : Search} {arrival : Arrival} {rest : Agenda} {limit : Int}
  {fuel : Nat} (hlimit : plan.maxDepth ≤ limit)

include hlimit

/-- A turn that does not fail is the same under a higher limit. -/
theorem takeUp_eq_of_le (htaken : search.takeUp plan arrival rest = .ok next) :
    search.takeUp { plan with maxDepth := limit } arrival rest = .ok next := by
  by_cases himproves : rest.improves arrival = true
  · obtain ⟨hfollowed, hallows⟩ | ⟨_, _, _, _, hfault⟩ := takeUp_cases plan search himproves
    · obtain rfl := Except.ok.inj (htaken.symm.trans hfollowed)
      obtain ⟨hfollowed', -⟩ | ⟨offered, hoffered, _, hrefused, -⟩ :=
        takeUp_cases { plan with maxDepth := limit } search himproves
      · exact hfollowed'
      · exact absurd (fun hdeeper => Int.le_trans (hallows offered hoffered hdeeper) hlimit)
          hrefused
    · rw [hfault] at htaken
      cases htaken
  · simpa [takeUp, himproves] using htaken

theorem step_eq_of_le (hstep : search.step plan = .ok next) :
    search.step { plan with maxDepth := limit } = .ok next := by
  cases hpop : search.agenda.pop? with
  | none => simpa only [step, hpop] using hstep
  | some popped =>
    obtain ⟨arrival, rest⟩ := popped
    rw [step_eq_takeUp _ hpop] at hstep ⊢
    exact takeUp_eq_of_le hlimit hstep

/-- A search that does not fail takes the same turns under a higher limit. -/
theorem settle_eq_of_le (hsettled : settle plan fuel search = .ok last) :
    settle { plan with maxDepth := limit } fuel search = .ok last := by
  induction fuel generalizing search with
  | zero => exact hsettled
  | succ fuel ih =>
    rw [settle] at hsettled ⊢
    split
    · rename_i hwaiting
      rwa [if_pos hwaiting] at hsettled
    · rename_i hwaiting
      rw [if_neg hwaiting] at hsettled
      cases hstep : search.step plan with
      | error failure =>
        rw [hstep] at hsettled
        cases hsettled
      | ok next =>
        rw [hstep] at hsettled
        rw [step_eq_of_le hlimit hstep]
        exact ih hsettled

end Search

namespace Analysis

variable {image : Image} {symbols : Symbols} {options : Options}

theorem reports_of_reports_plan {fault : TooDeep} {cut : Std.TreeSet Ends} {seeds : List Seed}
    (hreports : fault.Reports ((survey image symbols options).plan options).chart.code cut seeds) :
    fault.Reports ⟨image, symbols, options.memoryLimit⟩ cut seeds := by
  obtain ⟨addresses, hcode⟩ := code_plan image symbols options
  have hsame := sameCode_ensureLabels symbols addresses
  have hname := nameOf_ensureLabels symbols addresses
  rw [hcode] at hreports
  obtain ⟨seed, hseed, calls, caller, callee, htrail, hstep, hfault⟩ := hreports
  exact ⟨seed, hseed, calls, caller, callee, htrail.congr hsame hname,
    hstep.congr hsame hname, hfault⟩

private theorem reports_of_fault {fault : TooDeep}
    (herror : (run image symbols options).result = .error fault) :
    fault.limit = options.maxDepth ∧ fault.Reports ⟨image, symbols, options.memoryLimit⟩
      ((survey image symbols options).plan options).cut (seeds image symbols options) := by
  obtain ⟨arrival, harrives, offered, hoffered, hrefused, rfl⟩ := exists_refused_of_fault herror
  exact ⟨rfl, reports_of_reports_plan (harrives.reports_of_refused hoffered hrefused)⟩

/-- The limit shows in nothing but the calls that are refused. -/
private theorem run_eq_of_le {limit : Int} {found : Findings} (hlimit : options.maxDepth ≤ limit)
    (hresult : (run image symbols options).result = .ok found) :
    run image symbols { options with maxDepth := limit } = run image symbols options := by
  have hsurvey : survey image symbols { options with maxDepth := limit } =
      survey image symbols options := rfl
  cases hsettled : (survey image symbols options).settled
    ((survey image symbols options).plan options) with
  | error failure =>
    rw [result_of_settled hsettled] at hresult
    cases hresult
  | ok last =>
    have hsettled' : (survey image symbols options).settled
        ((survey image symbols options).plan { options with maxDepth := limit }) = .ok last := by
      have hmaxDepth : ((survey image symbols options).plan options).maxDepth ≤ limit := hlimit
      exact Search.settle_eq_of_le hmaxDepth hsettled
    simp only [run, hsurvey, hsettled, hsettled']
    rfl

/-- An analysis fails exactly where a path ends in a call that nests deeper than the limit, and it
    then tells of such a path. Where it does not fail, a higher limit changes nothing at all. -/
theorem limit_exact (image : Image) (symbols : Symbols) (options : Options) :
    let code : Code := ⟨image, symbols, options.memoryLimit⟩
    let cut := ((survey image symbols options).plan options).cut
    let seeds := seeds image symbols options
    ((∃ fault, (run image symbols options).result = .error fault) ↔
      ∃ fault : TooDeep, fault.limit = options.maxDepth ∧ fault.Reports code cut seeds) ∧
    (∀ fault, (run image symbols options).result = .error fault →
      fault.limit = options.maxDepth ∧ fault.Reports code cut seeds) ∧
    ∀ found limit, (run image symbols options).result = .ok found → options.maxDepth ≤ limit →
      run image symbols { options with maxDepth := limit } = run image symbols options := by
  intro code cut seeds
  refine ⟨⟨?_, ?_⟩, fun _ herror => reports_of_fault herror, fun _ _ hresult hlimit => ?_⟩
  · rintro ⟨fault, herror⟩
    exact ⟨fault, reports_of_fault herror⟩
  · rintro ⟨fault, hlimit, hreports⟩
    have hoverruns := hreports.overruns
    rw [hlimit] at hoverruns
    exact (exists_fault_iff image symbols options).mpr hoverruns
  · exact run_eq_of_le hlimit hresult

end Analysis

end Midrange.Depth
