import Mathlib.Data.List.ProdSigma
import Midrange.Proofs.Depth.Nesting
import Midrange.Proofs.Depth.Run

namespace Midrange.Depth

namespace Search

variable {plan : Plan} {seeds : List Seed} {turns fuel limit : Nat} {search : Search}

/-- The lowest nesting of the seeds and the number of depths that arrivals can have from there
    on. -/
private def lowest (seeds : List Seed) : Int :=
  (seeds.map (·.depth)).min?.getD 0

private def levels (routines : Nat) (seeds : List Seed) : Nat :=
  ((seeds.map (·.depth)).max?.getD 0 - lowest seeds).toNat + routines

private theorem stepBound_eq (entries routines : Nat) (seeds : List Seed) :
    stepBound entries routines seeds = entries * levels routines seeds + entries + 1 := by
  simp only [stepBound, levels, lowest, Nat.mul_add, Nat.mul_one]

private theorem lowest_le {seed : Seed} (hseed : seed ∈ seeds) : lowest seeds ≤ seed.depth := by
  have hmem : seed.depth ∈ seeds.map (·.depth) := List.mem_map_of_mem hseed
  obtain ⟨least, hleast⟩ :=
    Option.ne_none_iff_exists'.mp (mt List.min?_eq_none_iff.mp (List.ne_nil_of_mem hmem))
  rw [lowest, hleast, Option.getD_some]
  exact (List.min?_eq_some_iff.mp hleast).2 _ hmem

private theorem depth_lt_levels {seed : Seed} (routines : Nat) (hseed : seed ∈ seeds) :
    seed.depth + routines ≤ lowest seeds + levels routines seeds := by
  have hmem : seed.depth ∈ seeds.map (·.depth) := List.mem_map_of_mem hseed
  obtain ⟨most, hmost⟩ :=
    Option.ne_none_iff_exists'.mp (mt List.max?_eq_none_iff.mp (List.ne_nil_of_mem hmem))
  have hle := (List.max?_eq_some_iff.mp hmost).2 _ hmem
  have hlowest := lowest_le hseed
  rw [levels, hmost, Option.getD_some]
  omega

/-- The depths that arrivals can have. -/
private def depths (routines : Nat) (seeds : List Seed) : List Int :=
  (List.range (levels routines seeds)).map fun level => lowest seeds + Int.ofNat level

private theorem mem_depths {seed : Seed} {routines : Nat} {depth : Int} (hseed : seed ∈ seeds)
    (hlower : seed.depth ≤ depth) (hupper : depth < seed.depth + routines) :
    depth ∈ depths routines seeds := by
  have hlowest := lowest_le hseed
  have hhighest := depth_lt_levels routines hseed
  refine List.mem_map.mpr ⟨(depth - lowest seeds).toNat, List.mem_range.mpr (by omega), ?_⟩
  rw [Int.ofNat_eq_natCast]
  omega

/-- The visits of a run differ in their entry or their depth, and there are only so many of
    either. -/
theorem Run.turns_lt (hcuts : plan.CutsRecursion seeds) (hrun : Run plan seeds turns search) :
    turns < stepBound (plan.chart.entries seeds).length (plan.graph seeds).entries.size seeds := by
  let place (visit : Visit) := (visit.arrival.entry, visit.arrival.nesting.depth)
  have hsound := hrun.sound
  have hnodup : (search.visits.toList.map place).Nodup := by
    rw [List.Nodup, List.pairwise_map]
    refine hsound.deepens.imp fun hdeepens heq => ?_
    have hless := hdeepens (congrArg Prod.fst heq)
    exact Int.ne_of_lt hless (congrArg Prod.snd heq)
  have hsubset : search.visits.toList.map place ⊆
      plan.chart.entries seeds ×ˢ depths (plan.graph seeds).entries.size seeds := by
    intro _ hmem
    obtain ⟨visit, hvisit, rfl⟩ := List.mem_map.mp hmem
    have harrives := hsound.visits_arrive visit hvisit
    obtain ⟨seed, hseed, hlower, hupper⟩ := harrives.depth_bounds hcuts
    exact List.mem_product.mpr ⟨harrives.mem_entries, mem_depths hseed hlower hupper⟩
  have hlength := hnodup.length_le_of_subset hsubset
  rw [List.length_map, hrun.length_visits, List.length_product, depths, List.length_map,
    List.length_range] at hlength
  rw [stepBound_eq]
  omega

/-- A number of turns of a search from seeds in the order in which work came to wait. -/
inductive Turns (plan : Plan) (seeds : List Seed) : Nat → Search → Prop where
  | start : Turns plan seeds 0 (start seeds)
  | step {turns : Nat} {search next : Search} (hturns : Turns plan seeds turns search)
      (hwaiting : search.agenda.waiting.isEmpty = false) (hstep : search.step plan = .ok next) :
      Turns plan seeds (turns + 1) next

theorem Turns.run (hturns : Turns plan seeds turns search) : Run plan seeds turns search := by
  induction hturns with
  | start => exact .start
  | step _ hwaiting hstep ih =>
    obtain ⟨arrival, rest, htakes, ⟨hnext, hallows⟩ | ⟨_, _, _, _, hfault⟩⟩ :=
      ih.sound.step_cases hwaiting
    · rw [hnext] at hstep
      obtain rfl := Except.ok.inj hstep
      exact .step ih htakes hallows
    · rw [hfault] at hstep
      cases hstep

/-- With fuel for all turns that there can be, a search takes turns until nothing waits or until one
    of them fails. -/
theorem settle_cases (hlimit : ∀ turns search, Turns plan seeds turns search → turns < limit)
    (hturns : Turns plan seeds turns search) (hfuel : limit ≤ turns + fuel) :
    (∃ turns last, Turns plan seeds turns last ∧ last.agenda.waiting.isEmpty = true ∧
      settle plan fuel search = .ok last) ∨
    ∃ turns last failure, Turns plan seeds turns last ∧ last.agenda.waiting.isEmpty = false ∧
      last.step plan = .error failure ∧ settle plan fuel search = .error failure := by
  induction fuel generalizing turns search with
  | zero =>
    have hless := hlimit turns search hturns
    omega
  | succ fuel ih =>
    rw [settle]
    cases hwaiting : search.agenda.waiting.isEmpty with
    | true => exact Or.inl ⟨turns, search, hturns, hwaiting, rfl⟩
    | false =>
      simp only [Bool.false_eq_true, if_false]
      cases hstep : search.step plan with
      | error failure => exact Or.inr ⟨turns, search, failure, hturns, hwaiting, hstep, rfl⟩
      | ok next => exact ih (.step hturns hwaiting hstep) (by omega)

/-- Work that a search is offered at some time: a seed, or something to which the arrival leads that
    is taken up then, whether or not the agenda has use for it. -/
inductive Pushed (plan : Plan) (seeds : List Seed) : Arrival → Prop where
  | seed {seed : Seed} (hseed : seed ∈ seeds) : Pushed plan seeds seed.arrival
  | offered {turns : Nat} {search : Search} {arrival offered : Arrival} {rest : Agenda}
      (hturns : Turns plan seeds turns search) (hpop : search.agenda.pop? = some (arrival, rest))
      (hoffered : offered ∈ plan.offers arrival) : Pushed plan seeds offered

theorem Pushed.arrives {arrival : Arrival} (hpushed : Pushed plan seeds arrival) :
    Arrives plan seeds arrival := by
  cases hpushed with
  | seed hseed => exact .seed hseed
  | offered hturns hpop hoffered =>
    exact (hturns.run.sound.arrives_of_takes (Agenda.takes_of_pop? hpop)).offered hoffered

end Search

namespace Analysis

open Search (Turns Pushed)

variable {image : Image} {symbols : Symbols} {options : Options}

theorem cutsRecursion_plan (image : Image) (symbols : Symbols) (options : Options) :
    ((survey image symbols options).plan options).CutsRecursion
      (survey image symbols options).seeds :=
  rfl

theorem code_survey : (survey image symbols options).chart.code =
    ⟨image, symbols.ensureLabels ((seeds image symbols options).map (·.address)),
      options.memoryLimit⟩ :=
  Chart.code_spread _ _ _

theorem code_plan (image : Image) (symbols : Symbols) (options : Options) :
    ∃ addresses, ((survey image symbols options).plan options).chart.code =
      ⟨image, symbols.ensureLabels addresses, options.memoryLimit⟩ :=
  ⟨_, code_survey⟩

theorem image_plan (image : Image) (symbols : Symbols) (options : Options) :
    ((survey image symbols options).plan options).chart.code.image = image := by
  obtain ⟨_, hcode⟩ := code_plan image symbols options
  rw [hcode]

/-- The labels that an analysis gives to the vectors do not change what it follows. -/
theorem stretch_plan (start : Int) :
    ((survey image symbols options).plan options).chart.code.stretch start =
      (⟨image, symbols, options.memoryLimit⟩ : Code).stretch start := by
  obtain ⟨addresses, hcode⟩ := code_plan image symbols options
  rw [hcode]
  exact (sameCode_ensureLabels symbols addresses).stretch_eq image options.memoryLimit start

theorem nameOf_plan :
    ((survey image symbols options).plan options).chart.code.symbols.nameOf = symbols.nameOf := by
  obtain ⟨addresses, hcode⟩ := code_plan image symbols options
  rw [hcode]
  exact nameOf_ensureLabels symbols addresses

theorem arrivesAt_plan_iff {cut : Std.TreeSet Ends} {seeds : List Seed} {entry : Entry}
    {depth : Int} :
    ((survey image symbols options).plan options).chart.code.ArrivesAt cut seeds entry depth ↔
      (⟨image, symbols, options.memoryLimit⟩ : Code).ArrivesAt cut seeds entry depth := by
  obtain ⟨addresses, hcode⟩ := code_plan image symbols options
  rw [hcode]
  exact Code.arrivesAt_congr (sameCode_ensureLabels symbols addresses)
    (nameOf_ensureLabels symbols addresses)

theorem result_of_settled {settled : Except Search.Failure Search}
    (hsettled : (survey image symbols options).settled
      ((survey image symbols options).plan options) = settled) :
    (run image symbols options).result =
      match settled with
      | .error failure => .error failure.fault
      | .ok last =>
        .ok (findings ((survey image symbols options).plan options) options
          (survey image symbols options).labelled.2 last) := by
  simp only [run, hsettled]
  cases settled <;> rfl

theorem turns_lt_stepBound {turns : Nat} {search : Search}
    (hrun : Search.Run ((survey image symbols options).plan options)
      (survey image symbols options).seeds turns search) :
    turns < Search.stepBound (survey image symbols options).entries.length
      (survey image symbols options).graph.entries.size (survey image symbols options).seeds := by
  have hentries : ((survey image symbols options).plan options).chart.entries
      (survey image symbols options).seeds = (survey image symbols options).entries := rfl
  have hgraph : ((survey image symbols options).plan options).graph
      (survey image symbols options).seeds = (survey image symbols options).graph := rfl
  have hless := hrun.turns_lt (cutsRecursion_plan image symbols options)
  rwa [hentries, hgraph] at hless

/-- A search settles by turns after which nothing waits any more. -/
theorem exists_turns_of_settled {last : Search} (hsettled : (survey image symbols options).settled
      ((survey image symbols options).plan options) = .ok last) :
    ∃ turns, Turns ((survey image symbols options).plan options)
      (survey image symbols options).seeds turns last ∧
      last.agenda.waiting.isEmpty = true := by
  obtain ⟨turns, _, hturns, hwaiting, hok⟩ | ⟨_, _, _, _, _, _, hfault⟩ :=
    Search.settle_cases (fun _ _ hturns => turns_lt_stepBound hturns.run) .start
      (Nat.le_add_left _ _)
  · obtain rfl := Except.ok.inj (hok.symm.trans hsettled)
    exact ⟨turns, hturns, hwaiting⟩
  · cases hfault.symm.trans hsettled

/-- An analysis ends when nothing waits any more, or with the fault of a turn that fails. -/
theorem run_cases (image : Image) (symbols : Symbols) (options : Options) :
    let survey := survey image symbols options
    let plan := survey.plan options
    (∃ turns last, Turns plan survey.seeds turns last ∧ last.agenda.waiting.isEmpty = true ∧
      (run image symbols options).result = .ok (findings plan options survey.labelled.2 last)) ∨
    ∃ turns last failure, Turns plan survey.seeds turns last ∧ last.agenda.waiting.isEmpty = false ∧
      last.step plan = .error failure ∧
      (run image symbols options).result = .error failure.fault := by
  intro survey plan
  obtain ⟨turns, last, hturns, hwaiting, hsettle⟩ |
      ⟨turns, last, failure, hturns, hwaiting, hstep, hsettle⟩ :=
    Search.settle_cases (fun _ _ hturns => turns_lt_stepBound hturns.run) .start
      (Nat.le_add_left _ _)
  · exact Or.inl ⟨turns, last, hturns, hwaiting, result_of_settled hsettle⟩
  · exact Or.inr ⟨turns, last, failure, hturns, hwaiting, hstep, result_of_settled hsettle⟩

/-- What an analysis finds is found by turns after which nothing waits any more. -/
theorem exists_turns_of_run {found : Findings}
    (hresult : (run image symbols options).result = .ok found) :
    let survey := survey image symbols options
    let plan := survey.plan options
    ∃ turns last, Turns plan survey.seeds turns last ∧ last.agenda.waiting.isEmpty = true ∧
      found = findings plan options survey.labelled.2 last := by
  intro survey plan
  obtain ⟨turns, last, hturns, hwaiting, hok⟩ | ⟨_, _, failure, _, _, _, herror⟩ :=
    run_cases image symbols options
  · rw [hresult] at hok
    exact ⟨turns, last, hturns, hwaiting, Except.ok.inj hok⟩
  · rw [hresult] at herror
    cases herror

/-- An analysis ends whatever the limit. Stretches end on their own. It takes fewer turns than its
    bound, until nothing waits or a call nests too deep, and with a limit above all depths that work
    can have it always succeeds. Visits from one entry only deepen, and what is taken up is deeper
    than those that were made from its entry. All work that is ever offered has an entry that was
    met beforehand, and it is not deeper than some seed by as much as there are routines. -/
theorem run_terminates (image : Image) (symbols : Symbols) (options : Options) :
    let survey := survey image symbols options
    let plan := survey.plan options
    let routines := survey.graph.entries.size
    (∀ count start, image.size ≤ count →
      plan.chart.code.follow count start (.atEntry start) false = plan.chart.code.stretch start) ∧
    (∀ turns search, Turns plan survey.seeds turns search →
      turns < Search.stepBound survey.entries.length routines survey.seeds) ∧
    ((∃ turns last, Turns plan survey.seeds turns last ∧ last.agenda.waiting.isEmpty = true ∧
      (run image symbols options).result = .ok (findings plan options survey.labelled.2 last)) ∨
    ∃ turns last failure, Turns plan survey.seeds turns last ∧ last.agenda.waiting.isEmpty = false ∧
      last.step plan = .error failure ∧ (run image symbols options).result = .error failure.fault) ∧
    ((∀ seed ∈ survey.seeds, seed.depth + routines - 1 ≤ options.maxDepth) →
      ∃ found, (run image symbols options).result = .ok found) ∧
    (∀ turns search, Turns plan survey.seeds turns search →
      search.visits.toList.Pairwise Search.Deepens ∧
      ∀ arrival rest, search.agenda.pop? = some (arrival, rest) →
        ∀ visit ∈ search.visits.toList, visit.arrival.entry = arrival.entry →
          visit.arrival.nesting.depth < arrival.nesting.depth) ∧
    ∀ arrival, Pushed plan survey.seeds arrival → arrival.entry ∈ survey.entries ∧
      ∃ seed ∈ survey.seeds, arrival.nesting.depth ≤ seed.depth + routines - 1 := by
  intro survey plan routines
  have hcuts := cutsRecursion_plan image symbols options
  have hdepth (arrival : Arrival) (harrives : Arrives plan survey.seeds arrival) :
      ∃ seed ∈ survey.seeds, arrival.nesting.depth ≤ seed.depth + routines - 1 := by
    obtain ⟨seed, hseed, -, hupper⟩ := harrives.depth_bounds hcuts
    exact ⟨seed, hseed, Int.le_sub_one_of_lt hupper⟩
  have hcases := run_cases image symbols options
  refine ⟨?_, ?_, hcases, ?_, ?_, ?_⟩
  · intro count start hcount
    obtain ⟨_, hcode⟩ := code_plan image symbols options
    refine follow_eq_stretch ?_ start
    rwa [hcode]
  · intro turns search hturns
    have hentries : plan.chart.entries survey.seeds = survey.entries := rfl
    have hgraph : plan.graph survey.seeds = survey.graph := rfl
    have hless := hturns.run.turns_lt hcuts
    rwa [hentries, hgraph] at hless
  · intro hlimit
    obtain ⟨_, last, _, _, hresult⟩ | ⟨_, last, failure, hturns, hwaiting, hstep, _⟩ := hcases
    · exact ⟨_, hresult⟩
    · have hsound := hturns.run.sound
      obtain ⟨arrival, _, htakes, ⟨hnext, -⟩ | ⟨offered, hoffered, _, hrefused, -⟩⟩ :=
        hsound.step_cases hwaiting
      · rw [hnext] at hstep
        cases hstep
      · obtain ⟨seed, hseed, hle⟩ := hdepth _ ((hsound.arrives_of_takes htakes).offered hoffered)
        exact absurd (fun _ => Int.le_trans hle (hlimit seed hseed)) hrefused
  · intro turns search hturns
    have hsound := hturns.run.sound
    refine ⟨hsound.deepens, fun arrival rest hpop => ?_⟩
    exact hsound.lt_depth_of_takes (Agenda.takes_of_pop? hpop)
  · intro arrival hpushed
    have harrives := hpushed.arrives
    exact ⟨harrives.mem_entries, hdepth _ harrives⟩

end Analysis

end Midrange.Depth
