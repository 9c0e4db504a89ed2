import Midrange.Proofs.Depth.LongestPath
import Midrange.Proofs.Symbols.Names

namespace Midrange.Depth

namespace Plan

variable {plan : Plan} {seeds : List Seed} {seed : Seed} {entry : Entry} {levels : Int}

/-- Each seed has the name that its address goes by. -/
def NamesSeeds (plan : Plan) (seeds : List Seed) : Prop :=
  ∀ seed ∈ seeds, seed.label = plan.chart.code.symbols.nameOf seed.address

/-- Each routine starts at an address that goes by its name. -/
theorem nameOf_start (hnames : plan.NamesSeeds seeds) {label : String}
    (hmem : label ∈ (plan.graph seeds).entries) :
    plan.chart.code.symbols.nameOf ((plan.graph seeds).entry label).start = label := by
  obtain ⟨address, hstart⟩ :=
    Option.isSome_iff_exists.mp (Std.TreeMap.mem_iff_isSome_getElem?.mp hmem)
  have haddress : ((plan.graph seeds).entry label).start = address := by
    rw [CallGraph.entry, Std.TreeMap.getD_eq_getD_getElem?, hstart, Option.getD_some]
  rw [haddress]
  obtain ⟨seed, hseed, rfl, rfl⟩ | ⟨entry, _, link, hbranch, rfl⟩ :=
    Chart.exists_of_getElem?_entries_callGraph hstart
  · exact (hnames seed hseed).symm
  · obtain ⟨departure, _, hlink⟩ := List.mem_filterMap.mp hbranch
    cases departure with
    | skip => cases hlink
    | branch kind site target =>
      simp only [Code.link?, Option.map_some, Option.some.injEq, Prod.mk.injEq] at hlink
      obtain ⟨rfl, rfl⟩ := hlink
      rfl

/-- Links lead from the roots to every routine that control can reach. -/
theorem reached_of_path (hseed : seed ∈ seeds)
    (hpath : plan.chart.code.Path ∅ seed.entry levels entry) :
    (plan.graph seeds).Reached (Analysis.roots seeds) entry.routine := by
  induction hpath with
  | refl => exact ⟨seed.label, Analysis.mem_roots_iff.mpr ⟨seed, hseed, rfl⟩, .refl _⟩
  | step hpath hstep ih =>
    have hentry := Chart.mem_entries_iff.mpr ⟨_, seed, hseed, _, hpath, rfl⟩
    obtain ⟨root, hroot, hreach⟩ := ih
    cases hstep with
    | skip => exact ⟨root, hroot, hreach⟩
    | goto hmem _ | call hmem _ =>
      have hhas := has_graph_iff.mpr ⟨_, hentry, _, _, hmem, rfl, rfl⟩
      exact ⟨root, hroot, hreach.tail (CallGraph.mem_outgoing.mpr hhas.joins)⟩

/-- Every entry lies in the routine that some address names, and skips lead to it from there. -/
theorem exists_home_of_path (hnames : plan.NamesSeeds seeds) (hseed : seed ∈ seeds)
    (hpath : plan.chart.code.Path ∅ seed.entry levels entry) :
    ∃ home levels, plan.chart.code.symbols.nameOf home = entry.routine ∧
      plan.chart.code.Path plan.cut ⟨home, entry.routine⟩ levels entry := by
  induction hpath with
  | refl => exact ⟨seed.address, 0, (hnames seed hseed).symm, .refl _⟩
  | step _ hstep ih =>
    cases hstep with
    | skip hmem =>
      obtain ⟨home, levels, hhome, hskips⟩ := ih
      exact ⟨home, levels + 0, hhome, hskips.step (.skip hmem)⟩
    | goto | call => exact ⟨_, 0, rfl, .refl _⟩

/-- Links that are not cut lead to every routine, so that control can still enter it. -/
private theorem exists_arrivesAt_home (hcuts : plan.CutsRecursion seeds)
    (hnames : plan.NamesSeeds seeds)
    (hinjective : Function.Injective plan.chart.code.symbols.nameOf) {home : Int}
    (hreached : (plan.graph seeds).Reached (Analysis.roots seeds)
      (plan.chart.code.symbols.nameOf home)) :
    ∃ depth, plan.chart.code.ArrivesAt plan.cut seeds
      ⟨home, plan.chart.code.symbols.nameOf home⟩ depth := by
  have hsearch := (plan.graph seeds).explores_depthFirst (Analysis.roots seeds)
  obtain ⟨root, hroot, hkept⟩ := hsearch.kept _ ((hsearch.mem_finished_iff _).mpr hreached)
  generalize hroutine : plan.chart.code.symbols.nameOf home = routine at hkept
  clear hreached
  induction hkept generalizing home with
  | refl =>
    obtain ⟨seed, hseed, rfl⟩ := Analysis.mem_roots_iff.mp hroot
    obtain rfl := hinjective (hroutine.trans (hnames seed hseed))
    exact ⟨seed.depth, seed, hseed, 0, .refl _, (Int.add_zero _).symm⟩
  | @tail source target _ hkeeps ih =>
    obtain ⟨kind, hhas⟩ := CallGraph.joins_iff.mp (CallGraph.mem_outgoing.mp hkeeps.1)
    obtain ⟨entry, hentry, site, address, hmem, rfl, hname⟩ := has_graph_iff.mp hhas
    obtain rfl := hinjective (hroutine.trans hname.symm)
    obtain ⟨_, seed, hseed, levels, hpath, -⟩ := Chart.mem_entries_iff.mp hentry
    obtain ⟨start, skips, hstart, hskips⟩ := exists_home_of_path hnames hseed hpath
    obtain ⟨depth, harrives⟩ := ih hstart
    have huncut : (⟨entry.routine, target⟩ : Ends) ∉ plan.cut := by
      rw [hcuts, CallGraph.mem_recursion_iff]
      exact fun hcut => hkeeps.2 hcut.1
    rw [← hroutine] at huncut ⊢
    have hhere := harrives.path hskips
    cases kind with
    | call => exact ⟨_, hhere.path ((Code.Path.refl _).step (.call hmem huncut))⟩
    | goto => exact ⟨_, hhere.path ((Code.Path.refl _).step (.goto hmem huncut))⟩

/-- As long as no two addresses share a name, control reaches every entry without the links on which
    recursion is cut. -/
theorem exists_arrivesAt_of_mem_entries (hcuts : plan.CutsRecursion seeds)
    (hnames : plan.NamesSeeds seeds)
    (hinjective : Function.Injective plan.chart.code.symbols.nameOf)
    (hentry : entry ∈ plan.chart.entries seeds) :
    ∃ depth, plan.chart.code.ArrivesAt plan.cut seeds entry depth := by
  obtain ⟨_, seed, hseed, levels, hpath, -⟩ := Chart.mem_entries_iff.mp hentry
  obtain ⟨home, skips, hhome, hskips⟩ := exists_home_of_path hnames hseed hpath
  have hreached := reached_of_path hseed hpath
  rw [← hhome] at hreached hskips
  obtain ⟨depth, harrives⟩ := exists_arrivesAt_home hcuts hnames hinjective hreached
  exact ⟨_, harrives.path hskips⟩

end Plan

namespace Analysis

variable {image : Image} {symbols : Symbols} {options : Options} {found : Findings}

theorem label_eq_nameOf {seed : Seed} (hseed : seed ∈ seeds image symbols options) :
    seed.label = symbols.nameOf seed.address := by
  obtain ⟨⟨address, depth⟩, _, hsome⟩ := List.mem_filterMap.mp hseed
  simp only [Option.ite_none_right_eq_some, Option.some.injEq] at hsome
  obtain ⟨-, rfl⟩ := hsome
  rfl

theorem namesSeeds_plan (image : Image) (symbols : Symbols) (options : Options) :
    ((survey image symbols options).plan options).NamesSeeds (seeds image symbols options) := by
  intro seed hseed
  rw [nameOf_plan]
  exact label_eq_nameOf hseed

/-- What an analysis meets beforehand is what control can reach when recursion is followed. -/
theorem mem_entries_survey_iff {entry : Entry} : entry ∈ (survey image symbols options).entries ↔
    (⟨image, symbols, options.memoryLimit⟩ : Code).Enters (seeds image symbols options) entry := by
  have hmet : entry ∈ (survey image symbols options).entries ↔
      ((survey image symbols options).plan options).chart.code.Enters
        (seeds image symbols options) entry :=
    Chart.mem_entries_iff
  rw [hmet]
  exact exists_congr fun _ => arrivesAt_plan_iff

private theorem exists_arrivesAt_of_enters (hinjective : Function.Injective symbols.nameOf)
    {entry : Entry}
    (henters : (⟨image, symbols, options.memoryLimit⟩ : Code).Enters
      (seeds image symbols options) entry) :
    ∃ depth, ((survey image symbols options).plan options).chart.code.ArrivesAt
      ((survey image symbols options).plan options).cut (seeds image symbols options) entry
        depth := by
  have hcuts := cutsRecursion_plan image symbols options
  have hnames := namesSeeds_plan image symbols options
  refine Plan.exists_arrivesAt_of_mem_entries hcuts hnames ?_ (mem_entries_survey_iff.mpr henters)
  rw [nameOf_plan]
  exact hinjective

/-- As long as no two addresses share a name, an analysis visits every entry that control can reach
    when recursion is followed, all of which it meets beforehand, and records exactly the addresses
    that control passes from there. -/
theorem visits_eq_entries (hinjective : Function.Injective symbols.nameOf)
    (hresult : (run image symbols options).result = .ok found) :
    let code : Code := ⟨image, symbols, options.memoryLimit⟩
    let seeds := seeds image symbols options
    (∀ entry, (∃ visit ∈ found.visits, visit.arrival.entry = entry) ↔ code.Enters seeds entry) ∧
    (∀ entry, entry ∈ (survey image symbols options).entries ↔ code.Enters seeds entry) ∧
    ∀ address, address ∈ found.records ↔
      ∃ entry, code.Enters seeds entry ∧ address ∈ (code.stretch entry.start).addresses := by
  intro code seeds
  obtain ⟨last, hsound, hsettled, -, hvisits, hrecords⟩ := exists_settled_of_run hresult
  refine ⟨fun entry => ?_, fun entry => mem_entries_survey_iff, fun address => ?_⟩
  · rw [hvisits]
    constructor
    · rintro ⟨visit, hvisit, rfl⟩
      exact mem_entries_survey_iff.mp (hsound.visits_arrive visit hvisit).mem_entries
    · intro henters
      obtain ⟨depth, harrives⟩ := exists_arrivesAt_of_enters hinjective henters
      obtain ⟨visit, hvisit, hentry, -⟩ := hsound.exists_visit_of_arrivesAt hsettled harrives
      exact ⟨visit, hvisit, hentry⟩
  · rw [hrecords, hsound.mem_records_iff hsettled address]
    constructor
    · rintro ⟨depth, entry, harrives, hpass⟩
      have henters : code.Enters seeds entry := (arrivesAt_plan_iff.mp harrives).enters
      rw [stretch_plan] at hpass
      exact ⟨entry, henters, hpass⟩
    · rintro ⟨entry, henters, hpass⟩
      obtain ⟨depth, harrives⟩ := exists_arrivesAt_of_enters hinjective henters
      rw [← stretch_plan] at hpass
      exact ⟨depth, entry, harrives, hpass⟩

theorem visits_eq_entries_callBack :
    let code : Code := ⟨callBack, .standard, Symbols.programLimit⟩
    ∃ found, (run callBack .standard {}).result = .ok found ∧
      found.cut.toList = [⟨"L0002", "reset_vector"⟩] ∧
      ∀ entry, (∃ visit ∈ found.visits, visit.arrival.entry = entry) ↔
        code.Enters (seeds callBack .standard {}) entry := by
  obtain ⟨found, hresult, hcut, -⟩ := exists_found_callBack
  exact ⟨found, hresult, hcut, (visits_eq_entries Symbols.nameOf_standard_injective hresult).1⟩

end Analysis

end Midrange.Depth
