import Midrange.Depth.Analysis
import Midrange.Proofs.Depth.Routines
import Midrange.Proofs.Depth.Run

namespace Midrange.Depth

/-- Code that control follows in the same way wherever it can come from some seeds, with addresses
    that go by the same names. Which of the names are recorded may differ, and so may all at which
    control never looks. -/
structure Code.AlikeFrom (code : Code) (seeds : List Seed) (code' : Code) : Prop where
  nameOf_eq : code.symbols.nameOf = code'.symbols.nameOf
  stretch_eq : ∀ start, code.Starts seeds start → code.stretch start = code'.stretch start

theorem SameCode.alikeFrom {left right : Symbols} (hsame : SameCode left right)
    (hname : left.nameOf = right.nameOf) (image : Image) (limit : Int) (seeds : List Seed) :
    Code.AlikeFrom ⟨image, left, limit⟩ seeds ⟨image, right, limit⟩ :=
  ⟨hname, fun start _ => hsame.stretch_eq image limit start⟩

namespace Code.AlikeFrom

variable {code code' : Code} {seeds : List Seed} (halike : code.AlikeFrom seeds code')

include halike

theorem enter_eq (routine : String) (departure : Departure) :
    code.enter routine departure = code'.enter routine departure := by
  cases departure with
  | skip target => rfl
  | branch kind site target => simp only [Code.enter, halike.nameOf_eq]

theorem link?_eq (routine : String) (departure : Departure) :
    code.link? routine departure = code'.link? routine departure := by
  cases departure with
  | skip target => rfl
  | branch kind site target => simp only [Code.link?, halike.nameOf_eq]

end Code.AlikeFrom

namespace Chart

variable {chart chart' : Chart} {seeds : List Seed} {entry : Entry}
  (halike : chart.code.AlikeFrom seeds chart'.code)

include halike

private theorem stretch_eq_of_enters (henters : chart.code.Enters seeds entry) :
    chart.stretch entry.start = chart'.stretch entry.start := by
  rw [stretch_eq, stretch_eq, halike.stretch_eq entry.start ⟨entry.routine, henters⟩]

private theorem stretch_eq_of_mem_entries (hentry : entry ∈ chart.entries seeds) :
    chart.stretch entry.start = chart'.stretch entry.start :=
  stretch_eq_of_enters halike (mem_entries_iff.mp hentry)

/-- Both charts meet the same entries in the same order, however many words lie elsewhere. -/
theorem entries_eq_of_alikeFrom : chart.entries seeds = chart'.entries seeds := by
  let fuel := max (chart.entryBound seeds) (chart'.entryBound seeds)
  have hnext : ∀ start ∈ seeds.map Seed.entry, ∀ member,
      Graph.Reaches chart.successors start member →
      chart.successors member = chart'.successors member := by
    intro start hstart member hreach
    obtain ⟨seed, hseed, rfl⟩ := List.mem_map.mp hstart
    obtain ⟨levels, hpath⟩ := reaches_successors_iff.mp hreach
    have henters : chart.code.Enters seeds member := ⟨_, seed, hseed, levels, hpath, rfl⟩
    simp only [successors, stretch_eq_of_enters halike henters]
    exact List.map_congr_left fun departure _ => halike.enter_eq member.routine departure
  calc chart.entries seeds
      = Graph.reach chart.successors fuel (seeds.map Seed.entry) :=
        (reach_eq_entries (le_max_left _ _)).symm
    _ = Graph.reach chart'.successors fuel (seeds.map Seed.entry) := Graph.reach_congr hnext
    _ = chart'.entries seeds := reach_eq_entries (le_max_right _ _)

theorem branches_eq_of_alikeFrom :
    chart.branches (chart.entries seeds) = chart'.branches (chart.entries seeds) := by
  refine List.flatMap_congr fun start hstart => ?_
  obtain ⟨entry, hentry, rfl⟩ := List.mem_map.mp (mem_distinct.mp hstart)
  rw [stretch_eq_of_mem_entries halike hentry]

theorem callGraph_eq_of_alikeFrom :
    chart.callGraph seeds (chart.entries seeds) = chart'.callGraph seeds (chart.entries seeds) := by
  have hbranches : (chart.entries seeds).flatMap chart.branchesOf =
      (chart.entries seeds).flatMap chart'.branchesOf := by
    refine List.flatMap_congr fun entry hentry => ?_
    have hstretch := stretch_eq_of_mem_entries halike hentry
    rw [stretch_eq, stretch_eq] at hstretch
    simp only [branchesOf, hstretch, halike.link?_eq]
  rw [callGraph_eq_foldl, callGraph_eq_foldl, hbranches]

end Chart

/-- Plans that cut the same links and allow the same depth, and follow alike code wherever control
    can come from some seeds. -/
structure Plan.AlikeFrom (plan : Plan) (seeds : List Seed) (plan' : Plan) : Prop where
  code : plan.chart.code.AlikeFrom seeds plan'.chart.code
  cut_eq : plan.cut = plan'.cut
  maxDepth_eq : plan.maxDepth = plan'.maxDepth

namespace Plan.AlikeFrom

variable {plan plan' : Plan} {seeds : List Seed} {search : Search} {arrival : Arrival}
  (halike : plan.AlikeFrom seeds plan')

include halike

theorem cuts_eq : plan.cuts = plan'.cuts := by
  funext link
  rw [Plan.cuts, Plan.cuts, halike.cut_eq]

theorem visit_eq (harrives : Arrives plan seeds arrival) :
    search.visit plan arrival = search.visit plan' arrival := by
  have hdepart : Search.depart plan arrival = Search.depart plan' arrival := by
    funext search departure
    simp only [Search.depart, halike.code.enter_eq, halike.code.link?_eq, halike.cuts_eq,
      halike.maxDepth_eq]
  simp only [Search.visit, Chart.stretch_eq_of_enters halike.code harrives.arrivesAt.enters,
    hdepart]

theorem step_eq (hsound : search.Sound plan seeds) : search.step plan = search.step plan' := by
  simp only [Search.step]
  split
  · rfl
  · rename_i arrival rest hpop
    have harrives := hsound.arrives_of_takes (Agenda.takes_of_pop? hpop)
    rw [halike.visit_eq harrives]

/-- A search never gets to where the plans differ. -/
theorem settle_eq (hsound : search.Sound plan seeds) (fuel : Nat) :
    search.settle plan fuel = search.settle plan' fuel := by
  induction fuel generalizing search with
  | zero => rfl
  | succ fuel ih =>
    rw [Search.settle, Search.settle, ← halike.step_eq hsound]
    cases hwaiting : search.agenda.waiting.isEmpty with
    | true => simp only [if_true]
    | false =>
      obtain ⟨arrival, rest, htakes, ⟨hnext, hallows⟩ | ⟨_, _, _, _, hfault⟩⟩ :=
        hsound.step_cases hwaiting
      · simp only [hnext, ih (hsound.followed htakes hallows)]
      · simp only [hfault]

theorem recursionWarnings_eq (links : List Link) :
    Analysis.recursionWarnings plan links = Analysis.recursionWarnings plan' links := by
  rw [Analysis.recursionWarnings, Analysis.recursionWarnings, halike.cuts_eq]

end Plan.AlikeFrom

namespace Analysis

/-- Surveys of alike code that meet the same. -/
structure Survey.Alike (survey survey' : Survey) : Prop where
  seeds_eq : survey.seeds = survey'.seeds
  code : survey.chart.code.AlikeFrom survey.seeds survey'.chart.code
  entries_eq : survey.entries = survey'.entries
  graph_eq : survey.graph = survey'.graph
  branches_eq : survey.chart.branches survey.entries = survey'.chart.branches survey'.entries

/-- Surveys of alike code from the same seeds meet the same. -/
theorem alike_of_alikeFrom {image image' : Image} {symbols symbols' : Symbols}
    {options options' : Options}
    (hseeds : seeds image symbols options = seeds image' symbols' options')
    (hcode : (survey image symbols options).chart.code.AlikeFrom (seeds image symbols options)
      (survey image' symbols' options').chart.code) :
    (survey image symbols options).Alike (survey image' symbols' options') := by
  have hentries : (survey image symbols options).entries =
      (survey image' symbols' options').entries :=
    (Chart.entries_eq_of_alikeFrom hcode).trans (congrArg _ hseeds)
  have hgraph : (survey image symbols options).graph = _ := Chart.callGraph_eq_of_alikeFrom hcode
  have hbranches : (survey image symbols options).chart.branches
      (survey image symbols options).entries = _ :=
    Chart.branches_eq_of_alikeFrom hcode
  exact ⟨hseeds, hcode, hentries, hgraph.trans (congrArg₂ _ hseeds hentries),
    hbranches.trans (congrArg _ hentries)⟩

namespace Survey.Alike

variable {survey survey' : Survey} (halike : survey.Alike survey')

include halike

theorem plan (options : Options) :
    (survey.plan options).AlikeFrom survey.seeds (survey'.plan options) where
  code := halike.code
  cut_eq := by simp only [Survey.plan, halike.graph_eq, halike.seeds_eq]
  maxDepth_eq := rfl

theorem settled_eq (options : Options) :
    survey.settled (survey.plan options) = survey'.settled (survey'.plan options) := by
  have hsettle :=
    (halike.plan options).settle_eq (Search.sound_start (survey.plan options) survey.seeds)
  simp only [Survey.settled, ← halike.graph_eq, ← halike.seeds_eq, ← halike.entries_eq]
  exact hsettle _

end Survey.Alike

end Analysis

end Midrange.Depth
