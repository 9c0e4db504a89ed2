import Mathlib.Data.List.Nodup
import Midrange.Proofs.Depth.Coverage
import Midrange.Proofs.Depth.Relabelling
import Midrange.Proofs.Symbols.Names

namespace Midrange.Depth

namespace Analysis

variable {link other : Link}

private theorem toList_recursionWarning (link : Link) : (recursionWarning link).toList =
    "Recursive ".toList ++
      ((match link.kind with | .call => "call".toList | .goto => "branch".toList) ++
        (" to ".toList ++ (link.target.toList ++ (' ' :: "from ".toList ++
          (link.source.toList ++ ", not followed".toList))))) := by
  obtain ⟨source, target, kind⟩ := link
  have hwords : recursionWarning ⟨source, target, kind⟩ = "Recursive " ++
      (match kind with | .call => "call" | .goto => "branch") ++ " to " ++ target ++
        " from " ++ source ++ ", not followed" := rfl
  rw [hwords]
  cases kind <;> simp only [String.toList_append, List.append_assoc] <;> rfl

/-- A warning tells the link on which recursion was cut, as long as no name has a space in it. -/
theorem recursionWarning_injective (hlink : ' ' ∉ link.target.toList)
    (hother : ' ' ∉ other.target.toList) (heq : recursionWarning link = recursionWarning other) :
    link = other := by
  obtain ⟨source, target, kind⟩ := link
  obtain ⟨source', target', kind'⟩ := other
  have hchars := congrArg String.toList heq
  rw [toList_recursionWarning, toList_recursionWarning, List.append_cancel_left_eq] at hchars
  obtain rfl : kind = kind' := by
    cases kind <;> cases kind'
    case call.goto | goto.call => cases hchars
    all_goals rfl
  have hnames := List.append_cancel_left (List.append_cancel_left hchars)
  obtain ⟨htarget, hbehind⟩ := Text.eq_of_append_mark hlink hother hnames
  have hsource := List.append_cancel_right (List.append_cancel_left hbehind)
  obtain rfl : source = source' := String.toList_inj.mp hsource
  obtain rfl : target = target' := String.toList_inj.mp htarget
  rfl

theorem recursionWarning_ne_unlabelledWarning (link : Link) (branch : Int × Int) :
    recursionWarning link ≠ unlabelledWarning branch := by
  intro heq
  have hhead := congrArg (fun text => text.toList.head?) heq
  simp [toList_recursionWarning, unlabelledWarning, Text.hexLiteral, toString] at hhead

end Analysis

namespace Plan

variable {plan : Plan} {arrival : Arrival} {link : Link}

/-- The links of an arrival are the branches on its stretch. -/
theorem mem_links_iff : link ∈ plan.links arrival ↔ ∃ site address,
    .branch link.kind site address ∈ (plan.chart.code.stretch arrival.entry.start).departures ∧
      arrival.entry.routine = link.source ∧
      plan.chart.code.symbols.nameOf address = link.target := by
  rw [links, List.mem_filterMap]
  constructor
  · rintro ⟨departure, hmem, hlink⟩
    cases departure with
    | skip => cases hlink
    | branch kind site address =>
      obtain rfl := Option.some.inj hlink
      exact ⟨site, address, hmem, rfl, rfl⟩
  · rintro ⟨site, address, hmem, hsource, htarget⟩
    refine ⟨_, hmem, ?_⟩
    rw [Code.link?, hsource, htarget]

end Plan

namespace Search

variable {plan : Plan} {seeds : List Seed} {turns : Nat} {search : Search} {link : Link}

theorem links_start (seeds : List Seed) : (start seeds).links = #[] := by
  have hfold (search : Search) :
      (seeds.foldl (fun search seed => search.push seed.arrival) search).links = search.links := by
    induction seeds generalizing search with
    | nil => rfl
    | cons seed rest ih => exact ih (search.push seed.arrival)
  exact hfold {}

/-- The links that a search has met are those of its visits, in order. -/
theorem Run.links_eq (hrun : Run plan seeds turns search) :
    search.links.toList = search.visits.toList.flatMap fun visit => plan.links visit.arrival := by
  induction hrun with
  | start => simp [links_start, visits_start]
  | step _ _ _ ih => simp [followed, ih]

/-- Once nothing waits, a search has met exactly the links of the graph, those on which recursion is
    cut among them, as long as no two addresses share a name. -/
theorem Run.mem_links_iff (hrun : Run plan seeds turns search)
    (hsettled : search.agenda.waiting.isEmpty = true) (hcuts : plan.CutsRecursion seeds)
    (hnames : plan.NamesSeeds seeds)
    (hinjective : Function.Injective plan.chart.code.symbols.nameOf) :
    link ∈ search.links.toList ↔ (plan.graph seeds).Has link := by
  have hsound := hrun.sound
  have hhas : (plan.graph seeds).Has link ↔ _ := Plan.has_graph_iff
  rw [hrun.links_eq, List.mem_flatMap, hhas]
  constructor
  · rintro ⟨visit, hvisit, hlink⟩
    have hentry := (hsound.visits_arrive visit hvisit).mem_entries
    exact ⟨visit.arrival.entry, hentry, Plan.mem_links_iff.mp hlink⟩
  · rintro ⟨entry, hentry, hbranch⟩
    obtain ⟨depth, harrives⟩ := Plan.exists_arrivesAt_of_mem_entries hcuts hnames hinjective hentry
    obtain ⟨visit, hvisit, rfl, -⟩ := hsound.exists_visit_of_arrivesAt hsettled harrives
    exact ⟨visit, hvisit, Plan.mem_links_iff.mpr hbranch⟩

end Search

namespace Analysis

variable {image : Image} {symbols : Symbols} {options : Options} {found : Findings} {link : Link}

/-- The graph of a survey joins routines by the branches on all stretches that control can reach. -/
theorem has_graph_survey_iff {source target : String} {kind : BranchKind} :
    let code : Code := ⟨image, symbols, options.memoryLimit⟩
    (survey image symbols options).graph.Has ⟨source, target, kind⟩ ↔ ∃ entry site address,
      code.Enters (seeds image symbols options) entry ∧
        .branch kind site address ∈ (code.stretch entry.start).departures ∧
          entry.routine = source ∧ symbols.nameOf address = target := by
  intro code
  have hgraph : (survey image symbols options).graph =
      ((survey image symbols options).plan options).graph (seeds image symbols options) := rfl
  have hmet (entry : Entry) : entry ∈ ((survey image symbols options).plan options).chart.entries
      (seeds image symbols options) ↔ code.Enters (seeds image symbols options) entry :=
    mem_entries_survey_iff
  rw [hgraph, Plan.has_graph_iff]
  simp only [hmet, stretch_plan, nameOf_plan]
  constructor
  · rintro ⟨entry, henters, site, address, hbranch⟩
    exact ⟨entry, site, address, henters, hbranch⟩
  · rintro ⟨entry, site, address, henters, hbranch⟩
    exact ⟨entry, henters, site, address, hbranch⟩

private theorem mem_recursionWarnings_iff {plan : Plan} {links : List Link} (hlink : link ∈ links)
    (hnames : ∀ link ∈ links, ' ' ∉ link.target.toList) :
    recursionWarning link ∈ recursionWarnings plan links ↔ link.ends ∈ plan.cut := by
  rw [recursionWarnings, mem_distinct, List.mem_map]
  constructor
  · rintro ⟨other, hother, heq⟩
    obtain ⟨hmem, hcut⟩ := List.mem_filter.mp hother
    obtain rfl := recursionWarning_injective (hnames other hmem) (hnames link hlink) heq
    exact Std.TreeSet.contains_iff_mem.mp hcut
  · intro hcut
    exact ⟨link, List.mem_filter.mpr ⟨hlink, Std.TreeSet.contains_iff_mem.mpr hcut⟩, rfl⟩

private theorem count_recursionWarnings {plan : Plan} {links : List Link} (hlink : link ∈ links)
    (hnames : ∀ link ∈ links, ' ' ∉ link.target.toList) :
    (recursionWarnings plan links).count (recursionWarning link) =
      if link.ends ∈ plan.cut then 1 else 0 := by
  split
  case isTrue hcut =>
    have hmem := (mem_recursionWarnings_iff hlink hnames).mpr hcut
    exact List.count_eq_one_of_mem (nodup_distinct _) hmem
  case isFalse huncut =>
    have hnot := mt (mem_recursionWarnings_iff hlink hnames).mp huncut
    exact List.count_eq_zero.mpr hnot

/-- The links that are found are complete and honest. If no two addresses share a name and all names
    are such as a hint may give, then an analysis that shows all links shows exactly those of the
    graph of the routines, which joins them by the branches on all stretches that control can reach.
    Those on which recursion is cut are among them, and it warns once of each of these, and never of
    any other. -/
theorem links_eq_graph (hinjective : Function.Injective symbols.nameOf)
    (hallowed : symbols.NamesAllowed) (hcalls : options.hideCalls = false)
    (hpairs : options.oneLinkPerPair = false)
    (hresult : (run image symbols options).result = .ok found) :
    let code : Code := ⟨image, symbols, options.memoryLimit⟩
    let graph := (survey image symbols options).graph
    (∀ link, link ∈ found.links ↔ graph.Has link) ∧
    (∀ link, graph.Has link ↔
      ∃ entry site address, code.Enters (seeds image symbols options) entry ∧
        .branch link.kind site address ∈ (code.stretch entry.start).departures ∧
        entry.routine = link.source ∧ symbols.nameOf address = link.target) ∧
    (∀ ends ∈ found.cut, ∃ kind, ⟨ends.source, ends.target, kind⟩ ∈ found.links) ∧
    ∀ link, graph.Has link →
      found.warnings.count (recursionWarning link) = if link.ends ∈ found.cut then 1 else 0 := by
  intro code graph
  obtain ⟨_, last, hturns, hsettled, rfl⟩ := exists_turns_of_run hresult
  have hplan : Function.Injective
      ((survey image symbols options).plan options).chart.code.symbols.nameOf := by
    rwa [nameOf_plan]
  have hlinks (link : Link) : link ∈ last.links.toList ↔ graph.Has link :=
    hturns.run.mem_links_iff hsettled (cutsRecursion_plan image symbols options)
      (namesSeeds_plan image symbols options) hplan
  have hnames : ∀ link ∈ last.links.toList, ' ' ∉ link.target.toList := by
    intro link hlink
    obtain ⟨_, _, address, _, _, _, hname⟩ := has_graph_survey_iff.mp ((hlinks link).mp hlink)
    rw [← hname]
    exact Symbols.space_not_mem_nameOf hallowed address
  have hshown : shownLinks options last.links.toList = last.links.toList := by
    rw [shownLinks, hcalls, hpairs]
    rfl
  rw [findings]
  simp only [hshown]
  refine ⟨hlinks, fun link => has_graph_survey_iff, fun ends hcut => ?_, fun link hhas => ?_⟩
  · obtain ⟨kind, hhas⟩ := CallGraph.exists_has_of_mem_recursion hcut
    exact ⟨kind, (hlinks _).mpr hhas⟩
  · have hnone : (survey image symbols options).labelled.2.count (recursionWarning link) = 0 := by
      rw [Survey.snd_labelled, List.count_eq_zero]
      intro hmem
      obtain ⟨branch, _, heq⟩ := List.mem_map.mp hmem
      exact recursionWarning_ne_unlabelledWarning link branch heq.symm
    rw [List.count_append, hnone, Nat.zero_add]
    exact count_recursionWarnings ((hlinks link).mpr hhas) hnames

theorem links_eq_graph_callBack : ∃ found, (run callBack .standard {}).result = .ok found ∧
    found.cut.toList = [⟨"L0002", "reset_vector"⟩] ∧
    (∀ link, link ∈ found.links ↔ (survey callBack .standard {}).graph.Has link) ∧
    found.warnings.count "Recursive call to reset_vector from L0002, not followed" = 1 := by
  obtain ⟨found, hresult, hcut, -⟩ := exists_found_callBack
  obtain ⟨hlinks, -, -, hwarns⟩ :=
    links_eq_graph Symbols.nameOf_standard_injective Symbols.namesAllowed_standard rfl rfl hresult
  have hback : (survey callBack .standard {}).graph.Has ⟨"L0002", "reset_vector", .call⟩ := by
    have hcalls : (survey callBack .standard {}).graph.calls.contains ⟨"L0002", "reset_vector"⟩ =
        true := by
      decide +kernel
    exact Std.TreeSet.contains_iff_mem.mp hcalls
  have hmem : (⟨"L0002", "reset_vector", .call⟩ : Link).ends ∈ found.cut := by
    rw [← Std.TreeSet.mem_toList, hcut]
    exact List.mem_singleton.mpr rfl
  have hcount := hwarns _ hback
  rw [if_pos hmem] at hcount
  exact ⟨found, hresult, hcut, hlinks, hcount⟩

end Analysis

end Midrange.Depth
