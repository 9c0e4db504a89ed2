import Midrange.Proofs.Depth.Survey
import Midrange.Proofs.Graph.Recursion

namespace Midrange

namespace CallGraph

variable {graph : CallGraph} {link other : Link} {address : Int} {label : String}

private theorem has_addLink : (graph.addLink link).Has other ↔ graph.Has other ∨ other = link := by
  obtain ⟨source, target, kind⟩ := link
  obtain ⟨source', target', kind'⟩ := other
  have hends : (⟨source', target'⟩ : Ends) = ⟨source, target⟩ ↔
      source' = source ∧ target' = target := by
    simp
  cases kind with
  | call =>
    cases kind' with
    | call =>
      simp only [addLink, Has, Link.ends, mem_insert_iff, hends, Link.mk.injEq, and_true, or_comm]
    | goto => simp [addLink, Has, Link.ends]
  | goto =>
    cases kind' with
    | call => simp [addLink, Has, Link.ends]
    | goto =>
      simp only [addLink, Has, Link.ends, mem_insert_iff, hends, Link.mk.injEq, and_true, or_comm]

theorem has_addBranch : (graph.addBranch link address).Has other ↔ graph.Has other ∨ other = link :=
  has_addLink

theorem entries_addBranch : (graph.addBranch link address).entries =
    graph.entries.insertIfNew link.target address := by
  unfold addBranch addLink
  cases link.kind <;> rfl

end CallGraph

namespace Depth.Chart

variable {chart : Chart} {seeds : List Seed} {entries : List Entry} {link : Link} {label : String}

/-- The links that the stretch of an entry makes, each with the address where its target starts. -/
def branchesOf (chart : Chart) (entry : Entry) : List (Link × Int) :=
  (chart.code.stretch entry.start).departures.filterMap fun departure =>
    (chart.code.link? entry.routine departure).map (·, departure.target)

theorem callGraph_eq_foldl (chart : Chart) (seeds : List Seed) (entries : List Entry) :
    chart.callGraph seeds entries =
      (entries.flatMap chart.branchesOf).foldl
        (fun graph branch => graph.addBranch branch.1 branch.2)
        { entries := seeds.foldl (fun found seed => found.insert seed.label seed.address) ∅ } := by
  simp only [callGraph, List.foldl_flatMap, branchesOf, List.foldl_filterMap, stretch_eq]
  congr 1
  funext graph entry
  congr 1
  funext graph departure
  cases chart.code.link? entry.routine departure <;> rfl

theorem has_callGraph_iff : (chart.callGraph seeds entries).Has link ↔
    ∃ entry ∈ entries, ∃ address, (link, address) ∈ chart.branchesOf entry := by
  suffices hfold : ∀ (branches : List (Link × Int)) (graph : CallGraph),
      (branches.foldl (fun graph branch => graph.addBranch branch.1 branch.2) graph).Has link ↔
        graph.Has link ∨ ∃ address, (link, address) ∈ branches by
    have hseeded : ¬ (({
        entries := seeds.foldl (fun found seed => found.insert seed.label seed.address) ∅
      } : CallGraph).Has link) := by
      unfold CallGraph.Has
      cases link.kind <;> exact Std.TreeSet.not_mem_emptyc
    rw [callGraph_eq_foldl, hfold]
    simp only [hseeded, false_or, List.mem_flatMap]
    tauto
  intro branches
  induction branches with
  | nil => simp
  | cons head rest ih =>
    intro graph
    rw [List.foldl_cons, ih, CallGraph.has_addBranch]
    obtain ⟨first, address⟩ := head
    simp [or_assoc, exists_or]

/-- A routine starts at its seed, or else where the first branch to it leads. -/
theorem entries_callGraph (chart : Chart) (seeds : List Seed) (entries : List Entry) :
    (chart.callGraph seeds entries).entries =
      (entries.flatMap chart.branchesOf).foldl
        (fun found branch => found.insertIfNew branch.1.target branch.2)
        (seeds.foldl (fun found seed => found.insert seed.label seed.address) ∅) := by
  have hfold (branches : List (Link × Int)) (graph : CallGraph) :
      (branches.foldl (fun graph branch => graph.addBranch branch.1 branch.2) graph).entries =
        branches.foldl (fun found branch => found.insertIfNew branch.1.target branch.2)
          graph.entries := by
    induction branches generalizing graph with
    | nil => rfl
    | cons head rest ih => rw [List.foldl_cons, ih, CallGraph.entries_addBranch, List.foldl_cons]
  rw [callGraph_eq_foldl, hfold]

/-- The routines of a graph are those of the seeds and those that some link leads to. -/
theorem mem_entries_callGraph_iff : label ∈ (chart.callGraph seeds entries).entries ↔
    (∃ seed ∈ seeds, seed.label = label) ∨
      ∃ entry ∈ entries, ∃ branch ∈ chart.branchesOf entry, branch.1.target = label := by
  have hbranches (branches : List (Link × Int)) (found : Std.TreeMap String Int) :
      label ∈ branches.foldl
          (fun found branch => found.insertIfNew branch.1.target branch.2) found ↔
        label ∈ found ∨ ∃ branch ∈ branches, branch.1.target = label := by
    induction branches generalizing found with
    | nil => simp
    | cons head rest ih =>
      rw [List.foldl_cons, ih, Std.TreeMap.mem_insertIfNew, Std.compare_eq_iff_eq]
      simp [or_assoc, or_left_comm]
  have hseeds (seeds : List Seed) (found : Std.TreeMap String Int) :
      label ∈ seeds.foldl (fun found seed => found.insert seed.label seed.address) found ↔
        label ∈ found ∨ ∃ seed ∈ seeds, seed.label = label := by
    induction seeds generalizing found with
    | nil => simp
    | cons head rest ih =>
      rw [List.foldl_cons, ih, Std.TreeMap.mem_insert, Std.compare_eq_iff_eq]
      simp [or_assoc, or_left_comm]
  rw [entries_callGraph, hbranches, hseeds]
  simp only [Std.TreeMap.not_mem_emptyc, false_or, List.mem_flatMap]
  constructor
  · rintro (hseed | ⟨branch, ⟨entry, hentry, hbranch⟩, hlabel⟩)
    · exact Or.inl hseed
    · exact Or.inr ⟨entry, hentry, branch, hbranch, hlabel⟩
  · rintro (hseed | ⟨entry, hentry, branch, hbranch, hlabel⟩)
    · exact Or.inl hseed
    · exact Or.inr ⟨branch, ⟨entry, hentry, hbranch⟩, hlabel⟩

/-- Where a routine starts there is a seed of its name, or a link to it leads there. -/
theorem exists_of_getElem?_entries_callGraph {address : Int}
    (hstart : (chart.callGraph seeds entries).entries[label]? = some address) :
    (∃ seed ∈ seeds, seed.label = label ∧ seed.address = address) ∨
      ∃ entry ∈ entries, ∃ link, (link, address) ∈ chart.branchesOf entry ∧
        link.target = label := by
  have hbranches (branches : List (Link × Int)) (found : Std.TreeMap String Int)
      (hlabel : (branches.foldl (fun found branch => found.insertIfNew branch.1.target branch.2)
        found)[label]? = some address) :
      found[label]? = some address ∨ ∃ link, (link, address) ∈ branches ∧ link.target = label := by
    induction branches generalizing found with
    | nil => exact Or.inl hlabel
    | cons head rest ih =>
      obtain hlabel | ⟨link, hmem, htarget⟩ := ih _ hlabel
      · rw [Std.TreeMap.getElem?_insertIfNew] at hlabel
        split at hlabel
        · rename_i hnew
          obtain rfl := Option.some.inj hlabel
          exact Or.inr ⟨head.1, List.mem_cons_self, Std.compare_eq_iff_eq.mp hnew.1⟩
        · exact Or.inl hlabel
      · exact Or.inr ⟨link, List.mem_cons_of_mem _ hmem, htarget⟩
  have hseeds (seeds : List Seed) (found : Std.TreeMap String Int)
      (hlabel : (seeds.foldl (fun found seed => found.insert seed.label seed.address)
        found)[label]? = some address) :
      found[label]? = some address ∨
      ∃ seed ∈ seeds, seed.label = label ∧ seed.address = address := by
    induction seeds generalizing found with
    | nil => exact Or.inl hlabel
    | cons head rest ih =>
      obtain hlabel | ⟨seed, hmem, hseed⟩ := ih _ hlabel
      · rw [Std.TreeMap.getElem?_insert] at hlabel
        split at hlabel
        · rename_i heq
          exact Or.inr ⟨head, List.mem_cons_self, Std.compare_eq_iff_eq.mp heq,
            Option.some.inj hlabel⟩
        · exact Or.inl hlabel
      · exact Or.inr ⟨seed, List.mem_cons_of_mem _ hmem, hseed⟩
  rw [entries_callGraph] at hstart
  obtain hstart | ⟨link, hmem, htarget⟩ := hbranches _ _ hstart
  · exact Or.inl ((hseeds _ _ hstart).resolve_left (by simp))
  · obtain ⟨entry, hentry, hbranch⟩ := List.mem_flatMap.mp hmem
    exact Or.inr ⟨entry, hentry, link, hbranch, htarget⟩

end Depth.Chart

end Midrange
