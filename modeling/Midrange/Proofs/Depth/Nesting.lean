import Midrange.Proofs.Depth.Arrival
import Midrange.Proofs.Depth.Routines
import Midrange.Proofs.Graph.Chain

namespace Midrange.Depth

variable {plan : Plan} {seeds : List Seed} {arrival : Arrival} {entry : Entry} {link : Link}
  {label : String}

theorem Analysis.mem_roots_iff : label ∈ roots seeds ↔ ∃ seed ∈ seeds, seed.label = label := by
  unfold roots
  split
  · split <;> simp [eq_comm, or_comm]
  · simp

namespace Plan

/-- The routines that control can reach from seeds, and the links between them. -/
def graph (plan : Plan) (seeds : List Seed) : CallGraph :=
  plan.chart.callGraph seeds (plan.chart.entries seeds)

/-- A plan cuts the recursion that control can meet from seeds. -/
def CutsRecursion (plan : Plan) (seeds : List Seed) : Prop :=
  plan.cut = (plan.graph seeds).recursion (Analysis.roots seeds)

theorem label_mem_graph {seed : Seed} (hseed : seed ∈ seeds) :
    seed.label ∈ (plan.graph seeds).entries :=
  Chart.mem_entries_callGraph_iff.mpr (Or.inl ⟨seed, hseed, rfl⟩)

theorem target_mem_graph (hlink : (plan.graph seeds).Has link) :
    link.target ∈ (plan.graph seeds).entries := by
  obtain ⟨entry, hentry, address, hbranch⟩ := Chart.has_callGraph_iff.mp hlink
  exact Chart.mem_entries_callGraph_iff.mpr (Or.inr ⟨entry, hentry, _, hbranch, rfl⟩)

/-- The links between routines are the branches that control can reach. -/
theorem has_graph_iff {source target : String} {kind : BranchKind} :
    (plan.graph seeds).Has ⟨source, target, kind⟩ ↔
    ∃ entry ∈ plan.chart.entries seeds, ∃ site address,
      .branch kind site address ∈ (plan.chart.code.stretch entry.start).departures ∧
        entry.routine = source ∧ plan.chart.code.symbols.nameOf address = target := by
  rw [graph, Chart.has_callGraph_iff]
  constructor
  · rintro ⟨entry, hentry, address, hbranch⟩
    obtain ⟨departure, hmem, hlink⟩ := List.mem_filterMap.mp hbranch
    cases departure with
    | skip => cases hlink
    | branch kind site address =>
      simp only [Code.link?, Option.map_some, Option.some.injEq, Prod.mk.injEq,
        Link.mk.injEq] at hlink
      obtain ⟨⟨rfl, rfl, rfl⟩, -⟩ := hlink
      exact ⟨entry, hentry, site, address, hmem, rfl, rfl⟩
  · rintro ⟨entry, hentry, site, address, hmem, rfl, rfl⟩
    exact ⟨entry, hentry, address, List.mem_filterMap.mpr ⟨_, hmem, rfl⟩⟩

end Plan

namespace Arrives

variable (harrives : Arrives plan seeds arrival)

include harrives

theorem mem_entries : arrival.entry ∈ plan.chart.entries seeds :=
  Chart.mem_entries_iff.mpr harrives.arrivesAt.enters

/-- The calls of an arrival nest within each other along links that are not cut. -/
theorem chain : Chain ((plan.graph seeds).Spares plan.cut) (Analysis.roots seeds)
    arrival.nesting.calls arrival.entry.routine := by
  induction harrives with
  | @seed seed hseed => exact .root (Analysis.mem_roots_iff.mpr ⟨seed, hseed, rfl⟩)
  | @offered arrival offered harrives hoffered ih =>
    obtain ⟨target, hmem, rfl⟩ | ⟨kind, site, target, hmem, huncut, rfl⟩ :=
      Plan.mem_offers_iff.mp hoffered
    · exact ih
    · have hhas := Plan.has_graph_iff.mpr ⟨_, harrives.mem_entries, site, target, hmem, rfl, rfl⟩
      cases kind with
      | call => exact ih.call ⟨hhas, huncut⟩
      | goto => exact ih.goto ⟨hhas, huncut⟩

/-- The outermost call is the label of a seed, and each further one nests one level deeper. -/
theorem exists_seed : ∃ seed ∈ seeds, arrival.nesting.calls.getLast? = some seed.label ∧
    arrival.nesting.depth + 1 = seed.depth + arrival.nesting.calls.length := by
  induction harrives with
  | @seed seed hseed => exact ⟨seed, hseed, rfl, rfl⟩
  | @offered arrival offered harrives hoffered ih =>
    obtain ⟨seed, hseed, hlast, hdepth⟩ := ih
    refine ⟨seed, hseed, ?_⟩
    obtain ⟨target, _, rfl⟩ | ⟨kind, site, target, _, _, rfl⟩ := Plan.mem_offers_iff.mp hoffered
    · exact ⟨hlast, hdepth⟩
    · cases kind with
      | goto => exact ⟨hlast, hdepth⟩
      | call =>
        simp only [Search.nestingBehind, List.getLast?_cons, List.length_cons, hlast,
          Option.getD_some, true_and]
        omega

/-- Where recursion is cut, calls nest no deeper than there are routines. -/
theorem depth_bounds (hcuts : plan.CutsRecursion seeds) : ∃ seed ∈ seeds,
    seed.depth ≤ arrival.nesting.depth ∧
      arrival.nesting.depth < seed.depth + (plan.graph seeds).entries.size := by
  obtain ⟨seed, hseed, hlast, hdepth⟩ := harrives.exists_seed
  have hchain := harrives.chain
  have hkeys : ∀ label ∈ arrival.nesting.calls, label ∈ (plan.graph seeds).entries.keys := by
    simp only [Std.TreeMap.mem_keys]
    refine hchain.forall_mem (fun root hroot => ?_) fun link hlink => Plan.target_mem_graph hlink.1
    obtain ⟨seed, hseed, rfl⟩ := Analysis.mem_roots_iff.mp hroot
    exact Plan.label_mem_graph hseed
  have hlength : arrival.nesting.calls.length ≤ (plan.graph seeds).entries.size := by
    rw [hcuts] at hchain
    rw [← Std.TreeMap.length_keys]
    exact (hchain.nodup.subperm hkeys).length_le
  have hsome : 0 < arrival.nesting.calls.length := by
    rw [List.length_pos_iff]
    rintro hnil
    simp [hnil] at hlast
  exact ⟨seed, hseed, by omega, by omega⟩

end Arrives

end Midrange.Depth
