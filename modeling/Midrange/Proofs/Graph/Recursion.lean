import Midrange.Proofs.Graph.Component
import Midrange.Proofs.Graph.Walk

namespace Midrange.CallGraph

open Midrange.Graph (Reaches)

variable {graph : CallGraph} {roots : List String} {links : List Link} {link : Link} {ends : Ends}
  {routine : String}

/-- A call or a goto of a graph on which recursion is not cut. -/
def Spares (graph : CallGraph) (cut : Std.TreeSet Ends) (link : Link) : Prop :=
  graph.Has link ∧ link.ends ∉ cut

/-- Links lead from some root to a routine. -/
def Reached (graph : CallGraph) (roots : List String) (routine : String) : Prop :=
  ∃ root ∈ roots, Reaches graph.outgoing.of root routine

theorem mem_recursion_iff : ends ∈ graph.recursion roots ↔
    ends ∈ (graph.depthFirst roots).back ∧ graph.Reached roots ends.target ∧
      graph.Recursive ends.target := by
  have hsearch := graph.explores_depthFirst roots
  rw [recursion, mem_ofList_iff, List.mem_filter, Array.mem_toList_iff,
    Std.TreeSet.contains_iff_mem, CycleChart.mem_recursive_iff hsearch,
    hsearch.mem_finished_iff, Reached]

/-- All routines of a closed walk share a component. -/
theorem mutual_of_closed_walk (hwalk : Walk graph.Has routine links routine)
    (hlink : link ∈ links) :
    graph.Mutual routine link.source ∧ graph.Mutual routine link.target := by
  obtain ⟨hhas, before, behind, hbefore, hbehind⟩ := hwalk.split hlink
  have hto := reaches_of_walk hbefore
  have hback := reaches_of_walk hbehind
  have hstep : link.target ∈ graph.outgoing.of link.source := mem_outgoing.mpr hhas.joins
  exact ⟨⟨hto, .head hstep hback⟩, ⟨hto.tail hstep, hback⟩⟩

/-- Where recursion is cut, no call lies on a cycle. A cycle has a link that closes it in the
    search, and if there is a call on the cycle, the target of that link is recursive. -/
theorem kind_ne_call_of_closed_walk (hreached : graph.Reached roots routine)
    (hwalk : Walk (graph.Spares (graph.recursion roots)) routine links routine)
    (hlink : link ∈ links) : link.kind ≠ .call := by
  intro hcall
  have hsearch := graph.explores_depthFirst roots
  have hwhole := hwalk.mono fun _ hspared => hspared.1
  have hrecursive (other : Link) (hother : other ∈ links) : graph.Recursive other.target := by
    obtain ⟨-, htarget⟩ := mutual_of_closed_walk hwhole hother
    obtain ⟨hsource, htarget'⟩ := mutual_of_closed_walk hwhole hlink
    obtain ⟨⟨hhas, _⟩, _⟩ := hwalk.split hlink
    obtain ⟨source, target, kind⟩ := link
    obtain rfl : kind = .call := hcall
    exact ⟨source, target, hhas, htarget.symm.trans hsource, htarget.symm.trans htarget'⟩
  have hreach (other : String) (hmutual : graph.Mutual routine other) :
      graph.Reached roots other := by
    obtain ⟨root, hroot, hpath⟩ := hreached
    exact ⟨root, hroot, hpath.trans hmutual.1⟩
  obtain ⟨rank, hrank⟩ := hsearch.exists_rank
  have hdown (other : Link) (hother : other ∈ links) : rank other.target < rank other.source := by
    obtain ⟨⟨hhas, huncut⟩, _⟩ := hwalk.split hother
    obtain ⟨hsource, htarget⟩ := mutual_of_closed_walk hwhole hother
    have hfinished := (hsearch.mem_finished_iff other.source).mpr (hreach _ hsource)
    obtain hback | hless := hrank _ hfinished _ (mem_outgoing.mpr hhas.joins)
    · exact absurd (mem_recursion_iff.mpr ⟨hback, hreach _ htarget, hrecursive other hother⟩) huncut
    · exact hless
  exact Nat.lt_irrefl _ (hwalk.rank_lt hdown (List.ne_nil_of_mem hlink))

/-- Recursion is cut only on cycles with a call. -/
theorem exists_closed_walk_of_mem_recursion (hcut : ends ∈ graph.recursion roots) :
    ∃ links, Walk graph.Has ends.source links ends.source ∧
      (∃ link ∈ links, link.ends = ends) ∧ ∃ link ∈ links, link.kind = .call := by
  obtain ⟨hback, _, source, target, hcall, hsource, htarget⟩ := mem_recursion_iff.mp hcut
  obtain ⟨hstep, hcycle⟩ := (graph.explores_depthFirst roots).back_closes ends hback
  obtain ⟨kind, hlink⟩ := joins_iff.mp (mem_outgoing.mp hstep)
  obtain ⟨before, hbefore⟩ := exists_walk_of_reaches hsource.1
  obtain ⟨behind, hbehind⟩ := exists_walk_of_reaches (htarget.2.trans hcycle)
  have hcall : graph.Has ⟨source, target, .call⟩ := hcall
  refine ⟨⟨ends.source, ends.target, kind⟩ :: (before ++ ⟨source, target, .call⟩ :: behind),
    .cons hlink (hbefore.append (.cons hcall hbehind)), ⟨_, List.mem_cons_self, rfl⟩, ?_⟩
  exact ⟨⟨source, target, .call⟩, by simp, rfl⟩

/-- Recursion is cut on links of the graph. -/
theorem exists_has_of_mem_recursion (hcut : ends ∈ graph.recursion roots) :
    ∃ kind, graph.Has ⟨ends.source, ends.target, kind⟩ := by
  obtain ⟨links, hwalk, ⟨link, hlink, rfl⟩, -⟩ := exists_closed_walk_of_mem_recursion hcut
  exact ⟨link.kind, (hwalk.split hlink).1⟩

/-- Recursion is cut exactly. Behind the cut no closed walk in reach of the roots has a call.
    Whatever is cut lies on a closed walk with a call, so that nothing is cut where only gotos join
    the routines of a component. -/
theorem recursion_exact (graph : CallGraph) (roots : List String) :
    (∀ routine links, graph.Reached roots routine →
      Walk (graph.Spares (graph.recursion roots)) routine links routine →
        ∀ link ∈ links, link.kind ≠ .call) ∧
    (∀ ends ∈ graph.recursion roots, ∃ links, Walk graph.Has ends.source links ends.source ∧
      (∃ link ∈ links, link.ends = ends) ∧ ∃ link ∈ links, link.kind = .call) ∧
    ∀ ends, (∀ link, graph.Has link → graph.Mutual ends.target link.source →
      graph.Mutual ends.target link.target → link.kind = .goto) → ends ∉ graph.recursion roots := by
  refine ⟨fun routine links hreached hwalk link hlink => ?_, fun ends hcut => ?_,
    fun ends hgotos hcut => ?_⟩
  · exact kind_ne_call_of_closed_walk hreached hwalk hlink
  · exact exists_closed_walk_of_mem_recursion hcut
  · obtain ⟨-, -, source, target, hcall, hsource, htarget⟩ := mem_recursion_iff.mp hcut
    have hgoto := hgotos ⟨source, target, .call⟩ hcall hsource htarget
    cases hgoto

/-- Two routines that call each other, and one behind them that branches to itself: only the call
    back is cut. -/
theorem recursion_exact_of_mutual_calls :
    let graph := [⟨"a", "b", .call⟩, ⟨"b", "a", .call⟩, ⟨"b", "c", .goto⟩, ⟨"c", "c", .goto⟩].foldl
      addLink {}
    (graph.recursion ["a"]).toList = [⟨"b", "a"⟩] ∧
      ∃ links, Walk graph.Has "b" links "b" ∧ (∃ link ∈ links, link.ends = ⟨"b", "a"⟩) ∧
        ∃ link ∈ links, link.kind = .call := by
  refine ⟨by decide +kernel, ?_⟩
  exact (recursion_exact _ ["a"]).2.1 ⟨"b", "a"⟩ (by decide +kernel)

end Midrange.CallGraph
