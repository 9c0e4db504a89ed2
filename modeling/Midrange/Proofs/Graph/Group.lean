import Mathlib.Order.Bounds.Basic
import Midrange.Proofs.Graph.BackLinks

namespace Midrange.CallGraph

open Midrange.Graph (Reaches)

variable {graph : CallGraph} {roots : List String} {ends : Ends} {routine member : String}
  {members : Set String}

/-- A set of routines is strongly connected if from each to each of them a walk leads that does not
    leave the set. -/
def StronglyConnected (graph : CallGraph) (members : Set String) : Prop :=
  ∀ first ∈ members, ∀ second ∈ members, ∃ links,
    Walk (fun link => graph.Has link ∧ link.source ∈ members ∧ link.target ∈ members)
      first links second

/-- The routines that the searches from a routine find both along the links and against them. -/
def group (graph : CallGraph) (routine : String) : Set String :=
  {member | member ∈ graph.reach routine ∧ member ∈ graph.reachBack routine}

theorem mem_group_iff : member ∈ graph.group routine ↔ graph.Mutual routine member :=
  and_congr mem_reach_iff mem_reachBack_iff

theorem group_eq_of_mem (hmember : member ∈ graph.group routine) :
    graph.group member = graph.group routine := by
  have hmutual := mem_group_iff.mp hmember
  ext other
  rw [mem_group_iff, mem_group_iff]
  exact ⟨hmutual.trans, hmutual.symm.trans⟩

/-- The way from a routine of a group to another one can be closed, and what lies on a closed walk
    is in one group. -/
theorem stronglyConnected_group (graph : CallGraph) (routine : String) :
    graph.StronglyConnected (graph.group routine) := by
  intro first hfirst second hsecond
  have hmutual := (mem_group_iff.mp hfirst).symm.trans (mem_group_iff.mp hsecond)
  obtain ⟨links, hforth⟩ := exists_walk_of_reaches hmutual.1
  obtain ⟨behind, hback⟩ := exists_walk_of_reaches hmutual.2
  refine ⟨links, hforth.restrict fun link hlink => ?_⟩
  obtain ⟨hsource, htarget⟩ :=
    mutual_of_closed_walk (hforth.append hback) (List.mem_append_left behind hlink)
  rw [← group_eq_of_mem hfirst]
  exact ⟨mem_group_iff.mpr hsource, mem_group_iff.mpr htarget⟩

theorem subset_group (hmembers : graph.StronglyConnected members) (hroutine : routine ∈ members) :
    members ⊆ graph.group routine := by
  intro member hmember
  obtain ⟨_, hforth⟩ := hmembers routine hroutine member hmember
  obtain ⟨_, hback⟩ := hmembers member hmember routine hroutine
  exact mem_group_iff.mpr ⟨reaches_of_walk (hforth.mono fun _ hwithin => hwithin.1),
    reaches_of_walk (hback.mono fun _ hwithin => hwithin.1)⟩

/-- A link that closes a cycle is cut if the group of its target holds a call. -/
theorem mem_recursion_iff_group : ends ∈ graph.recursion roots ↔
    ends ∈ graph.backLinks roots ∧
    ∃ caller ∈ graph.group ends.target, ∃ callee ∈ graph.group ends.target,
      graph.Has ⟨caller, callee, .call⟩ := by
  rw [mem_recursion_iff_back, mem_backLinks_iff]
  refine and_congr_right fun _ => ⟨?_, ?_⟩
  · rintro ⟨caller, callee, hcall, hcaller, hcallee⟩
    exact ⟨caller, mem_group_iff.mpr hcaller, callee, mem_group_iff.mpr hcallee, hcall⟩
  · rintro ⟨caller, hcaller, callee, hcallee, hcall⟩
    exact ⟨caller, callee, hcall, mem_group_iff.mp hcaller, mem_group_iff.mp hcallee⟩

/-- The searches from a routine end by themselves and find no routine twice: along the links those
    to which walks lead from it, against the links those from which walks lead to it. What both find
    is the strongly connected component of the routine, the largest strongly connected set that
    holds it, and from each of its members they find the same. So the verdict on a link that closes
    a cycle may go by the component of its target alone: the link is cut if a call stays there. -/
theorem reach_finds_components (graph : CallGraph) (routine : String) :
    (∀ more, Graph.reach graph.outgoing.of (graph.bound + more) [routine] = graph.reach routine ∧
      Graph.reach graph.incoming.of (graph.bound + more) [routine] = graph.reachBack routine) ∧
    (graph.reach routine).Nodup ∧ (graph.reachBack routine).Nodup ∧
    (∀ other, other ∈ graph.reach routine ↔ ∃ links, Walk graph.Has routine links other) ∧
    (∀ other, other ∈ graph.reachBack routine ↔ ∃ links, Walk graph.Has other links routine) ∧
    IsGreatest {members | routine ∈ members ∧ graph.StronglyConnected members}
      (graph.group routine) ∧
    (∀ member ∈ graph.group routine, graph.group member = graph.group routine) ∧
    ∀ roots source, ⟨source, routine⟩ ∈ graph.recursion roots ↔
      ⟨source, routine⟩ ∈ graph.backLinks roots ∧
        ∃ caller ∈ graph.group routine, ∃ callee ∈ graph.group routine,
          graph.Has ⟨caller, callee, .call⟩ := by
  have hwalk (first second : String) :
      Reaches graph.outgoing.of first second ↔ ∃ links, Walk graph.Has first links second :=
    ⟨exists_walk_of_reaches, fun ⟨_, hwalk⟩ => reaches_of_walk hwalk⟩
  refine ⟨fun more =>
      ⟨graph.reach_eq_of_more routine more, graph.reachBack_eq_of_more routine more⟩,
    Graph.nodup_reach _ _ _, Graph.nodup_reach _ _ _,
    fun other => ?_, fun other => ?_, ⟨⟨?_, ?_⟩, ?_⟩, fun member => group_eq_of_mem,
    fun roots source => mem_recursion_iff_group⟩
  · rw [mem_reach_iff, hwalk]
  · rw [mem_reachBack_iff, hwalk]
  · exact mem_group_iff.mpr (.refl routine)
  · exact graph.stronglyConnected_group routine
  · exact fun members ⟨hroutine, hmembers⟩ => subset_group hmembers hroutine

/-- A call and a `goto` that make a cycle, with a routine that leads to it, one to which it leads,
    and one without links. The `goto` from a routine to itself is cut for the sake of the call. -/
theorem reach_finds_components_of_cycle :
    let graph := [⟨"a", "b", .call⟩, ⟨"b", "a", .goto⟩, ⟨"b", "b", .goto⟩, ⟨"c", "b", .goto⟩,
      ⟨"b", "d", .goto⟩].foldl addLink {}
    graph.reach "b" = ["b", "a", "d"] ∧ graph.reachBack "b" = ["b", "a", "c"] ∧
    graph.reach "e" = ["e"] ∧ "a" ∈ graph.group "b" ∧ graph.group "a" = graph.group "b" ∧
    ⟨"b", "b"⟩ ∈ graph.recursion ["c"] := by
  intro graph
  obtain ⟨-, -, -, -, -, ⟨⟨hself, -⟩, -⟩, hsame, hcut⟩ := reach_finds_components graph "b"
  have hother : "a" ∈ graph.group "b" := ⟨by decide +kernel, by decide +kernel⟩
  have hcall : (⟨"a", "b"⟩ : Ends) ∈ graph.calls := by decide +kernel
  have hback : ⟨"b", "b"⟩ ∈ graph.backLinks ["c"] := by decide +kernel
  refine ⟨by decide +kernel, by decide +kernel, by decide +kernel, hother, hsame "a" hother, ?_⟩
  exact (hcut ["c"] "b").mpr ⟨hback, "a", hother, "b", hself, hcall⟩

end Midrange.CallGraph
