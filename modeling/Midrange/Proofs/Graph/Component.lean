import Midrange.Graph.Recursion
import Midrange.Proofs.Graph.DepthFirst
import Midrange.Proofs.Graph.Neighbours

namespace Midrange

open Midrange.Graph (Reaches)

namespace CallGraph

variable {graph : CallGraph} {routine first second third : String} {roots : List String}

/-- Two routines share a cycle, or are the same. -/
def Mutual (graph : CallGraph) (first second : String) : Prop :=
  Reaches graph.outgoing.of first second ∧ Reaches graph.outgoing.of second first

namespace Mutual

theorem refl (routine : String) : graph.Mutual routine routine :=
  ⟨.refl routine, .refl routine⟩

theorem symm (h : graph.Mutual first second) : graph.Mutual second first :=
  ⟨h.2, h.1⟩

theorem trans (hfirst : graph.Mutual first second) (hsecond : graph.Mutual second third) :
    graph.Mutual first third :=
  ⟨hfirst.1.trans hsecond.1, hsecond.2.trans hfirst.2⟩

end Mutual

/-- A routine is recursive if some call joins two routines of its component. -/
def Recursive (graph : CallGraph) (routine : String) : Prop :=
  ∃ source target, ⟨source, target⟩ ∈ graph.calls ∧ graph.Mutual routine source ∧
    graph.Mutual routine target

theorem Recursive.of_mutual (hrecursive : graph.Recursive first)
    (hmutual : graph.Mutual first second) : graph.Recursive second := by
  obtain ⟨source, target, hcall, hsource, htarget⟩ := hrecursive
  exact ⟨source, target, hcall, hmutual.symm.trans hsource, hmutual.symm.trans htarget⟩

/-- From any routine links lead to no more routines than the bound, whichever way they are followed
    and whichever are left out. -/
theorem exists_members {next : String → List String} (select : Ends → String)
    (hnext : ∀ source, ∀ target ∈ next source, ∃ ends ∈ graph.ends, select ends = target)
    (routine : String) :
    ∃ members : Finset String, routine ∈ members ∧
      (∀ source ∈ members, ∀ target ∈ next source, target ∈ members) ∧
      members.card ≤ graph.bound := by
  refine ⟨insert routine (graph.ends.map select).toFinset, Finset.mem_insert_self _ _, ?_, ?_⟩
  · intro source _ target htarget
    obtain ⟨ends, hends, rfl⟩ := hnext source target htarget
    exact Finset.mem_insert_of_mem (List.mem_toFinset.mpr (List.mem_map_of_mem hends))
  · have hinsert := Finset.card_insert_le routine (graph.ends.map select).toFinset
    have hlength := List.toFinset_card_le (graph.ends.map select)
    rw [List.length_map] at hlength
    unfold bound
    omega

/-- The bound is fuel for all that links lead to from one routine. -/
private theorem exists_reached {next : String → List String} (select : Ends → String)
    (hnext : ∀ source, ∀ target ∈ next source, ∃ ends ∈ graph.ends, select ends = target)
    (routine : String) :
    ∃ members : Finset String,
      (∀ start ∈ [routine], ∀ member, Reaches next start member → member ∈ members) ∧
      members.card ≤ graph.bound := by
  obtain ⟨members, hroutine, hclosed, hcard⟩ := graph.exists_members select hnext routine
  refine ⟨members, fun start hstart member hreach => ?_, hcard⟩
  obtain rfl := List.mem_singleton.mp hstart
  exact hreach.closed hclosed hroutine

/-- The fuel suffices for what links lead to from one routine. -/
theorem mem_reach_bound_iff {next : String → List String} (select : Ends → String)
    (hnext : ∀ source, ∀ target ∈ next source, ∃ ends ∈ graph.ends, select ends = target) :
    second ∈ Graph.reach next graph.bound [first] ↔ Reaches next first second := by
  obtain ⟨members, hmembers, hcard⟩ := graph.exists_reached select hnext first
  rw [Graph.mem_reach_iff members hmembers hcard]
  simp

/-- From the bound on more fuel makes no difference to what is found from one routine. -/
private theorem reach_bound_add {next : String → List String} (select : Ends → String)
    (hnext : ∀ source, ∀ target ∈ next source, ∃ ends ∈ graph.ends, select ends = target)
    (more : Nat) :
    Graph.reach next (graph.bound + more) [routine] = Graph.reach next graph.bound [routine] := by
  obtain ⟨members, hmembers, hcard⟩ := graph.exists_reached select hnext routine
  exact Graph.reach_eq_of_le members hmembers hcard (Nat.le_add_right _ _)

private theorem ends_of_mem_outgoing (source target : String)
    (hmem : target ∈ graph.outgoing.of source) : ∃ ends ∈ graph.ends, Ends.target ends = target :=
  ⟨⟨source, target⟩, mem_ends.mpr (mem_outgoing.mp hmem), rfl⟩

private theorem ends_of_mem_incoming (target source : String)
    (hmem : source ∈ graph.incoming.of target) : ∃ ends ∈ graph.ends, Ends.source ends = source :=
  ⟨⟨source, target⟩, mem_ends.mpr (mem_incoming.mp hmem), rfl⟩

/-- Steps against the links lead back to where the links lead from. -/
theorem reaches_incoming_iff :
    Reaches graph.incoming.of first second ↔ Reaches graph.outgoing.of second first := by
  have hswap : (fun member neighbour => neighbour ∈ graph.incoming.of member) =
      Function.swap fun member neighbour => neighbour ∈ graph.outgoing.of member := by
    funext member neighbour
    exact propext (mem_incoming.trans mem_outgoing.symm)
  rw [Reaches, hswap]
  exact Relation.reflTransGen_swap

theorem mem_reach_iff : second ∈ graph.reach first ↔ Reaches graph.outgoing.of first second :=
  mem_reach_bound_iff Ends.target ends_of_mem_outgoing

theorem mem_reachBack_iff : second ∈ graph.reachBack first ↔
    Reaches graph.outgoing.of second first :=
  (mem_reach_bound_iff Ends.source ends_of_mem_incoming).trans reaches_incoming_iff

theorem reach_eq_of_more (graph : CallGraph) (routine : String) (more : Nat) :
    Graph.reach graph.outgoing.of (graph.bound + more) [routine] = graph.reach routine :=
  reach_bound_add Ends.target ends_of_mem_outgoing more

theorem reachBack_eq_of_more (graph : CallGraph) (routine : String) (more : Nat) :
    Graph.reach graph.incoming.of (graph.bound + more) [routine] = graph.reachBack routine :=
  reach_bound_add Ends.source ends_of_mem_incoming more

/-- A search is a scan of its roots whenever it has as much fuel as the bound. -/
theorem scans_visitAll_of_le (graph : CallGraph) (roots : List String) {fuel : Nat}
    (hfuel : graph.bound ≤ fuel) :
    DepthFirst.Scans graph.outgoing.of [] roots {} (.visitAll graph.outgoing.of fuel roots) := by
  refine DepthFirst.scans_visitAll fun root _ => ?_
  obtain ⟨members, hroot, hmembers, hcard⟩ :=
    graph.exists_members Ends.target ends_of_mem_outgoing root
  exact ⟨members, hroot, hmembers, hcard.trans hfuel⟩

theorem scans_depthFirst (graph : CallGraph) (roots : List String) :
    DepthFirst.Scans graph.outgoing.of [] roots {} (graph.depthFirst roots) :=
  graph.scans_visitAll_of_le roots le_rfl

theorem explores_depthFirst (graph : CallGraph) (roots : List String) :
    DepthFirst.Explores graph.outgoing.of roots (graph.depthFirst roots) :=
  DepthFirst.explores_of_scans (nodup_of_targets graph.ends) (graph.scans_depthFirst roots)

end CallGraph

namespace CycleChart

variable {graph : CallGraph} {finished : Std.TreeSet String} {pending : Std.TreeSet String}
  {routine member : String}

/-- Among pending routines that hold whole components, the search back and forth finds the component
    of a routine. -/
theorem mem_component_iff (hroutine : routine ∈ pending)
    (hpending : ∀ first ∈ pending, ∀ second, graph.Mutual first second → second ∈ pending) :
    member ∈ (ofGraph graph).component pending routine ↔ graph.Mutual routine member := by
  let before (member : String) := (graph.incoming.of member).filter pending.contains
  let back : Std.TreeSet String := .ofList (Graph.reach before graph.bound [routine])
  let behind (member : String) := (graph.outgoing.of member).filter back.contains
  change member ∈ Graph.reach behind graph.bound [routine] ↔ _
  have hback (other : String) : other ∈ back ↔ Reaches before routine other := by
    rw [mem_ofList_iff]
    refine CallGraph.mem_reach_bound_iff Ends.source fun target source hmem => ?_
    exact CallGraph.ends_of_mem_incoming target source (List.mem_filter.mp hmem).1
  rw [CallGraph.mem_reach_bound_iff Ends.target fun source target hmem =>
    CallGraph.ends_of_mem_outgoing source target (List.mem_filter.mp hmem).1]
  constructor
  · intro hreach
    have hforth : Reaches graph.outgoing.of routine member :=
      hreach.mono fun _ _ hmem => (List.mem_filter.mp hmem).1
    have hmember : member ∈ back := by
      refine hreach.closed (P := (· ∈ back)) (fun _ _ _ hmem => ?_)
        ((hback routine).mpr (.refl routine))
      exact Std.TreeSet.contains_iff_mem.mp (List.mem_filter.mp hmem).2
    refine ⟨hforth, CallGraph.reaches_incoming_iff.mp ?_⟩
    exact ((hback member).mp hmember).mono fun _ _ hmem => (List.mem_filter.mp hmem).1
  · rintro ⟨hforth, hreturn⟩
    -- the way back from a routine of the component stays among the pending routines
    have hwithin (other : String) (hforth : Reaches graph.outgoing.of routine other)
        (hreturn : Reaches graph.outgoing.of other routine) : other ∈ back := by
      rw [hback]
      induction hreturn using Relation.ReflTransGen.head_induction_on with
      | refl => exact .refl routine
      | @head first second hstep hrest ih =>
        refine (ih (hforth.tail hstep)).tail (List.mem_filter.mpr ⟨?_, ?_⟩)
        · exact CallGraph.mem_incoming.mpr (CallGraph.mem_outgoing.mp hstep)
        · exact Std.TreeSet.contains_iff_mem.mpr
            (hpending routine hroutine first ⟨hforth, .head hstep hrest⟩)
    induction hforth with
    | refl => exact .refl routine
    | tail hfirst hstep ih =>
      refine (ih (.head hstep hreturn)).tail (List.mem_filter.mpr ⟨hstep, ?_⟩)
      exact Std.TreeSet.contains_iff_mem.mpr (hwithin _ (hfirst.tail hstep) hreturn)

theorem holdsCall_iff {members : List String} :
    (ofGraph graph).holdsCall members = true ↔
      ∃ source ∈ members, ∃ target ∈ members, ⟨source, target⟩ ∈ graph.calls := by
  simp only [holdsCall, List.any_eq_true, Std.TreeSet.contains_ofList, List.contains_iff_mem]
  constructor
  · rintro ⟨source, hsource, target, hcall, htarget⟩
    exact ⟨source, hsource, target, htarget, CallGraph.mem_callees.mp hcall⟩
  · rintro ⟨source, hsource, target, htarget, hcall⟩
    exact ⟨source, hsource, target, CallGraph.mem_callees.mpr hcall, htarget⟩

/-- The verdicts on some of the finished routines: what is pending holds whole components, and all
    else is judged right. -/
structure Judged (graph : CallGraph) (finished : Std.TreeSet String) (verdicts : Verdicts) :
    Prop where
  finished_of_pending : ∀ routine ∈ verdicts.pending, routine ∈ finished
  pending_of_mutual : ∀ first ∈ verdicts.pending, ∀ second, graph.Mutual first second →
    second ∈ verdicts.pending
  mem_recursive_iff : ∀ routine, routine ∈ verdicts.recursive ↔
    routine ∈ finished ∧ routine ∉ verdicts.pending ∧ graph.Recursive routine

private theorem mem_foldl_erase {members : List String} :
    member ∈ members.foldl Std.TreeSet.erase pending ↔ member ∈ pending ∧ member ∉ members := by
  induction members generalizing pending with
  | nil => simp
  | cons first rest ih =>
    rw [List.foldl_cons, ih, mem_erase_iff, List.mem_cons, not_or]
    tauto

namespace Judged

variable {verdicts : Verdicts} {other : String} (hjudged : Judged graph finished verdicts)

include hjudged

private theorem mem_component_iff (hroutine : routine ∈ verdicts.pending) :
    other ∈ (ofGraph graph).component verdicts.pending routine ↔ graph.Mutual routine other :=
  CycleChart.mem_component_iff hroutine hjudged.pending_of_mutual

private theorem holdsCall_component_iff (hroutine : routine ∈ verdicts.pending) :
    (ofGraph graph).holdsCall ((ofGraph graph).component verdicts.pending routine) = true ↔
      graph.Recursive routine := by
  simp only [holdsCall_iff, hjudged.mem_component_iff hroutine]
  constructor
  · rintro ⟨source, hsource, target, htarget, hcall⟩
    exact ⟨source, target, hcall, hsource, htarget⟩
  · rintro ⟨source, target, hcall, hsource, htarget⟩
    exact ⟨source, hsource, target, htarget, hcall⟩

/-- A routine is judged together with its component. -/
theorem mem_pending_judge (routine : String) :
    other ∈ ((ofGraph graph).judge verdicts routine).pending ↔
      other ∈ verdicts.pending ∧ ¬ graph.Mutual routine other := by
  by_cases hroutine : routine ∈ verdicts.pending
  · simp only [CycleChart.judge, if_pos (Std.TreeSet.contains_iff_mem.mpr hroutine),
      mem_foldl_erase, hjudged.mem_component_iff hroutine]
  · simp only [CycleChart.judge, Std.TreeSet.contains_iff_mem, if_neg hroutine]
    refine ⟨fun hother => ⟨hother, fun hshared => ?_⟩, And.left⟩
    exact hroutine (hjudged.pending_of_mutual other hother routine hshared.symm)

private theorem mem_recursive_judge (hroutine : routine ∈ verdicts.pending) :
    other ∈ ((ofGraph graph).judge verdicts routine).recursive ↔
      other ∈ verdicts.recursive ∨ graph.Recursive routine ∧ graph.Mutual routine other := by
  have hholds := hjudged.holdsCall_component_iff hroutine
  simp only [CycleChart.judge, if_pos (Std.TreeSet.contains_iff_mem.mpr hroutine)]
  split
  · rename_i hcall
    rw [mem_insertMany_iff, hjudged.mem_component_iff hroutine, and_iff_right (hholds.mp hcall)]
  · rename_i hcall
    rw [or_iff_left fun hboth => hcall (hholds.mpr hboth.1)]

/-- Judging a routine settles its component and leaves the others as they are. -/
theorem judge (routine : String) :
    Judged graph finished ((ofGraph graph).judge verdicts routine) := by
  by_cases hroutine : routine ∈ verdicts.pending
  · constructor
    case finished_of_pending =>
      intro other hother
      exact hjudged.finished_of_pending other ((hjudged.mem_pending_judge routine).mp hother).1
    case pending_of_mutual =>
      intro first hfirst second hshared
      obtain ⟨hmem, hapart⟩ := (hjudged.mem_pending_judge routine).mp hfirst
      have hsecond := hjudged.pending_of_mutual first hmem second hshared
      refine (hjudged.mem_pending_judge routine).mpr ⟨hsecond, fun hjoined => hapart ?_⟩
      exact hjoined.trans hshared.symm
    case mem_recursive_iff =>
      intro other
      rw [hjudged.mem_recursive_judge hroutine, hjudged.mem_pending_judge,
        hjudged.mem_recursive_iff]
      constructor
      · rintro (⟨hmem, hold, hrecursive⟩ | ⟨hrecursive, hshared⟩)
        · exact ⟨hmem, fun h => hold h.1, hrecursive⟩
        · have hother := hjudged.pending_of_mutual routine hroutine other hshared
          exact ⟨hjudged.finished_of_pending other hother, fun h => h.2 hshared,
            hrecursive.of_mutual hshared⟩
      · rintro ⟨hmem, hout, hrecursive⟩
        by_cases hshared : graph.Mutual routine other
        · exact Or.inr ⟨hrecursive.of_mutual hshared.symm, hshared⟩
        · exact Or.inl ⟨hmem, fun h => hout ⟨h, hshared⟩, hrecursive⟩
  · simpa only [CycleChart.judge, Std.TreeSet.contains_iff_mem, if_neg hroutine] using hjudged

/-- Whoever has been judged is no longer pending. -/
theorem foldl_judge (order : List String) :
    Judged graph finished (order.foldl (ofGraph graph).judge verdicts) ∧
      ∀ other ∈ order, other ∉ (order.foldl (ofGraph graph).judge verdicts).pending := by
  suffices hfold : Judged graph finished (order.foldl (ofGraph graph).judge verdicts) ∧
      ∀ other ∈ (order.foldl (ofGraph graph).judge verdicts).pending,
        other ∈ verdicts.pending ∧ other ∉ order from
    ⟨hfold.1, fun other horder hpending => (hfold.2 other hpending).2 horder⟩
  induction order generalizing verdicts with
  | nil => exact ⟨hjudged, fun other hother => ⟨hother, List.not_mem_nil⟩⟩
  | cons first rest ih =>
    obtain ⟨hrest, hleft⟩ := ih (hjudged.judge first)
    refine ⟨hrest, fun other hother => ?_⟩
    obtain ⟨hmem, hlater⟩ := hleft other hother
    obtain ⟨hmem, hapart⟩ := (hjudged.mem_pending_judge first).mp hmem
    refine ⟨hmem, List.not_mem_cons_of_ne_of_not_mem ?_ hlater⟩
    rintro rfl
    exact hapart (.refl other)

end Judged

/-- All verdicts together are right. -/
theorem mem_recursive_iff {search : DepthFirst} {roots : List String}
    (hsearch : DepthFirst.Explores graph.outgoing.of roots search) :
    routine ∈ (ofGraph graph).recursive search ↔
      routine ∈ search.finished ∧ graph.Recursive routine := by
  have hstart : Judged graph search.finished { pending := search.finished } := by
    refine ⟨fun _ hmem => hmem, fun first hfirst second hshared => ?_, fun other => ?_⟩
    · obtain ⟨root, hroot, hreach⟩ := (hsearch.mem_finished_iff first).mp hfirst
      exact (hsearch.mem_finished_iff second).mpr ⟨root, hroot, hreach.trans hshared.1⟩
    · exact ⟨fun hmem => by simp at hmem, fun ⟨hmem, hout, _⟩ => absurd hmem hout⟩
  obtain ⟨hjudged, hleft⟩ := hstart.foldl_judge search.order
  rw [recursive, hjudged.mem_recursive_iff]
  constructor
  · exact fun ⟨hmem, _, hrecursive⟩ => ⟨hmem, hrecursive⟩
  · rintro ⟨hmem, hrecursive⟩
    exact ⟨hmem, hleft routine ((hsearch.mem_order_iff routine).mpr hmem), hrecursive⟩

end CycleChart

end Midrange
