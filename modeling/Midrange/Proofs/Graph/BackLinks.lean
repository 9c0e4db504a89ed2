import Midrange.Proofs.Graph.Renaming

namespace Midrange.CallGraph

open Midrange.Graph (Reaches)

variable {graph : CallGraph} {roots : List String} {ends : Ends} {source target routine : String}

/-- A call or a goto joins two routines, and the search from some roots does not find that it closes
    a cycle. -/
def Remains (graph : CallGraph) (roots : List String) (source target : String) : Prop :=
  graph.Joins source target ∧ ⟨source, target⟩ ∉ graph.backLinks roots

theorem mem_backLinks_iff : ends ∈ graph.backLinks roots ↔ ends ∈ (graph.depthFirst roots).back :=
  Array.mem_toList_iff

theorem mem_finished_iff_reached : routine ∈ (graph.depthFirst roots).finished ↔
    graph.Reached roots routine :=
  (graph.explores_depthFirst roots).mem_finished_iff routine

theorem Reached.of_joins (hreached : graph.Reached roots source)
    (hjoins : graph.Joins source target) : graph.Reached roots target := by
  obtain ⟨root, hroot, hreach⟩ := hreached
  exact ⟨root, hroot, hreach.tail (mem_outgoing.mpr hjoins)⟩

/-- A search ends by itself: with more fuel it finds the same. -/
theorem backLinks_eq_of_more (graph : CallGraph) (roots : List String) (more : Nat) :
    (DepthFirst.visitAll graph.outgoing.of (graph.bound + more) roots).back.toList =
      graph.backLinks roots :=
  have hscan := graph.scans_visitAll_of_le roots (Nat.le_add_right graph.bound more)
  congrArg Array.toList (hscan.back_unique (graph.scans_depthFirst roots))

theorem nodup_backLinks (graph : CallGraph) (roots : List String) : (graph.backLinks roots).Nodup :=
  (graph.scans_depthFirst roots).nodup_back (nodup_of_targets graph.ends) .start List.nodup_nil

/-- Every link that is found is a link within reach, and closes a cycle. -/
theorem closes_of_mem_backLinks (hback : ends ∈ graph.backLinks roots) :
    graph.Joins ends.source ends.target ∧ graph.Reached roots ends.source ∧
      Reaches graph.outgoing.of ends.target ends.source := by
  have hback := mem_backLinks_iff.mp hback
  obtain ⟨hjoins, hcloses⟩ := (graph.explores_depthFirst roots).back_closes ends hback
  refine ⟨mem_outgoing.mp hjoins, mem_finished_iff_reached.mp ?_, hcloses⟩
  obtain hnone | ⟨hnone, -⟩ | ⟨-, -, hfinished⟩ := (graph.scans_depthFirst roots).back_source hback
  · simp at hnone
  · cases hnone
  · exact hfinished

/-- Within reach the links that remain lead down. -/
theorem exists_rank_of_remains (graph : CallGraph) (roots : List String) :
    ∃ rank : String → Nat, ∀ source target, graph.Reached roots source →
      graph.Remains roots source target → rank target < rank source := by
  obtain ⟨rank, hrank⟩ := (graph.explores_depthFirst roots).exists_rank
  refine ⟨rank, fun source target hreached hremains => ?_⟩
  have hdown :=
    hrank source (mem_finished_iff_reached.mpr hreached) target (mem_outgoing.mpr hremains.1)
  exact hdown.resolve_left fun hback => hremains.2 (mem_backLinks_iff.mpr hback)

/-- Within reach no cycle remains. -/
theorem not_cycle_of_remains (hreached : graph.Reached roots routine) :
    ¬ Relation.TransGen (graph.Remains roots) routine routine := by
  obtain ⟨rank, hrank⟩ := graph.exists_rank_of_remains roots
  have hdown {last : String} (hleads : Relation.TransGen (graph.Remains roots) routine last) :
      graph.Reached roots last ∧ rank last < rank routine := by
    induction hleads with
    | single hstep => exact ⟨hreached.of_joins hstep.1, hrank _ _ hreached hstep⟩
    | tail _ hstep ih => exact ⟨ih.1.of_joins hstep.1, (hrank _ _ ih.1 hstep).trans ih.2⟩
  exact fun hcycle => Nat.lt_irrefl _ (hdown hcycle).2

/-- The links that remain lead as far as all links. -/
theorem exists_remains_of_reached (hreached : graph.Reached roots routine) :
    ∃ root ∈ roots, Relation.ReflTransGen (graph.Remains roots) root routine := by
  obtain ⟨root, hroot, hkept⟩ :=
    (graph.explores_depthFirst roots).kept routine (mem_finished_iff_reached.mpr hreached)
  have hremains : DepthFirst.Keeps graph.outgoing.of (graph.depthFirst roots).back ≤
      graph.Remains roots :=
    fun _ _ hkeeps => ⟨mem_outgoing.mp hkeeps.1, fun hback => hkeeps.2 (mem_backLinks_iff.mp hback)⟩
  exact ⟨root, hroot, Relation.ReflTransGen.mono hremains _ _ hkept⟩

/-- The links that a depth-first search finds to close cycles are the right ones to leave out. The
    search ends by itself, and finds no link twice. Each one that it finds is a link within reach of
    the roots whose target leads back to its source, and every link within reach from a routine to
    itself is among them. Without them no cycle is left within reach, and all that could be reached
    still can be. -/
theorem backLinks_correct (graph : CallGraph) (roots : List String) :
    (∀ more, (DepthFirst.visitAll graph.outgoing.of (graph.bound + more) roots).back.toList =
      graph.backLinks roots) ∧
    (graph.backLinks roots).Nodup ∧
    (∀ ends ∈ graph.backLinks roots,
      graph.Joins ends.source ends.target ∧ graph.Reached roots ends.source ∧
      Reaches graph.outgoing.of ends.target ends.source) ∧
    ∀ routine, graph.Reached roots routine →
      (graph.Joins routine routine → ⟨routine, routine⟩ ∈ graph.backLinks roots) ∧
      ¬ Relation.TransGen (graph.Remains roots) routine routine ∧
      ∃ root ∈ roots, Relation.ReflTransGen (graph.Remains roots) root routine := by
  refine ⟨graph.backLinks_eq_of_more roots, graph.nodup_backLinks roots,
    fun ends => closes_of_mem_backLinks,
    fun routine hreached =>
      ⟨fun hself => ?_, not_cycle_of_remains hreached, exists_remains_of_reached hreached⟩⟩
  by_contra hmissing
  exact not_cycle_of_remains hreached (.single ⟨hself, hmissing⟩)

/-- Two roots that lead into the same cycle, on which a routine also calls itself. -/
theorem backLinks_correct_of_shared_cycle :
    let graph :=
      [⟨"a", "b", .call⟩, ⟨"b", "a", .goto⟩, ⟨"b", "b", .call⟩, ⟨"c", "b", .goto⟩].foldl addLink {}
    graph.backLinks ["c", "a"] = [⟨"a", "b"⟩, ⟨"b", "b"⟩] ∧ Reaches graph.outgoing.of "b" "a" ∧
      graph.Reached ["c", "a"] "b" ∧ graph.Joins "b" "b" ∧ ⟨"b", "b"⟩ ∈ graph.backLinks ["c", "a"] ∧
        ¬ Relation.TransGen (graph.Remains ["c", "a"]) "b" "b" := by
  intro graph
  have hback : graph.backLinks ["c", "a"] = [⟨"a", "b"⟩, ⟨"b", "b"⟩] := by decide +kernel
  have hself : graph.Joins "b" "b" := Or.inl (by decide +kernel)
  have hjoins : graph.Joins "a" "b" := Or.inl (by decide +kernel)
  have hreached : graph.Reached ["c", "a"] "b" := Reached.of_joins ⟨"a", by simp, .refl "a"⟩ hjoins
  obtain ⟨-, -, hcloses, hwithin⟩ := backLinks_correct graph ["c", "a"]
  obtain ⟨-, -, hcycle⟩ := hcloses ⟨"a", "b"⟩ (by simp [hback])
  obtain ⟨hfound, hnone, -⟩ := hwithin "b" hreached
  exact ⟨hback, hcycle, hreached, hself, hfound hself, hnone⟩

end Midrange.CallGraph
