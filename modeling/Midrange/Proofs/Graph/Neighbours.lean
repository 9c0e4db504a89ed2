import Midrange.Graph.Basic
import Midrange.Proofs.Graph.Reach

namespace Midrange

theorem Neighbours.mem_of {neighbours : Neighbours} {routine other : String} :
    other ∈ neighbours.of routine ↔ ∃ entry ∈ neighbours.getD routine ∅, entry.routine = other := by
  simp [of]

private theorem mem_getD_add {neighbours : Neighbours} {routine other : String}
    {new entry : Entry} : entry ∈ (neighbours.add routine new).getD other ∅ ↔
      (routine = other ∧ new = entry) ∨ entry ∈ neighbours.getD other ∅ := by
  simp only [Neighbours.add, Std.TreeMap.getD_insert, Std.compare_eq_iff_eq]
  by_cases heq : routine = other
  · subst heq
    rw [if_pos rfl, mem_insert_iff, eq_comm]
    simp
  · simp [heq]

namespace CallGraph

variable {graph : CallGraph} {source target : String}

/-- Two routines are joined by a call or a goto. -/
def Joins (graph : CallGraph) (source target : String) : Prop :=
  (⟨source, target⟩ : Ends) ∈ graph.calls ∨ (⟨source, target⟩ : Ends) ∈ graph.gotos

theorem mem_getD_targets (ends : List Ends) (entry : Entry) :
    entry ∈ (graph.targets ends).getD source ∅ ↔
      ∃ target, ⟨source, target⟩ ∈ ends ∧ graph.entry target = entry := by
  suffices hfold : ∀ found : Neighbours,
      entry ∈ (ends.foldl (fun found ends => found.add ends.source (graph.entry ends.target))
        found).getD source ∅ ↔
        entry ∈ found.getD source ∅ ∨
          ∃ target, ⟨source, target⟩ ∈ ends ∧ graph.entry target = entry by
    simpa [targets] using hfold ∅
  induction ends with
  | nil => simp
  | cons head rest ih =>
    intro found
    obtain ⟨first, second⟩ := head
    rw [List.foldl_cons, ih, mem_getD_add]
    constructor
    · rintro ((⟨rfl, hentry⟩ | hfound) | ⟨target, hmem, hentry⟩)
      · exact Or.inr ⟨second, List.mem_cons_self, hentry⟩
      · exact Or.inl hfound
      · exact Or.inr ⟨target, List.mem_cons_of_mem _ hmem, hentry⟩
    · rintro (hfound | ⟨target, hmem, hentry⟩)
      · exact Or.inl (Or.inr hfound)
      · obtain hhead | hmem := List.mem_cons.mp hmem
        · obtain ⟨rfl, rfl⟩ := Ends.mk.inj hhead
          exact Or.inl (Or.inl ⟨rfl, hentry⟩)
        · exact Or.inr ⟨target, hmem, hentry⟩

theorem mem_of_targets {ends : List Ends} :
    target ∈ (graph.targets ends).of source ↔ ⟨source, target⟩ ∈ ends := by
  simp only [Neighbours.mem_of, mem_getD_targets]
  constructor
  · rintro ⟨_, ⟨target, hmem, rfl⟩, rfl⟩
    exact hmem
  · exact fun hmem => ⟨_, ⟨target, hmem, rfl⟩, rfl⟩

/-- Neighbours differ in their addresses or their names, and those of one name share the address. -/
theorem nodup_of_targets (ends : List Ends) (routine : String) :
    ((graph.targets ends).of routine).Nodup := by
  have hentry (entry : Entry) (hmem : entry ∈ ((graph.targets ends).getD routine ∅).toList) :
      entry = graph.entry entry.routine := by
    obtain ⟨target, _, rfl⟩ := (mem_getD_targets ends entry).mp (Std.TreeSet.mem_toList.mp hmem)
    rfl
  refine List.Nodup.map_on (fun left hleft right hright heq => ?_) ?_
  · rw [hentry left hleft, hentry right hright, heq]
  · refine Std.TreeSet.distinct_toList.imp fun hne heq => hne ?_
    exact Std.compare_eq_iff_eq.mpr heq

theorem mem_ends {ends : Ends} : ends ∈ graph.ends ↔ graph.Joins ends.source ends.target := by
  simp [CallGraph.ends, Joins, Std.TreeSet.mem_toList]

theorem mem_outgoing : target ∈ graph.outgoing.of source ↔ graph.Joins source target := by
  rw [outgoing, mem_of_targets, mem_ends]

theorem mem_incoming : source ∈ graph.incoming.of target ↔ graph.Joins source target := by
  rw [incoming, mem_of_targets, List.mem_map]
  constructor
  · rintro ⟨⟨source', target'⟩, hmem, hends⟩
    obtain ⟨rfl, rfl⟩ := Ends.mk.inj hends
    exact mem_ends.mp hmem
  · exact fun hjoins => ⟨⟨source, target⟩, mem_ends.mpr hjoins, rfl⟩

theorem mem_callees : target ∈ graph.callees.of source ↔ ⟨source, target⟩ ∈ graph.calls := by
  rw [callees, mem_of_targets, Std.TreeSet.mem_toList]

end CallGraph

end Midrange
