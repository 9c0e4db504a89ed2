import Midrange.Depth.Analysis
import Midrange.Proofs.Depth.Agenda

namespace Midrange.Depth

theorem Findings.isSome_depthAt?_iff {findings : Findings} {address : Int} :
    (findings.depthAt? address).isSome ↔ address ∈ findings.records := by
  rw [depthAt?, Option.isSome_map, Std.TreeMap.mem_iff_isSome_getElem?]

namespace Analysis

variable {records : Std.TreeMap Int Nesting} {nesting found : Nesting} {address other : Int}
  {visit : Visit} {visits : List Visit}

/-- An address has a record at least so deep. -/
def Recorded (records : Std.TreeMap Int Nesting) (address depth : Int) : Prop :=
  ∃ found, records[address]? = some found ∧ depth ≤ found.depth

private theorem getElem?_deepen (records : Std.TreeMap Int Nesting) (nesting : Nesting)
    (other address : Int) : (deepen records nesting other)[address]? =
      if other = address then
        some (match records[address]? with
          | some found => Agenda.deeper found nesting
          | none => nesting)
      else records[address]? := by
  by_cases heq : other = address
  · subst heq
    rw [if_pos rfl, deepen]
    cases hknown : records[other]? with
    | none => simp
    | some found =>
      simp only [Agenda.deeper]
      split
      · simp
      · exact hknown
  · have hinsert : (records.insert other nesting)[address]? = records[address]? := by
      simp only [Std.TreeMap.getElem?_insert, Std.compare_eq_iff_eq, if_neg heq]
    rw [if_neg heq, deepen]
    split
    · split
      · exact hinsert
      · rfl
    · exact hinsert

private theorem eq_or_of_getElem?_deepen
    (hfound : (deepen records nesting other)[address]? = some found) :
    records[address]? = some found ∨ other = address ∧ found = nesting := by
  rw [getElem?_deepen] at hfound
  split at hfound
  · rename_i heq
    obtain rfl := Option.some.inj hfound
    split
    · rename_i known hknown
      obtain hsame | hsame := Agenda.deeper_eq_or known nesting
      · exact Or.inl (by rw [hknown, hsame])
      · exact Or.inr ⟨heq, hsame⟩
    · exact Or.inr ⟨heq, rfl⟩
  · exact Or.inl hfound

private theorem recorded_deepen_self (records : Std.TreeMap Int Nesting) (nesting : Nesting)
    (address : Int) : Recorded (deepen records nesting address) address nesting.depth := by
  refine ⟨_, (getElem?_deepen ..).trans (if_pos rfl), ?_⟩
  split
  · exact Agenda.le_depth_deeper_right _ _
  · exact Int.le_refl _

private theorem Recorded.deepen {depth : Int} (hrecorded : Recorded records address depth)
    (nesting : Nesting) (other : Int) : Recorded (deepen records nesting other) address depth := by
  obtain ⟨known, hknown, hdepth⟩ := hrecorded
  unfold Recorded
  rw [getElem?_deepen, hknown]
  split
  · exact ⟨_, rfl, Int.le_trans hdepth (Agenda.le_depth_deeper_left known nesting)⟩
  · exact ⟨known, rfl, hdepth⟩

/-- The passes of visits over addresses, each with the nesting of its visit. -/
private def passes (visits : List Visit) : List (Nesting × Int) :=
  visits.flatMap fun visit => visit.stretch.addresses.map (visit.arrival.nesting, ·)

private theorem mem_passes : (nesting, address) ∈ passes visits ↔
    ∃ visit ∈ visits, address ∈ visit.stretch.addresses ∧ visit.arrival.nesting = nesting := by
  simp [passes]

private theorem records_eq_foldl (visits : List Visit) :
    Analysis.records visits =
      (passes visits).foldl (fun records pass => deepen records pass.1 pass.2) ∅ := by
  simp only [Analysis.records, passes, List.foldl_flatMap, List.foldl_map]

/-- A record is the nesting of some visit that passes the address. -/
theorem exists_visit_of_record (hfound : (Analysis.records visits)[address]? = some found) :
    ∃ visit ∈ visits, address ∈ visit.stretch.addresses ∧ visit.arrival.nesting = found := by
  have hfold (list : List (Nesting × Int)) (records : Std.TreeMap Int Nesting)
      (hfound : (list.foldl (fun records pass => deepen records pass.1 pass.2) records)[address]? =
        some found) : records[address]? = some found ∨ (found, address) ∈ list := by
    induction list generalizing records with
    | nil => exact Or.inl hfound
    | cons pass rest ih =>
      obtain hknown | hrest := ih _ hfound
      · obtain hknown | ⟨rfl, rfl⟩ := eq_or_of_getElem?_deepen hknown
        · exact Or.inl hknown
        · exact Or.inr List.mem_cons_self
      · exact Or.inr (List.mem_cons_of_mem _ hrest)
  rw [records_eq_foldl] at hfound
  obtain hempty | hpass := hfold _ _ hfound
  · simp at hempty
  · exact mem_passes.mp hpass

/-- An address that a visit passes has a record, and none of the visits is deeper. -/
theorem recorded_of_visit (hvisit : visit ∈ visits) (hpass : address ∈ visit.stretch.addresses) :
    Recorded (Analysis.records visits) address visit.arrival.nesting.depth := by
  have hkeep (list : List (Nesting × Int)) (records : Std.TreeMap Int Nesting) (depth : Int)
      (hrecorded : Recorded records address depth) :
      Recorded (list.foldl (fun records pass => deepen records pass.1 pass.2) records) address
        depth := by
    induction list generalizing records with
    | nil => exact hrecorded
    | cons pass rest ih => exact ih _ (hrecorded.deepen pass.1 pass.2)
  have hmem := mem_passes.mpr ⟨visit, hvisit, hpass, rfl⟩
  obtain ⟨before, behind, hsplit⟩ := List.append_of_mem hmem
  rw [records_eq_foldl, hsplit, List.foldl_append, List.foldl_cons]
  exact hkeep _ _ _ (recorded_deepen_self _ _ _)

end Analysis

end Midrange.Depth
