import Mathlib.Data.Finset.Prod
import Midrange.Depth.Analysis
import Midrange.Proofs.Depth.Path
import Midrange.Proofs.Graph.Reach

namespace Midrange.Depth

open Midrange.Graph (Reaches)

variable {code : Code} {chart : Chart} {seeds : List Seed} {entry : Entry}

/-- The addresses to which the words of an image can branch, one in each page. -/
def branchTargets (image : Image) : List Int :=
  image.toList.flatMap fun (_, word) =>
    [0, 1, 2, 3].map fun page => word % pageSize + pageSize * page

/-- The addresses for which control can leave. -/
def departureTargets (image : Image) : List Int :=
  image.toList.map (fun (address, _) => address + 2) ++ branchTargets image

theorem length_branchTargets (image : Image) : (branchTargets image).length = 4 * image.size := by
  have hlength : image.toList.length = image.size := Std.TreeMap.length_toList
  simp [branchTargets, hlength, Nat.mul_comm]

theorem length_departureTargets (image : Image) :
    (departureTargets image).length = 5 * image.size := by
  have hlength : image.toList.length = image.size := Std.TreeMap.length_toList
  rw [departureTargets, List.length_append, List.length_map, length_branchTargets, hlength]
  omega

private theorem mem_branchTargets {image : Image} {address word page : Int}
    (hword : image.word? address = some word) (hpage : 0 ≤ page ∧ page < 4) :
    word % pageSize + pageSize * page ∈ branchTargets image := by
  refine List.mem_flatMap.mpr ⟨(address, word), ?_, List.mem_map_of_mem ?_⟩
  · exact Std.TreeMap.mem_toList_iff_getElem?_eq_some.mpr hword
  · have : page = 0 ∨ page = 1 ∨ page = 2 ∨ page = 3 := by omega
    simpa using this

theorem target_mem_branchTargets {start site target : Int} {kind : BranchKind}
    (hmem : .branch kind site target ∈ (code.stretch start).departures) :
    target ∈ branchTargets code.image := by
  obtain ⟨instruction, hvalid, hword, hoffers⟩ := exists_instruction_of_mem_departures hmem
  unfold departure? at hoffers
  simp only at hoffers
  split at hoffers
  · obtain ⟨found, htarget, hbranch⟩ := Option.map_eq_some_iff.mp hoffers
    obtain ⟨-, -, rfl⟩ := Departure.branch.inj hbranch
    rw [Instruction.target?_eq_some htarget]
    exact mem_branchTargets hword hvalid.2
  · split at hoffers <;> cases hoffers

theorem target_mem_departureTargets {start : Int} {departure : Departure}
    (hmem : departure ∈ (code.stretch start).departures) :
    departure.target ∈ departureTargets code.image := by
  cases departure with
  | branch kind site target => exact List.mem_append_right _ (target_mem_branchTargets hmem)
  | skip target =>
    obtain ⟨instruction, _, hword, hoffers⟩ := exists_instruction_of_mem_departures hmem
    unfold departure? at hoffers
    simp only at hoffers
    split at hoffers
    · obtain ⟨_, _, hskip⟩ := Option.map_eq_some_iff.mp hoffers
      cases hskip
    · split at hoffers
      · obtain rfl := Departure.skip.inj (Option.some.inj hoffers)
        refine List.mem_append_left _ (List.mem_map.mpr ⟨(_, instruction.word), ?_, rfl⟩)
        exact Std.TreeMap.mem_toList_iff_getElem?_eq_some.mpr hword
      · cases hoffers

namespace Chart

theorem mem_successors_iff {other : Entry} : other ∈ chart.successors entry ↔
    ∃ levels, chart.code.Step ∅ entry levels other := by
  simp only [successors, stretch_eq, List.mem_map]
  constructor
  · rintro ⟨departure, hmem, rfl⟩
    exact Code.exists_step entry hmem
  · rintro ⟨_, hstep⟩
    cases hstep with
    | skip hmem => exact ⟨_, hmem, rfl⟩
    | goto hmem _ => exact ⟨_, hmem, rfl⟩
    | call hmem _ => exact ⟨_, hmem, rfl⟩

theorem reaches_successors_iff {other : Entry} : Reaches chart.successors entry other ↔
    ∃ levels, chart.code.Path ∅ entry levels other := by
  constructor
  · intro hreach
    induction hreach with
    | refl => exact ⟨0, .refl entry⟩
    | tail _ hstep ih =>
      obtain ⟨levels, hpath⟩ := ih
      obtain ⟨more, hstep⟩ := mem_successors_iff.mp hstep
      exact ⟨levels + more, hpath.step hstep⟩
  · rintro ⟨_, hpath⟩
    induction hpath with
    | refl => exact .refl _
    | step _ hstep ih => exact ih.tail (mem_successors_iff.mpr ⟨_, hstep⟩)

/-- There are no more entries than their bound. -/
private theorem exists_entries (chart : Chart) (seeds : List Seed) :
    ∃ members : Finset Entry, (∀ seed ∈ seeds, seed.entry ∈ members) ∧
      (∀ entry ∈ members, ∀ other ∈ chart.successors entry, other ∈ members) ∧
      members.card ≤ chart.entryBound seeds := by
  let starts := (departureTargets chart.code.image ++ seeds.map (·.address)).toFinset
  let routines :=
    ((branchTargets chart.code.image).map chart.code.symbols.nameOf ++ seeds.map (·.label)).toFinset
  let members := (starts ×ˢ routines).image fun pair => (⟨pair.1, pair.2⟩ : Entry)
  have hmem (entry : Entry) :
      entry ∈ members ↔ entry.start ∈ starts ∧ entry.routine ∈ routines := by
    simp only [members, Finset.mem_image, Finset.mem_product]
    constructor
    · rintro ⟨_, hboth, rfl⟩
      exact hboth
    · exact fun hboth => ⟨(entry.start, entry.routine), hboth, rfl⟩
  refine ⟨members, fun seed hseed => (hmem _).mpr ⟨?_, ?_⟩, ?_, ?_⟩
  · exact List.mem_toFinset.mpr (List.mem_append_right _ (List.mem_map_of_mem hseed))
  · exact List.mem_toFinset.mpr (List.mem_append_right _ (List.mem_map_of_mem hseed))
  · intro entry hentry other hother
    simp only [successors, stretch_eq, List.mem_map] at hother
    obtain ⟨departure, hdeparture, rfl⟩ := hother
    have htarget := target_mem_departureTargets hdeparture
    rw [hmem]
    cases departure with
    | skip target =>
      exact ⟨List.mem_toFinset.mpr (List.mem_append_left _ htarget), ((hmem entry).mp hentry).2⟩
    | branch kind site target =>
      refine ⟨List.mem_toFinset.mpr (List.mem_append_left _ htarget), List.mem_toFinset.mpr ?_⟩
      exact List.mem_append_left _ (List.mem_map_of_mem (target_mem_branchTargets hdeparture))
  · have hstarts : starts.card ≤ chart.code.startBound seeds := by
      have hle := List.toFinset_card_le (departureTargets chart.code.image ++ seeds.map (·.address))
      rwa [List.length_append, length_departureTargets, List.length_map] at hle
    have hroutines : routines.card ≤ 4 * chart.code.image.size + seeds.length := by
      have hle := List.toFinset_card_le
        ((branchTargets chart.code.image).map chart.code.symbols.nameOf ++ seeds.map (·.label))
      rwa [List.length_append, List.length_map, length_branchTargets, List.length_map] at hle
    calc members.card
        ≤ (starts ×ˢ routines).card := Finset.card_image_le
      _ = starts.card * routines.card := Finset.card_product _ _
      _ ≤ chart.entryBound seeds := Nat.mul_le_mul hstarts hroutines

/-- Steps from the seeds lead to no more entries than their bound. -/
private theorem exists_reached (chart : Chart) (seeds : List Seed) : ∃ members : Finset Entry,
    (∀ start ∈ seeds.map Seed.entry, ∀ member,
      Reaches chart.successors start member → member ∈ members) ∧
      members.card ≤ chart.entryBound seeds := by
  obtain ⟨members, hseeds, hclosed, hcard⟩ := chart.exists_entries seeds
  refine ⟨members, fun start hstart member hreach => ?_, hcard⟩
  obtain ⟨seed, hseed, rfl⟩ := List.mem_map.mp hstart
  exact hreach.closed hclosed (hseeds seed hseed)

/-- The entries are those that control can reach from the seeds. -/
theorem mem_entries_iff : entry ∈ chart.entries seeds ↔ chart.code.Enters seeds entry := by
  obtain ⟨members, hmembers, hcard⟩ := chart.exists_reached seeds
  rw [entries, Graph.mem_reach_iff members hmembers hcard]
  simp only [List.mem_map, exists_exists_and_eq_and, reaches_successors_iff]
  constructor
  · rintro ⟨seed, hseed, levels, hpath⟩
    exact ⟨_, seed, hseed, levels, hpath, rfl⟩
  · rintro ⟨_, seed, hseed, levels, hpath, -⟩
    exact ⟨seed, hseed, levels, hpath⟩

/-- The bound on the entries is fuel enough to meet all of them. -/
theorem reach_eq_entries {fuel : Nat} (hfuel : chart.entryBound seeds ≤ fuel) :
    Graph.reach chart.successors fuel (seeds.map Seed.entry) = chart.entries seeds := by
  obtain ⟨members, hmembers, hcard⟩ := chart.exists_reached seeds
  exact Graph.reach_eq_of_le members hmembers hcard hfuel

end Chart

end Midrange.Depth
