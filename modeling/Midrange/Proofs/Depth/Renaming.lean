import Midrange.Proofs.Depth.Coverage
import Midrange.Proofs.Graph.Renaming
import Midrange.Proofs.Matching

namespace Midrange

/-- Entries at one address, within some addresses, in routines that differ in their names. -/
structure Entry.Renames (R : String → String → Prop) (within : Int → Prop) (entry entry' : Entry) :
    Prop where
  within : within entry.start
  start_eq : entry.start = entry'.start
  routine : R entry.routine entry'.routine

theorem Entry.biUnique_renames {R : String → String → Prop} {within : Int → Prop}
    (hunique : Relator.BiUnique R) : Relator.BiUnique (Entry.Renames R within) := by
  constructor
  · rintro ⟨start, routine⟩ ⟨start', routine'⟩ entry ⟨_, hstart, hroutine⟩ ⟨_, hstart', hroutine'⟩
    obtain rfl : start = start' := hstart.trans hstart'.symm
    obtain rfl : routine = routine' := hunique.1 hroutine hroutine'
    rfl
  · rintro entry ⟨start, routine⟩ ⟨start', routine'⟩ ⟨_, hstart, hroutine⟩ ⟨_, hstart', hroutine'⟩
    obtain rfl : start = start' := hstart.symm.trans hstart'
    obtain rfl : routine = routine' := hunique.2 hroutine hroutine'
    rfl

namespace Depth

variable {R : String → String → Prop} {within : Int → Prop}

/-- Seeds that differ in their labels only, within some addresses. -/
structure Seed.Renames (R : String → String → Prop) (within : Int → Prop) (seed seed' : Seed) :
    Prop where
  within : within seed.address
  address_eq : seed.address = seed'.address
  depth_eq : seed.depth = seed'.depth
  label : R seed.label seed'.label

namespace Seed.Renames

variable {seed seed' : Seed} (hrenames : seed.Renames R within seed')

include hrenames

theorem symm : seed'.Renames (flip R) within seed where
  within := hrenames.address_eq ▸ hrenames.within
  address_eq := hrenames.address_eq.symm
  depth_eq := hrenames.depth_eq.symm
  label := hrenames.label

theorem entry : seed.entry.Renames R within seed'.entry :=
  ⟨hrenames.within, hrenames.address_eq, hrenames.label⟩

end Seed.Renames

/-- Code that differs from other code in its names only. What control can do from some addresses
    stays within them, and the names that it meets there tell the same targets apart. -/
structure Code.Renames (R : String → String → Prop) (within : Int → Prop) (code code' : Code) :
    Prop where
  unique : Relator.BiUnique R
  image_eq : code.image = code'.image
  stretch_eq : code.stretch = code'.stretch
  within_target : ∀ {start : Int} {departure : Departure}, within start →
    departure ∈ (code.stretch start).departures → within departure.target
  nameOf : ∀ {start : Int} {kind : BranchKind} {site target : Int}, within start →
    .branch kind site target ∈ (code.stretch start).departures →
      R (code.symbols.nameOf target) (code'.symbols.nameOf target)

namespace Code.Renames

variable {code code' : Code} {entry entry' : Entry} {departure : Departure}
  (hrenames : code.Renames R within code')

include hrenames

theorem symm : code'.Renames (flip R) within code where
  unique := biUnique_flip hrenames.unique
  image_eq := hrenames.image_eq.symm
  stretch_eq := hrenames.stretch_eq.symm
  within_target hwithin hmem := hrenames.within_target hwithin (hrenames.stretch_eq ▸ hmem)
  nameOf hwithin hmem := hrenames.nameOf hwithin (hrenames.stretch_eq ▸ hmem)

variable (hentry : entry.Renames R within entry')

include hentry

theorem departures_eq : (code.stretch entry.start).departures =
    (code'.stretch entry'.start).departures := by
  rw [hrenames.stretch_eq, hentry.start_eq]

theorem departures : List.Forall₂ (fun departure departure' => departure = departure' ∧
    departure ∈ (code.stretch entry.start).departures) (code.stretch entry.start).departures
      (code'.stretch entry'.start).departures := by
  rw [← hrenames.departures_eq hentry]
  exact List.forall₂_same.mpr fun departure hmem => ⟨rfl, hmem⟩

theorem enter (hmem : departure ∈ (code.stretch entry.start).departures) :
    (code.enter entry.routine departure).Renames R within
      (code'.enter entry'.routine departure) := by
  have hwithin := hrenames.within_target hentry.within hmem
  cases departure with
  | skip target => exact ⟨hwithin, rfl, hentry.routine⟩
  | branch kind site target => exact ⟨hwithin, rfl, hrenames.nameOf hentry.within hmem⟩

end Code.Renames

namespace Chart

variable {chart chart' : Chart} {entry entry' : Entry} {seeds seeds' : List Seed}
  {entries entries' : List Entry} (hrenames : chart.code.Renames R within chart'.code)

include hrenames

theorem renames_successors (hentry : entry.Renames R within entry') :
    List.Forall₂ (Entry.Renames R within) (chart.successors entry) (chart'.successors entry') := by
  simp only [successors, stretch_eq]
  refine List.rel_map (fun departure _ hdeparture => ?_) (hrenames.departures hentry)
  obtain ⟨rfl, hmem⟩ := hdeparture
  exact hrenames.enter hentry hmem

/-- Names make no difference to the order in which entries are met. -/
theorem renames_entries (hseeds : List.Forall₂ (Seed.Renames R within) seeds seeds') :
    List.Forall₂ (Entry.Renames R within) (chart.entries seeds) (chart'.entries seeds') := by
  have hbound : chart.entryBound seeds = chart'.entryBound seeds' := by
    rw [entryBound, entryBound, Code.startBound, Code.startBound, hrenames.image_eq,
      hseeds.length_eq]
  have hstarts : List.Forall₂ (Entry.Renames R within) (seeds.map Seed.entry)
      (seeds'.map Seed.entry) := by
    rw [List.forall₂_map_left_iff, List.forall₂_map_right_iff]
    exact hseeds.imp fun _ _ hseed => hseed.entry
  rw [entries, entries, hbound]
  exact Graph.forall₂_reach (Entry.biUnique_renames hrenames.unique)
    (renames_successors hrenames) hstarts

theorem renames_branchesOf (hentry : entry.Renames R within entry') :
    List.Forall₂ (fun branch branch' => R branch.1.target branch'.1.target ∧ branch.2 = branch'.2)
      (chart.branchesOf entry) (chart'.branchesOf entry') := by
  refine List.rel_filterMap (fun departure _ hdeparture => ?_) (hrenames.departures hentry)
  obtain ⟨rfl, hmem⟩ := hdeparture
  cases departure with
  | skip => exact .none
  | branch kind site target => exact .some ⟨hrenames.nameOf hentry.within hmem, rfl⟩

/-- Routines start at the same addresses whatever they are called. -/
theorem matches_entries_callGraph (hseeds : List.Forall₂ (Seed.Renames R within) seeds seeds')
    (hentries : List.Forall₂ (Entry.Renames R within) entries entries') :
    Matches R Eq (chart.callGraph seeds entries).entries
      (chart'.callGraph seeds' entries').entries := by
  have hbranches := List.rel_flatMap hentries fun _ _ hentry => renames_branchesOf hrenames hentry
  have hseeded :
      Matches R Eq (seeds.foldl (fun found seed => found.insert seed.label seed.address) ∅)
        (seeds'.foldl (fun found seed => found.insert seed.label seed.address) ∅) :=
    List.rel_foldl (fun _ _ hfound _ _ hseed =>
      hfound.insert hrenames.unique hseed.label hseed.address_eq) .empty hseeds
  rw [entries_callGraph, entries_callGraph]
  exact List.rel_foldl
    (fun _ _ hfound _ _ hbranch => hfound.insertIfNew hrenames.unique hbranch.1 hbranch.2)
    hseeded hbranches

end Chart

/-- Where seeds at one address have one label, labels make no difference to the order of seeds. -/
private theorem precedes_eq {first second : Seed}
    (hlabel : first.address = second.address → first.label = second.label) :
    first.precedes second =
      if first.address ≠ second.address then decide (first.address < second.address)
      else decide (first.depth < second.depth) := by
  unfold Seed.precedes
  split
  · rfl
  · rename_i haddress
    split
    · rfl
    · rename_i hdepth
      simp [hlabel (Classical.not_not.mp haddress), Classical.not_not.mp hdepth]

private theorem renames_roots {seeds seeds' : List Seed}
    (hseeds : List.Forall₂ (Seed.Renames R within) seeds seeds')
    (hlabel : ∀ first ∈ seeds, ∀ second ∈ seeds, first.address = second.address →
      first.label = second.label)
    (hlabel' : ∀ first ∈ seeds', ∀ second ∈ seeds', first.address = second.address →
      first.label = second.label) :
    List.Forall₂ R (Analysis.roots seeds) (Analysis.roots seeds') := by
  have hmap : List.Forall₂ R (seeds.map (·.label)) (seeds'.map (·.label)) := by
    rw [List.forall₂_map_left_iff, List.forall₂_map_right_iff]
    exact hseeds.imp fun _ _ hseed => hseed.label
  obtain _ | @⟨first, first', _, _, hfirst, _ | @⟨second, second', _, _, hsecond, _ | _⟩⟩ := hseeds
  · exact .nil
  · exact hmap
  · have hprecedes : second.precedes first = second'.precedes first' := by
      rw [precedes_eq (hlabel second (by simp) first (by simp)),
        precedes_eq (hlabel' second' (by simp) first' (by simp)), hfirst.address_eq,
        hfirst.depth_eq, hsecond.address_eq, hsecond.depth_eq]
    simp only [Analysis.roots, hprecedes]
    split
    · exact .cons hsecond.label (.cons hfirst.label .nil)
    · exact .cons hfirst.label (.cons hsecond.label .nil)
  · exact hmap

theorem exists_of_forall₂ {α β : Type} {P : α → β → Prop} {members : List α} {members' : List β}
    {member : α} (hmembers : List.Forall₂ P members members') (hmem : member ∈ members) :
    ∃ member' ∈ members', P member member' := by
  induction hmembers with
  | nil => cases hmem
  | @cons first first' rest rest' hfirst _ ih =>
    obtain rfl | hmem := List.mem_cons.mp hmem
    · exact ⟨first', List.mem_cons_self, hfirst⟩
    · obtain ⟨member', hmem', hmember⟩ := ih hmem
      exact ⟨member', List.mem_cons_of_mem _ hmem', hmember⟩

/-- A plan that differs from another one in names only: it follows the same code from the same
    seeds, cuts recursion and obeys the same limit. -/
structure Plan.Renames (R : String → String → Prop) (within : Int → Prop) (plan : Plan)
    (seeds : List Seed) (plan' : Plan) (seeds' : List Seed) : Prop where
  code : plan.chart.code.Renames R within plan'.chart.code
  renames_seeds : List.Forall₂ (Seed.Renames R within) seeds seeds'
  names : plan.NamesSeeds seeds
  names' : plan'.NamesSeeds seeds'
  cuts : plan.CutsRecursion seeds
  cuts' : plan'.CutsRecursion seeds'
  maxDepth_eq : plan.maxDepth = plan'.maxDepth

namespace Plan.Renames

variable {plan plan' : Plan} {seeds seeds' : List Seed}
  (hrenames : plan.Renames R within seeds plan' seeds')

include hrenames

theorem symm : plan'.Renames (flip R) within seeds' plan seeds where
  code := hrenames.code.symm
  renames_seeds := List.Forall₂.flip (hrenames.renames_seeds.imp fun _ _ hseed => hseed.symm)
  names := hrenames.names'
  names' := hrenames.names
  cuts := hrenames.cuts'
  cuts' := hrenames.cuts
  maxDepth_eq := hrenames.maxDepth_eq.symm

theorem entries : List.Forall₂ (Entry.Renames R within) (plan.chart.entries seeds)
    (plan'.chart.entries seeds') :=
  Chart.renames_entries hrenames.code hrenames.renames_seeds

theorem matches_graph : Matches R Eq (plan.graph seeds).entries (plan'.graph seeds').entries :=
  Chart.matches_entries_callGraph hrenames.code hrenames.renames_seeds hrenames.entries

private theorem exists_has {source target : String} {kind : BranchKind}
    (hhas : (plan.graph seeds).Has ⟨source, target, kind⟩) :
    ∃ source' target', R source source' ∧ R target target' ∧
      (plan'.graph seeds').Has ⟨source', target', kind⟩ := by
  obtain ⟨entry, hmet, site, address, hmem, rfl, rfl⟩ := has_graph_iff.mp hhas
  obtain ⟨entry', hmet', hentry⟩ := exists_of_forall₂ hrenames.entries hmet
  have htarget := hrenames.code.nameOf hentry.within hmem
  rw [hrenames.code.departures_eq hentry] at hmem
  exact ⟨_, _, hentry.routine, htarget,
    has_graph_iff.mpr ⟨entry', hmet', site, address, hmem, rfl, rfl⟩⟩

/-- The links of the two graphs correspond to each other. -/
theorem graph : CallGraph.Renames R (plan.graph seeds) (plan'.graph seeds') where
  unique := hrenames.code.unique
  exists_right := hrenames.exists_has
  exists_left hhas := by
    obtain ⟨source, target, hsource, htarget, hhas⟩ := hrenames.symm.exists_has hhas
    exact ⟨source, target, hsource, htarget, hhas⟩
  start_eq {link link'} hhas hhas' htarget := by
    simp only [CallGraph.entry, Std.TreeMap.getD_eq_getD_getElem?,
      hrenames.matches_graph.getElem?_eq htarget]
  target_unique {link other} hhas hhas' hstart := by
    have hlink := nameOf_start hrenames.names (target_mem_graph hhas)
    have hother := nameOf_start hrenames.names (target_mem_graph hhas')
    rw [← hlink, hstart, hother]

theorem roots : List.Forall₂ R (Analysis.roots seeds) (Analysis.roots seeds') := by
  have hlabel {plan : Plan} {seeds : List Seed} (hnames : plan.NamesSeeds seeds) :
      ∀ first ∈ seeds, ∀ second ∈ seeds, first.address = second.address →
        first.label = second.label := by
    intro first hfirst second hsecond haddress
    rw [hnames first hfirst, hnames second hsecond, haddress]
  exact renames_roots hrenames.renames_seeds (hlabel hrenames.names) (hlabel hrenames.names')

/-- Recursion is cut on corresponding links. -/
theorem mem_cut_iff {ends ends' : Ends} (hends : ends.Renames R ends') :
    ends ∈ plan.cut ↔ ends' ∈ plan'.cut := by
  rw [hrenames.cuts, hrenames.cuts']
  exact hrenames.graph.mem_recursion_iff hrenames.roots hends

end Plan.Renames

end Depth

end Midrange
