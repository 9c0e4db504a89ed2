import Midrange.Proofs.Depth.Coverage
import Midrange.Proofs.Depth.Schedule
import Midrange.Proofs.Graph.Renaming

namespace Midrange.Depth

/-- Where a departure leads, and whether by a call, by a goto or by a skip. -/
def Departure.way : Departure → Option BranchKind × Int
  | .skip target => (none, target)
  | .branch kind _ target => (some kind, target)

/-- Two stretches that pass the same addresses and depart the same ways, in whatever order. -/
structure Stretch.SameWays (stretch stretch' : Stretch) : Prop where
  mem_addresses_iff : ∀ address, address ∈ stretch.addresses ↔ address ∈ stretch'.addresses
  mem_ways_iff : ∀ way, way ∈ stretch.departures.map Departure.way ↔
    way ∈ stretch'.departures.map Departure.way

theorem Stretch.SameWays.of_perm {stretch stretch' : Stretch}
    (haddresses : stretch.addresses.Perm stretch'.addresses)
    (hways : (stretch.departures.map Departure.way).Perm (stretch'.departures.map Departure.way)) :
    stretch.SameWays stretch' :=
  ⟨fun _ => haddresses.mem_iff, fun _ => hways.mem_iff⟩

namespace Stretch.SameWays

variable {stretch stretch' : Stretch} {kind : BranchKind} {site target : Int}
  (hsame : stretch.SameWays stretch')

include hsame

theorem symm : stretch'.SameWays stretch :=
  ⟨fun address => (hsame.mem_addresses_iff address).symm, fun way => (hsame.mem_ways_iff way).symm⟩

theorem skip_mem (hmem : .skip target ∈ stretch.departures) :
    .skip target ∈ stretch'.departures := by
  obtain ⟨departure, hdeparture, hway⟩ :=
    List.mem_map.mp ((hsame.mem_ways_iff _).mp (List.mem_map_of_mem hmem))
  cases departure with
  | skip other =>
    obtain rfl : other = target := congrArg Prod.snd hway
    exact hdeparture
  | branch => cases congrArg Prod.fst hway

theorem exists_branch_mem (hmem : .branch kind site target ∈ stretch.departures) :
    ∃ site', .branch kind site' target ∈ stretch'.departures := by
  obtain ⟨departure, hdeparture, hway⟩ :=
    List.mem_map.mp ((hsame.mem_ways_iff _).mp (List.mem_map_of_mem hmem))
  cases departure with
  | skip => cases congrArg Prod.fst hway
  | branch other site' =>
    obtain rfl : other = kind := Option.some.inj (congrArg Prod.fst hway)
    obtain rfl := congrArg Prod.snd hway
    exact ⟨site', hdeparture⟩

end Stretch.SameWays

namespace Code

/-- Control passes at least one address from a start on. -/
def Passes (code : Code) (start : Int) : Prop :=
  (code.stretch start).addresses ≠ []

instance (code : Code) (start : Int) : Decidable (code.Passes start) :=
  inferInstanceAs (Decidable (_ ≠ _))

variable {code code' : Code} {cut cut' : Std.TreeSet Ends} {seeds seeds' : List Seed}
  {start address : Int} {departure : Departure} {first second entry : Entry}
  {levels depth limit : Int}

theorem passes_of_mem_addresses (hmem : address ∈ (code.stretch start).addresses) :
    code.Passes start :=
  List.ne_nil_of_mem hmem

theorem passes_of_sameWays (hsame : (code.stretch start).SameWays (code'.stretch start))
    (hpasses : code.Passes start) : code'.Passes start := by
  obtain ⟨address, hmem⟩ := List.exists_mem_of_ne_nil _ hpasses
  exact passes_of_mem_addresses ((hsame.mem_addresses_iff address).mp hmem)

theorem passes_of_mem_departures (hmem : departure ∈ (code.stretch start).departures) :
    code.Passes start := by
  obtain ⟨ending, hhalted⟩ | ⟨_, _, hlead⟩ :=
    follow_eq_halted_or_lead code code.image.size start (.atEntry start) false
  · rw [stretch, hhalted] at hmem
    cases hmem
  · rw [Passes, stretch, hlead]
    exact List.cons_ne_nil _ _

theorem Passes.isPresent (hpasses : code.Passes start) : code.image.isPresent start = true := by
  cases hword : code.wordAt start with
  | error ending =>
    refine absurd ?_ hpasses
    unfold stretch
    cases code.image.size <;> simp [follow, hword, Stretch.halted]
  | ok word =>
    rw [Image.isPresent_eq_isSome_word?, word?_of_wordAt hword]
    rfl

/-- A seed from which control passes something is one whose address holds a word. -/
private theorem filter_seed (code : Code) (seed : Seed) :
    (if code.image.isPresent seed.address then some seed else none).filter
        (fun seed => code.Passes seed.address) =
      if code.Passes seed.address then some seed else none := by
  by_cases hpasses : code.Passes seed.address
  · simp [hpasses.isPresent, Option.filter, hpasses]
  · split <;> simp [Option.filter, hpasses]

theorem Step.passes (hstep : code.Step cut first levels second) : code.Passes first.start := by
  cases hstep with
  | skip hmem | goto hmem | call hmem => exact passes_of_mem_departures hmem

theorem Path.passes (hpath : code.Path cut first levels second)
    (hpasses : code.Passes second.start) : code.Passes first.start := by
  induction hpath with
  | refl => exact hpasses
  | step _ hstep ih => exact ih hstep.passes

/-- Code in which control goes the same ways as in other code from each address where it can start
    in either, in whatever order, with the same names and the same seeds. Seeds from which control
    passes nothing do not count. -/
structure Reorders (code : Code) (seeds : List Seed) (code' : Code) (seeds' : List Seed) :
    Prop where
  nameOf_eq : code.symbols.nameOf = code'.symbols.nameOf
  sameWays : ∀ start, code.Starts seeds start ∨ code'.Starts seeds' start →
    (code.stretch start).SameWays (code'.stretch start)
  seeds_eq : seeds.filter (fun seed => code.Passes seed.address) =
    seeds'.filter (fun seed => code'.Passes seed.address)

namespace Reorders

variable (hreorders : code.Reorders seeds code' seeds')

include hreorders

theorem symm : code'.Reorders seeds' code seeds where
  nameOf_eq := hreorders.nameOf_eq.symm
  sameWays start hstarts := (hreorders.sameWays start hstarts.symm).symm
  seeds_eq := hreorders.seeds_eq.symm

theorem mem_seeds {seed : Seed} (hpasses : code.Passes seed.address) (hseed : seed ∈ seeds) :
    seed ∈ seeds' := by
  have hmem : seed ∈ seeds.filter (fun seed => code.Passes seed.address) :=
    List.mem_filter.mpr ⟨hseed, decide_eq_true hpasses⟩
  rw [hreorders.seeds_eq] at hmem
  exact (List.mem_filter.mp hmem).1

theorem sameWays_of_arrivesAt (harrives : code.ArrivesAt cut seeds entry depth) :
    (code.stretch entry.start).SameWays (code'.stretch entry.start) :=
  hreorders.sameWays _ (Or.inl harrives.starts)

variable (hcut : ∀ ends, ends ∈ cut ↔ ends ∈ cut')

include hcut

theorem step (harrives : code.ArrivesAt cut seeds first depth)
    (hstep : code.Step cut first levels second) : code'.Step cut' first levels second := by
  have hsame := hreorders.sameWays_of_arrivesAt harrives
  cases hstep with
  | skip hmem => exact .skip (hsame.skip_mem hmem)
  | goto hmem huncut =>
    obtain ⟨_, hmem⟩ := hsame.exists_branch_mem hmem
    rw [hreorders.nameOf_eq, hcut] at huncut
    rw [hreorders.nameOf_eq]
    exact .goto hmem huncut
  | call hmem huncut =>
    obtain ⟨_, hmem⟩ := hsame.exists_branch_mem hmem
    rw [hreorders.nameOf_eq, hcut] at huncut
    rw [hreorders.nameOf_eq]
    exact .call hmem huncut

theorem arrivesAt (harrives : code.ArrivesAt cut seeds entry depth)
    (hpasses : code.Passes entry.start) : code'.ArrivesAt cut' seeds' entry depth := by
  obtain ⟨seed, hseed, levels, hpath, rfl⟩ := harrives
  have hmem := hreorders.mem_seeds (hpath.passes hpasses) hseed
  -- only the seed has to pass something, the rest of the path is followed without that
  clear hpasses
  refine ⟨seed, hmem, levels, ?_, rfl⟩
  induction hpath with
  | refl => exact .refl _
  | step hpath hstep ih => exact ih.step (hreorders.step hcut ⟨seed, hseed, _, hpath, rfl⟩ hstep)

theorem mem_depthsAt (hdepth : depth ∈ code.depthsAt cut seeds address) :
    depth ∈ code'.depthsAt cut' seeds' address := by
  obtain ⟨entry, harrives, hmem⟩ := hdepth
  have hsame := hreorders.sameWays_of_arrivesAt harrives
  exact ⟨entry, hreorders.arrivesAt hcut harrives (passes_of_mem_addresses hmem),
    (hsame.mem_addresses_iff address).mp hmem⟩

theorem depthsAt_eq (address : Int) :
    code.depthsAt cut seeds address = code'.depthsAt cut' seeds' address :=
  Set.Subset.antisymm (fun _ hdepth => hreorders.mem_depthsAt hcut hdepth)
    fun _ hdepth => hreorders.symm.mem_depthsAt (fun ends => (hcut ends).symm) hdepth

theorem overruns (hoverruns : code.Overruns cut seeds limit) :
    code'.Overruns cut' seeds' limit := by
  obtain ⟨entry, depth, site, target, harrives, hmem, huncut, hlimit⟩ := hoverruns
  obtain ⟨site', hmem'⟩ := (hreorders.sameWays_of_arrivesAt harrives).exists_branch_mem hmem
  have harrives := hreorders.arrivesAt hcut harrives (passes_of_mem_departures hmem)
  rw [hreorders.nameOf_eq, hcut] at huncut
  exact ⟨entry, depth, site', target, harrives, hmem', huncut, hlimit⟩

end Reorders

end Code

open DepthFirst (onward)

/-- Seeds from which no links lead on make no difference to the order of the roots from which links
    do. -/
private theorem onward_roots {seeds : List Seed} {next : String → List String}
    {counts : Seed → Bool} (hlength : seeds.length ≤ 2)
    (hcounts : ∀ seed ∈ seeds, next seed.label ≠ [] → counts seed = true) :
    onward next (Analysis.roots seeds) = onward next (Analysis.roots (seeds.filter counts)) := by
  have hdropped {seed : Seed} (hseed : seed ∈ seeds) (hcount : counts seed = false) :
      next seed.label = [] :=
    Classical.not_not.mp fun honward => by simp [hcounts seed hseed honward] at hcount
  obtain _ | ⟨first, _ | ⟨second, _ | ⟨_, _⟩⟩⟩ := seeds
  · rfl
  · cases hcount : counts first with
    | true => simp [hcount]
    | false => simp [hcount, Analysis.roots, onward, hdropped List.mem_cons_self hcount]
  · have hsecond : second ∈ [first, second] := List.mem_cons_of_mem _ List.mem_cons_self
    cases hcount : counts first with
    | true =>
      cases hcount' : counts second with
      | true => simp [hcount, hcount']
      | false =>
        have hnone := hdropped hsecond hcount'
        simp only [Analysis.roots, List.filter_cons, hcount, hcount']
        split <;> simp [onward, List.filter_cons, hnone]
    | false =>
      have hnone := hdropped List.mem_cons_self hcount
      cases hcount' : counts second with
      | true =>
        simp only [Analysis.roots, List.filter_cons, hcount, hcount']
        split <;> simp [onward, List.filter_cons, hnone]
      | false =>
        have hnone' := hdropped hsecond hcount'
        simp only [Analysis.roots, List.filter_cons, hcount, hcount']
        split <;> simp [onward, hnone, hnone']
  · simp at hlength

namespace Plan

variable {plan plan' : Plan} {seeds seeds' : List Seed}
  (hreorders : plan.chart.code.Reorders seeds plan'.chart.code seeds')

include hreorders

private theorem has_graph {link : Link} (hhas : (plan.graph seeds).Has link) :
    (plan'.graph seeds').Has link := by
  obtain ⟨entry, hentry, site, address, hmem, hsource, htarget⟩ := has_graph_iff.mp hhas
  obtain ⟨depth, harrives⟩ := Chart.mem_entries_iff.mp hentry
  obtain ⟨site', hmem'⟩ := (hreorders.sameWays_of_arrivesAt harrives).exists_branch_mem hmem
  have harrives :=
    hreorders.arrivesAt (fun _ => Iff.rfl) harrives (Code.passes_of_mem_departures hmem)
  rw [hreorders.nameOf_eq] at htarget
  exact has_graph_iff.mpr ⟨entry, Chart.mem_entries_iff.mpr ⟨depth, harrives⟩, site', address,
    hmem', hsource, htarget⟩

variable (hinjective : Function.Injective plan.chart.code.symbols.nameOf)
  (hnames : plan.NamesSeeds seeds) (hnames' : plan'.NamesSeeds seeds')

include hinjective hnames hnames'

theorem renames_graph : CallGraph.Renames Eq (plan.graph seeds) (plan'.graph seeds') where
  unique := biUnique_eq
  exists_right hhas := ⟨_, _, rfl, rfl, has_graph hreorders hhas⟩
  exists_left hhas := ⟨_, _, rfl, rfl, has_graph hreorders.symm hhas⟩
  start_eq {link link'} hhas hhas' htarget := by
    apply hinjective
    rw [nameOf_start hnames (target_mem_graph hhas), hreorders.nameOf_eq,
      nameOf_start hnames' (target_mem_graph hhas'), htarget]
  target_unique {link other} hhas hhas' hstart := by
    rw [← nameOf_start hnames (target_mem_graph hhas), hstart,
      nameOf_start hnames (target_mem_graph hhas')]

omit hreorders hnames' in
/-- Links lead on from a seed only if control passes something from there. -/
private theorem passes_of_onward {seed : Seed} (hseed : seed ∈ seeds)
    (honward : (plan.graph seeds).outgoing.of seed.label ≠ []) :
    plan.chart.code.Passes seed.address := by
  obtain ⟨target, htarget⟩ := List.exists_mem_of_ne_nil _ honward
  obtain ⟨kind, hhas⟩ := CallGraph.joins_iff.mp (CallGraph.mem_outgoing.mp htarget)
  obtain ⟨entry, hentry, site, address, hmem, hsource, -⟩ := has_graph_iff.mp hhas
  obtain ⟨_, first, hfirst, levels, hpath, -⟩ := Chart.mem_entries_iff.mp hentry
  obtain ⟨home, levels, hhome, hskips⟩ := exists_home_of_path hnames hfirst hpath
  obtain rfl := hinjective (hhome.trans (hsource.trans (hnames seed hseed)))
  exact hskips.passes (Code.passes_of_mem_departures hmem)

/-- Recursion is cut on the same links, in whatever order control takes its ways. -/
theorem mem_recursion_iff_of_reorders (hlength : seeds.length ≤ 2) (hlength' : seeds'.length ≤ 2)
    {ends : Ends} :
    ends ∈ (plan.graph seeds).recursion (Analysis.roots seeds) ↔
      ends ∈ (plan'.graph seeds').recursion (Analysis.roots seeds') := by
  have hrenames := renames_graph hreorders hinjective hnames hnames'
  have hinjective' : Function.Injective plan'.chart.code.symbols.nameOf :=
    hreorders.nameOf_eq ▸ hinjective
  have houtgoing : (plan.graph seeds).outgoing.of = (plan'.graph seeds').outgoing.of := by
    funext routine
    have hsame := hrenames.outgoing (rfl : routine = routine)
    rwa [List.forall₂_eq_eq_eq] at hsame
  have hroots : onward (plan.graph seeds).outgoing.of (Analysis.roots seeds) =
      onward (plan'.graph seeds').outgoing.of (Analysis.roots seeds') := by
    have hleft := onward_roots hlength fun seed hseed honward =>
      decide_eq_true (passes_of_onward hinjective hnames hseed honward)
    have hright := onward_roots hlength' fun seed hseed honward =>
      decide_eq_true (passes_of_onward hinjective' hnames' hseed honward)
    rw [hleft, hright, hreorders.seeds_eq, houtgoing]
  have hforall := congrFun (congrFun List.forall₂_eq_eq_eq _) _ |>.mpr hroots
  have hends : ends.Renames Eq ends := ⟨rfl, rfl⟩
  rw [CallGraph.mem_recursion_onward_iff, hrenames.mem_recursion_iff hforall hends,
    ← CallGraph.mem_recursion_onward_iff]

end Plan

namespace Analysis

variable {image left right : Image} {symbols : Symbols} {options : Options} {found : Findings}

private theorem length_seeds_le (image : Image) (symbols : Symbols) (options : Options) :
    (seeds image symbols options).length ≤ 2 := by
  refine (List.length_filterMap_le _ _).trans ?_
  rw [vectors, List.length_append]
  cases options.resetVector <;> cases options.interruptVector <;> simp

/-- What an analysis finds is what control can do where recursion is cut. -/
theorem findings_of_run (hresult : (run image symbols options).result = .ok found) :
    let plan := (survey image symbols options).plan options
    let depths := plan.chart.code.depthsAt plan.cut (seeds image symbols options)
    found.cut = plan.cut ∧
      (∀ address depth, found.depthAt? address = some depth ↔ IsGreatest (depths address) depth) ∧
      ∀ address, address ∈ found.records ↔ (depths address).Nonempty := by
  intro plan depths
  obtain ⟨last, hsound, hsettled, hcut, -, hrecords⟩ := exists_settled_of_run hresult
  have hdepth : found.depthAt? = last.depthAt? := by
    funext address
    rw [Findings.depthAt?, Search.depthAt?, hrecords]
  rw [hdepth, hrecords]
  exact ⟨hcut, fun address depth => hsound.depthAt?_eq_some_iff hsettled,
    hsound.mem_records_iff hsettled⟩

private theorem starts_plan_iff {seeds : List Seed} {start : Int} :
    ((survey image symbols options).plan options).chart.code.Starts seeds start ↔
      (⟨image, symbols, options.memoryLimit⟩ : Code).Starts seeds start :=
  exists_congr fun _ => exists_congr fun _ => arrivesAt_plan_iff

private theorem passes_plan_iff {start : Int} :
    ((survey image symbols options).plan options).chart.code.Passes start ↔
      (⟨image, symbols, options.memoryLimit⟩ : Code).Passes start := by
  rw [Code.Passes, stretch_plan, Code.Passes]

/-- Two images in which control goes the same ways, in whatever order, from each address where it
    can start in either of them. -/
def Reordered (left right : Image) (symbols : Symbols) (options : Options) : Prop :=
  let code : Code := ⟨left, symbols, options.memoryLimit⟩
  let code' : Code := ⟨right, symbols, options.memoryLimit⟩
  ∀ start,
    code.Starts (seeds left symbols options) start ∨
      code'.Starts (seeds right symbols options) start →
    (code.stretch start).SameWays (code'.stretch start)

private theorem Reordered.symm (hreordered : Reordered left right symbols options) :
    Reordered right left symbols options :=
  fun start hstarts => (hreordered start hstarts.symm).symm

private theorem starts_of_isPresent {code : Code} {vector : Int × Int}
    (hvector : vector ∈ vectors options) (hpresent : image.isPresent vector.1 = true) :
    code.Starts (seeds image symbols options) vector.1 := by
  let seed : Seed := ⟨vector.1, vector.2, symbols.nameOf vector.1⟩
  have hseed : seed ∈ seeds image symbols options :=
    List.mem_filterMap.mpr ⟨vector, hvector, if_pos hpresent⟩
  exact Code.starts_of_mem_seeds hseed

private theorem reorders_plan (hreordered : Reordered left right symbols options) :
    ((survey left symbols options).plan options).chart.code.Reorders (seeds left symbols options)
      ((survey right symbols options).plan options).chart.code (seeds right symbols options) := by
  refine ⟨nameOf_plan.trans nameOf_plan.symm, fun start hstarts => ?_, ?_⟩
  · rw [stretch_plan, stretch_plan]
    rw [starts_plan_iff, starts_plan_iff] at hstarts
    exact hreordered start hstarts
  · simp only [passes_plan_iff]
    rw [seeds, seeds, List.filter_filterMap, List.filter_filterMap]
    refine List.filterMap_congr fun (address, depth) hvector => ?_
    have hpasses : (⟨left, symbols, options.memoryLimit⟩ : Code).Passes address ↔
        (⟨right, symbols, options.memoryLimit⟩ : Code).Passes address := by
      constructor
      · intro hpasses
        have hsame := hreordered _ (Or.inl (starts_of_isPresent hvector hpasses.isPresent))
        exact Code.passes_of_sameWays hsame hpasses
      · intro hpasses
        have hsame := hreordered _ (Or.inr (starts_of_isPresent hvector hpasses.isPresent))
        exact Code.passes_of_sameWays hsame.symm hpasses
    have hleft := (⟨left, symbols, options.memoryLimit⟩ : Code).filter_seed
      ⟨address, depth, symbols.nameOf address⟩
    have hright := (⟨right, symbols, options.memoryLimit⟩ : Code).filter_seed
      ⟨address, depth, symbols.nameOf address⟩
    exact hleft.trans ((if_congr hpasses rfl rfl).trans hright.symm)

/-- Recursion is cut on the same links in both images. -/
private theorem mem_cut_iff (hinjective : Function.Injective symbols.nameOf)
    (hreordered : Reordered left right symbols options) (ends : Ends) :
    ends ∈ ((survey left symbols options).plan options).cut ↔
      ends ∈ ((survey right symbols options).plan options).cut := by
  have hnames := namesSeeds_plan left symbols options
  have hnames' := namesSeeds_plan right symbols options
  have hplan : Function.Injective
      ((survey left symbols options).plan options).chart.code.symbols.nameOf := by
    rwa [nameOf_plan]
  exact Plan.mem_recursion_iff_of_reorders (reorders_plan hreordered) hplan hnames hnames'
    (length_seeds_le left symbols options) (length_seeds_le right symbols options)

private theorem exists_fault_of_reordered (hinjective : Function.Injective symbols.nameOf)
    (hreordered : Reordered left right symbols options) {fault : TooDeep}
    (herror : (run left symbols options).result = .error fault) :
    ∃ fault', (run right symbols options).result = .error fault' := by
  have hcut := mem_cut_iff hinjective hreordered
  have hoverruns :=
    overruns_plan_iff.mpr ((exists_fault_iff left symbols options).mp ⟨fault, herror⟩)
  have hoverruns' := (reorders_plan hreordered).overruns hcut hoverruns
  exact (exists_fault_iff right symbols options).mpr (overruns_plan_iff.mp hoverruns')

/-- It does not matter in which order a program calls. If no two addresses share a name, and from
    each address where control can start in either of two images it passes the same addresses and
    departs the same ways in both, then both analyses fail, or recursion is cut on the same links in
    both, the depth of each address is the same, and so are the addresses that are reached. -/
theorem run_eq_of_reordered (hinjective : Function.Injective symbols.nameOf)
    (hreordered : Reordered left right symbols options) :
    (∃ fault fault', (run left symbols options).result = .error fault ∧
      (run right symbols options).result = .error fault') ∨
    ∃ found found', (run left symbols options).result = .ok found ∧
      (run right symbols options).result = .ok found' ∧
      (∀ ends, ends ∈ found.cut ↔ ends ∈ found'.cut) ∧
      (∀ address, found.depthAt? address = found'.depthAt? address) ∧
      ∀ address, address ∈ found.records ↔ address ∈ found'.records := by
  cases hresult : (run left symbols options).result with
  | error fault =>
    obtain ⟨fault', hresult'⟩ := exists_fault_of_reordered hinjective hreordered hresult
    exact Or.inl ⟨fault, fault', rfl, hresult'⟩
  | ok found =>
    cases hresult' : (run right symbols options).result with
    | error fault' =>
      obtain ⟨fault, herror⟩ := exists_fault_of_reordered hinjective hreordered.symm hresult'
      rw [hresult] at herror
      cases herror
    | ok found' =>
      have hcut := mem_cut_iff hinjective hreordered
      have hdepths := (reorders_plan hreordered).depthsAt_eq hcut
      obtain ⟨hcutLeft, hdepth, hmem⟩ := findings_of_run hresult
      obtain ⟨hcutRight, hdepth', hmem'⟩ := findings_of_run hresult'
      refine Or.inr ⟨found, found', rfl, rfl, ?_, ?_, ?_⟩
      · rw [hcutLeft, hcutRight]
        exact hcut
      · intro address
        refine Option.ext fun depth => ?_
        rw [hdepth, hdepth', hdepths]
      · intro address
        rw [hmem, hmem', hdepths]

/-- A program that calls two routines, both of which call a third one that calls the first of them
    back. -/
private def sharedCallee (first second : Int) : Image where
  words := .ofList ([(0x00, 0x2000 + first), (0x01, 0x2000 + second), (0x02, 0x2802),
    (0x10, 0x2030), (0x11, 0x0008), (0x20, 0x2030), (0x21, 0x0008), (0x30, 0x2010),
    (0x31, 0x0008)] : List (Int × Int))

private theorem reordered_sharedCallee :
    Reordered (sharedCallee 0x10 0x20) (sharedCallee 0x20 0x10) .standard {} := by
  let starts : List Int := [0x00, 0x02, 0x10, 0x20, 0x30]
  have hstarts : ∀ entry ∈ (survey (sharedCallee 0x10 0x20) .standard {}).entries,
      entry.start ∈ starts := by
    decide +kernel
  have hstarts' : ∀ entry ∈ (survey (sharedCallee 0x20 0x10) .standard {}).entries,
      entry.start ∈ starts := by
    decide +kernel
  let code (first second : Int) : Code :=
    ⟨sharedCallee first second, .standard, Symbols.programLimit⟩
  have hperm : ∀ start ∈ starts,
      ((code 0x10 0x20).stretch start).addresses.Perm
        ((code 0x20 0x10).stretch start).addresses ∧
      (((code 0x10 0x20).stretch start).departures.map Departure.way).Perm
        (((code 0x20 0x10).stretch start).departures.map Departure.way) := by
    decide +kernel
  intro start hstart
  have hmem : start ∈ starts := by
    obtain ⟨routine, henters⟩ | ⟨routine, henters⟩ := hstart
    · exact hstarts ⟨start, routine⟩ (mem_entries_survey_iff.mpr henters)
    · exact hstarts' ⟨start, routine⟩ (mem_entries_survey_iff.mpr henters)
  exact .of_perm (hperm start hmem).1 (hperm start hmem).2

theorem run_eq_of_reordered_sharedCallee :
    ∃ found found', (run (sharedCallee 0x10 0x20) .standard {}).result = .ok found ∧
      (run (sharedCallee 0x20 0x10) .standard {}).result = .ok found' ∧
      (⟨"L0030", "L0010"⟩ : Ends) ∈ found'.cut ∧ found'.depthAt? 0x30 = some 2 ∧
      ∀ address, found.depthAt? address = found'.depthAt? address := by
  have hobserved : (run (sharedCallee 0x10 0x20) .standard {}).result.toOption.map
      (fun found => (found.cut.toList, found.depthAt? 0x30)) =
        some ([⟨"L0030", "L0010"⟩], some 2) := by decide +kernel
  obtain ⟨found, hresult, hobserved⟩ := exists_found hobserved
  obtain ⟨hlist, hdeepest⟩ := Prod.mk.inj hobserved
  obtain ⟨fault, _, herror, -⟩ | ⟨other, found', hok, hok', hcut, hdepth, -⟩ :=
    run_eq_of_reordered Symbols.nameOf_standard_injective reordered_sharedCallee
  · rw [hresult] at herror
    cases herror
  · obtain rfl := Except.ok.inj (hresult.symm.trans hok)
    have hmem : (⟨"L0030", "L0010"⟩ : Ends) ∈ found.cut := by
      rw [← Std.TreeSet.mem_toList, hlist]
      exact List.mem_singleton_self _
    exact ⟨found, found', hresult, hok', (hcut _).mp hmem, (hdepth _).symm.trans hdeepest, hdepth⟩

end Analysis

end Midrange.Depth
