import Midrange.Hints.Load
import Midrange.Proofs.Depth.Lockstep

namespace Midrange.Depth

/-- Control enters some routine at an address: that of a seed, or the target of a branch in
    reach. -/
def Code.Lands (code : Code) (seeds : List Seed) (address : Int) : Prop :=
  (∃ seed ∈ seeds, seed.address = address) ∨
    ∃ start kind site, code.Starts seeds start ∧
      .branch kind site address ∈ (code.stretch start).departures

namespace Analysis

variable {image : Image} {left right : Symbols} {options : Options}

/-- Where control enters routines, an address shares its name with the same other ones in both
    tables. -/
def SharesAlike (image : Image) (left right : Symbols) (options : Options) : Prop :=
  let code : Code := ⟨image, left, options.memoryLimit⟩
  let seeds := seeds image left options
  ∀ first second, code.Lands seeds first → code.Lands seeds second →
    (left.nameOf first = left.nameOf second ↔ right.nameOf first = right.nameOf second)

theorem sharesAlike_of_injective (hleft : Function.Injective left.nameOf)
    (hright : Function.Injective right.nameOf) : SharesAlike image left right options :=
  fun _ _ _ _ => hleft.eq_iff.trans hright.eq_iff.symm

/-- The names of one address in two tables, as far as control enters a routine there. -/
private def Counterparts (image : Image) (left right : Symbols) (options : Options)
    (name name' : String) : Prop :=
  ∃ address, (⟨image, left, options.memoryLimit⟩ : Code).Lands (seeds image left options) address ∧
    left.nameOf address = name ∧ right.nameOf address = name'

private theorem biUnique_counterparts (hshares : SharesAlike image left right options) :
    Relator.BiUnique (Counterparts image left right options) := by
  constructor
  · rintro _ _ name' ⟨first, hfirst, rfl, hname⟩ ⟨second, hsecond, rfl, rfl⟩
    exact (hshares first second hfirst hsecond).mpr hname
  · rintro name _ _ ⟨first, hfirst, rfl, rfl⟩ ⟨second, hsecond, hname, rfl⟩
    exact (hshares first second hfirst hsecond).mp hname.symm

private theorem renames_seeds (image : Image) (left right : Symbols) (options : Options) :
    List.Forall₂ (Seed.Renames (Counterparts image left right options)
      ((⟨image, left, options.memoryLimit⟩ : Code).Starts (seeds image left options)))
      (seeds image left options) (seeds image right options) := by
  have hvectors : List.Forall₂ (fun vector vector' => vector = vector' ∧ vector ∈ vectors options)
      (vectors options) (vectors options) :=
    List.forall₂_same.mpr fun _ hvector => ⟨rfl, hvector⟩
  refine List.rel_filterMap (fun vector _ hvector => ?_) hvectors
  obtain ⟨rfl, hvector⟩ := hvector
  obtain ⟨address, depth⟩ := vector
  cases hpresent : image.isPresent address with
  | false => simp [hpresent]
  | true =>
    have hseed : ⟨address, depth, left.nameOf address⟩ ∈ seeds image left options :=
      List.mem_filterMap.mpr ⟨_, hvector, if_pos hpresent⟩
    have hcounterparts : Counterparts image left right options (left.nameOf address)
        (right.nameOf address) :=
      ⟨address, Or.inl ⟨_, hseed, rfl⟩, rfl, rfl⟩
    simpa [hpresent] using ⟨Code.starts_of_mem_seeds hseed, rfl, rfl, hcounterparts⟩

/-- Tables that agree on all but labels lead to plans that differ in names only. -/
private theorem renames_plan (hsame : SameCode left right)
    (hshares : SharesAlike image left right options) :
    Plan.Renames (Counterparts image left right options)
      ((⟨image, left, options.memoryLimit⟩ : Code).Starts (seeds image left options))
      ((survey image left options).plan options) (seeds image left options)
      ((survey image right options).plan options) (seeds image right options) where
  code := by
    constructor
    case unique => exact biUnique_counterparts hshares
    case image_eq => rw [image_plan, image_plan]
    case stretch_eq =>
      funext start
      rw [stretch_plan, stretch_plan, hsame.stretch_eq]
    case within_target =>
      intro start departure hstarts hmem
      rw [stretch_plan] at hmem
      exact hstarts.target hmem
    case nameOf =>
      intro start kind site target hstarts hmem
      rw [stretch_plan] at hmem
      rw [nameOf_plan, nameOf_plan]
      exact ⟨target, Or.inr ⟨start, kind, site, hstarts, hmem⟩, rfl, rfl⟩
  renames_seeds := renames_seeds image left right options
  names := namesSeeds_plan image left options
  names' := namesSeeds_plan image right options
  cuts := cutsRecursion_plan image left options
  cuts' := cutsRecursion_plan image right options
  maxDepth_eq := rfl

/-- Both searches settle together. -/
private theorem settled_cases (hsame : SameCode left right)
    (hshares : SharesAlike image left right options) :
    (∃ last last',
      (survey image left options).settled ((survey image left options).plan options) = .ok last ∧
      (survey image right options).settled ((survey image right options).plan options) = .ok last' ∧
      Matches Eq Nesting.SameDepth (records last.visits.toList) (records last'.visits.toList)) ∨
    ∃ failure failure',
      (survey image left options).settled ((survey image left options).plan options) =
        .error failure ∧
      (survey image right options).settled ((survey image right options).plan options) =
        .error failure' ∧
      failure.fault.depth = failure'.fault.depth := by
  have hplan := renames_plan hsame hshares
  have hsound :=
    Search.sound_start ((survey image left options).plan options) (seeds image left options)
  have hsound' :=
    Search.sound_start ((survey image right options).plan options) (seeds image right options)
  -- names do not even change the fuel, so that one induction on it serves both searches
  have hbound : Search.stepBound (survey image left options).entries.length
      (survey image left options).graph.entries.size (survey image left options).seeds =
        Search.stepBound (survey image right options).entries.length
          (survey image right options).graph.entries.size (survey image right options).seeds :=
    hplan.stepBound_eq
  simp only [Survey.settled, ← hbound]
  obtain ⟨last, last', hsettle, hsettle', hlast⟩ | hfailed :=
    (Search.Renames.start hplan).settle_cases hplan hsound hsound' _
  · exact Or.inl ⟨last, last', hsettle, hsettle', matches_records hlast.visits⟩
  · exact Or.inr hfailed

/-- Labels do not matter apart from which of them are the same. If two tables agree on registers,
    bits and data, and the same addresses share a name wherever control enters routines, then both
    analyses fail at calls of one depth, or the depth of each address is the same, and so are the
    addresses that are reached. -/
theorem run_eq_of_sharesAlike (hsame : SameCode left right)
    (hshares : SharesAlike image left right options) :
    (∃ fault fault', (run image left options).result = .error fault ∧
      (run image right options).result = .error fault' ∧ fault.depth = fault'.depth) ∨
    ∃ found found', (run image left options).result = .ok found ∧
      (run image right options).result = .ok found' ∧
      (∀ address, found.depthAt? address = found'.depthAt? address) ∧
      ∀ address, address ∈ found.records ↔ address ∈ found'.records := by
  obtain ⟨last, last', hsettled, hsettled', hrecords⟩ |
      ⟨failure, failure', hsettled, hsettled', hdepth⟩ :=
    settled_cases hsame hshares
  · exact Or.inr ⟨_, _, result_of_settled hsettled, result_of_settled hsettled',
      depthAt?_eq_of_matches hrecords, fun _ => hrecords.mem_iff rfl⟩
  · exact Or.inl ⟨_, _, result_of_settled hsettled, result_of_settled hsettled', hdepth⟩

/-- A program that calls a routine, which calls another one. -/
def nestedCalls : Image where
  words := .ofList ([(0x00, 0x2010), (0x01, 0x2801), (0x10, 0x2020), (0x11, 0x0008),
    (0x20, 0x0008)] : List (Int × Int))

private theorem exists_found_nestedCalls :
    ∃ found, (run nestedCalls .standard {}).result = .ok found ∧ found.depthAt? 0x20 = some 2 :=
  exists_found (by decide +kernel)

/-- Hints that give two routines one name turn the call between them into recursion, and the routine
    that is called is lost. -/
theorem depth_lost_of_sharedLabel :
    let (load, fault) := HintLoad.take { symbols := .standard } "label 0x10 x\nlabel 0x20 x\n"
    fault = none ∧ SameCode .standard load.symbols ∧
      ∃ found found', (run nestedCalls .standard {}).result = .ok found ∧
        (run nestedCalls load.symbols {}).result = .ok found' ∧
        found.depthAt? 0x20 = some 2 ∧ found'.depthAt? 0x20 = none ∧
        0x20 ∈ found.records ∧ 0x20 ∉ found'.records := by
  let hinted := (Symbols.standard.addLabel 0x10 "x").addLabel 0x20 "x"
  have hload : HintLoad.take { symbols := .standard } "label 0x10 x\nlabel 0x20 x\n" =
      ({ symbols := hinted, applied := 2 }, none) := rfl
  have hlost : (run nestedCalls hinted {}).result.toOption.map (·.depthAt? 0x20) = some none := by
    decide +kernel
  obtain ⟨found, hresult, hdepth⟩ := exists_found_nestedCalls
  obtain ⟨found', hresult', hdepth'⟩ := exists_found hlost
  have hsame : SameCode .standard hinted := (sameCode_addLabel ..).trans (sameCode_addLabel ..)
  rw [hload]
  refine ⟨rfl, hsame, found, found', hresult, hresult', hdepth, hdepth', ?_, ?_⟩
  · rw [← Findings.isSome_depthAt?_iff, hdepth]
    rfl
  · rw [← Findings.isSome_depthAt?_iff, hdepth']
    exact Bool.false_ne_true

/-- Hints that call one of two routines by the name that the other one has otherwise, and the other
    way round. -/
private def swapped : Symbols :=
  ((Symbols.standard.addLabel 0x10 "L0020").addLabel 0x20 "L0010").addLabel 0x30 "L0010"

private theorem sharesAlike_swapped : SharesAlike nestedCalls .standard swapped {} := by
  let landings : List Int := [0x00, 0x01, 0x10, 0x20]
  have hseeds : ∀ seed ∈ seeds nestedCalls .standard {}, seed.address ∈ landings := by
    decide +kernel
  have hentries : ∀ entry ∈ (survey nestedCalls .standard {}).entries, entry.start ∈ landings := by
    decide +kernel
  have htargets : ∀ start ∈ landings, ∀ departure ∈
      ((⟨nestedCalls, .standard, Symbols.programLimit⟩ : Code).stretch start).departures,
        departure.target ∈ landings := by
    decide +kernel
  have hlands (address : Int)
      (hlands : (⟨nestedCalls, .standard, Symbols.programLimit⟩ : Code).Lands
      (seeds nestedCalls .standard {}) address) : address ∈ landings := by
    obtain ⟨seed, hseed, rfl⟩ | ⟨start, kind, site, ⟨routine, henters⟩, hmem⟩ := hlands
    · exact hseeds seed hseed
    · exact htargets start (hentries _ (mem_entries_survey_iff.mpr henters)) _ hmem
  have hnames : ∀ first ∈ landings, ∀ second ∈ landings,
      (Symbols.standard.nameOf first = Symbols.standard.nameOf second ↔
        swapped.nameOf first = swapped.nameOf second) := by
    decide +kernel
  intro first second hfirst hsecond
  exact hnames first (hlands first hfirst) second (hlands second hsecond)

theorem run_eq_of_sharesAlike_swapped :
    ∃ found found', (run nestedCalls .standard {}).result = .ok found ∧
      (run nestedCalls swapped {}).result = .ok found' ∧ found'.depthAt? 0x20 = some 2 ∧
      ∀ address, found.depthAt? address = found'.depthAt? address := by
  have hsame : SameCode .standard swapped :=
    ((sameCode_addLabel ..).trans (sameCode_addLabel ..)).trans (sameCode_addLabel ..)
  obtain ⟨found, hresult, hdeepest⟩ := exists_found_nestedCalls
  obtain ⟨fault, _, herror, -⟩ | ⟨other, found', hok, hresult', hdepth, -⟩ :=
    run_eq_of_sharesAlike hsame sharesAlike_swapped
  · rw [hresult] at herror
    cases herror
  · obtain rfl := Except.ok.inj (hresult.symm.trans hok)
    exact ⟨found, found', hresult, hresult', (hdepth _).symm.trans hdeepest, hdepth⟩

end Analysis

end Midrange.Depth
