import Midrange.Proofs.Depth.CallOrder
import Midrange.Proofs.Depth.Overrun

namespace Midrange

/-- A block of data that gives its first address no name. -/
def DataBlock.Unnamed (block : DataBlock) : Prop :=
  ∀ name, block.name = some name → name.isEmpty = true

/-- Names that mark at least the data that others mark, and are the same but for that. -/
structure Symbols.MarksMore (symbols more : Symbols) : Prop where
  registers_eq : more.registers = symbols.registers
  bits_eq : more.bits = symbols.bits
  labels_eq : more.labels = symbols.labels
  isData : ∀ address, symbols.isData address = true → more.isData address = true

namespace Symbols.MarksMore

variable {symbols more : Symbols}

theorem addData (hmore : symbols.MarksMore more) {block : DataBlock} (hblock : block.Unnamed) :
    symbols.MarksMore (more.addData block) := by
  have hdata : more.addData block = { more with data := more.data.push block } := by
    unfold Symbols.addData
    cases hname : block.name with
    | none => rfl
    | some name => simp [hblock name hname]
  rw [hdata]
  refine ⟨hmore.registers_eq, hmore.bits_eq, hmore.labels_eq, fun address hmarked => ?_⟩
  have hpresent := hmore.isData address hmarked
  simp only [Symbols.isData, Array.any_push, Bool.or_eq_true] at hpresent ⊢
  tauto

theorem foldl_addData (hmore : symbols.MarksMore more) {blocks : List DataBlock}
    (hblocks : ∀ block ∈ blocks, block.Unnamed) :
    symbols.MarksMore (blocks.foldl Symbols.addData more) := by
  induction blocks generalizing more with
  | nil => exact hmore
  | cons block rest ih =>
    obtain ⟨hblock, hrest⟩ := List.forall_mem_cons.mp hblocks
    exact ih (hmore.addData hblock) hrest

theorem nameOf_eq (hmore : symbols.MarksMore more) : more.nameOf = symbols.nameOf := by
  funext address
  simp only [Symbols.nameOf, Symbols.label?, hmore.labels_eq]

theorem after_eq (hmore : symbols.MarksMore more) (instruction : Instruction) :
    instruction.after more = instruction.after symbols := by
  simp only [Instruction.after, Symbols.registerName?, Symbols.bitName?, hmore.registers_eq,
    hmore.bits_eq]

end Symbols.MarksMore

namespace Depth

/-- A stretch that goes no further than another one. -/
structure Stretch.Within (stretch whole : Stretch) : Prop where
  addresses : stretch.addresses <+: whole.addresses
  departures : stretch.departures <+: whole.departures

theorem Stretch.within_halted (ending : Ending) (whole : Stretch) :
    (Stretch.halted ending).Within whole :=
  ⟨List.nil_prefix, List.nil_prefix⟩

theorem Stretch.Within.lead {stretch whole : Stretch} (hwithin : stretch.Within whole)
    (address : Int) (departure? : Option Departure) :
    (stretch.lead address departure?).Within (whole.lead address departure?) :=
  ⟨(List.prefix_cons_inj address).mpr hwithin.addresses,
    (List.prefix_append_right_inj departure?.toList).mpr hwithin.departures⟩

namespace Code

/-- Code that has some of the words of other code, and in which every word that is passed selects
    the same. -/
structure Reduces (code whole : Code) : Prop where
  wordAt : ∀ {address word : Int}, code.wordAt address = .ok word → whole.wordAt address = .ok word
  after_eq : ∀ instruction : Instruction,
    instruction.after code.symbols = instruction.after whole.symbols

/-- Code in which control goes no further than in other code from any address where it starts, with
    the same names and with no other seeds. -/
structure Narrows (code : Code) (seeds : List Seed) (whole : Code) (all : List Seed) : Prop where
  nameOf_eq : code.symbols.nameOf = whole.symbols.nameOf
  within : ∀ start, (code.stretch start).Within (whole.stretch start)
  seeds : ∀ seed ∈ seeds, seed ∈ all

variable {code whole : Code} {cut more : Std.TreeSet Ends} {seeds all : List Seed} {entry : Entry}
  {depth limit address : Int}

theorem Reduces.follow_within (hreduces : code.Reduces whole) (count : Nat) (address : Int)
    (selection : Selection) (inTable : Bool) :
    (code.follow count address selection inTable).Within
      (whole.follow count address selection inTable) := by
  induction count generalizing address selection inTable with
  | zero =>
    unfold follow
    cases code.wordAt address <;> exact Stretch.within_halted _ _
  | succ count ih =>
    cases hword : code.wordAt address with
    | error ending =>
      rw [follow, hword]
      exact Stretch.within_halted _ _
    | ok word =>
      simp only [follow, hword, hreduces.wordAt hword]
      split
      · exact Stretch.within_halted _ _
      · split
        · exact (Stretch.within_halted _ _).lead _ _
        · rw [hreduces.after_eq]
          exact (ih _ _ _).lead _ _

theorem Reduces.stretch_within (hreduces : code.Reduces whole) (start : Int) :
    (code.stretch start).Within (whole.stretch start) := by
  rw [← follow_eq_stretch (le_max_left code.image.size whole.image.size),
    ← follow_eq_stretch (le_max_right code.image.size whole.image.size)]
  exact hreduces.follow_within _ _ _ _

namespace Narrows

variable (hnarrows : code.Narrows seeds whole all) (hcut : ∀ ends ∈ cut, ends ∈ more)

include hnarrows

theorem mem_addresses {start : Int} (hmem : address ∈ (code.stretch start).addresses) :
    address ∈ (whole.stretch start).addresses :=
  (hnarrows.within start).addresses.subset hmem

theorem departures_subset (start : Int) :
    (code.stretch start).departures ⊆ (whole.stretch start).departures :=
  (hnarrows.within start).departures.subset

include hcut

theorem arrivesAt (harrives : code.ArrivesAt more seeds entry depth) :
    whole.ArrivesAt cut all entry depth := by
  obtain ⟨seed, hseed, levels, hpath, hdepth⟩ := harrives
  have hwhole := hpath.widen hnarrows.nameOf_eq hnarrows.departures_subset hcut
  exact ⟨seed, hnarrows.seeds seed hseed, levels, hwhole, hdepth⟩

theorem depthsAt_subset (address : Int) :
    code.depthsAt more seeds address ⊆ whole.depthsAt cut all address := by
  rintro depth ⟨entry, harrives, hmem⟩
  exact ⟨entry, hnarrows.arrivesAt hcut harrives, hnarrows.mem_addresses hmem⟩

theorem overruns (hoverruns : code.Overruns more seeds limit) : whole.Overruns cut all limit := by
  obtain ⟨entry, depth, site, target, harrives, hmem, huncut, hlimit⟩ := hoverruns
  rw [hnarrows.nameOf_eq] at huncut
  exact ⟨entry, depth, site, target, hnarrows.arrivesAt hcut harrives,
    hnarrows.departures_subset _ hmem, mt (hcut _) huncut, hlimit⟩

omit hcut in
theorem enters (henters : code.Enters seeds entry) : whole.Enters all entry := by
  obtain ⟨depth, harrives⟩ := henters
  exact ⟨depth, hnarrows.arrivesAt (fun _ hends => hends) harrives⟩

end Narrows

end Code

namespace Plan

variable {plan whole : Plan} {seeds all : List Seed}
  (hnarrows : plan.chart.code.Narrows seeds whole.chart.code all)

include hnarrows

theorem has_graph_of_narrows {link : Link} (hhas : (plan.graph seeds).Has link) :
    (whole.graph all).Has link := by
  obtain ⟨entry, hentry, site, address, hmem, hsource, htarget⟩ := has_graph_iff.mp hhas
  have henters := hnarrows.enters (Chart.mem_entries_iff.mp hentry)
  rw [hnarrows.nameOf_eq] at htarget
  exact has_graph_iff.mpr ⟨entry, Chart.mem_entries_iff.mpr henters, site, address,
    hnarrows.departures_subset _ hmem, hsource, htarget⟩

/-- Where recursion is cut on no link of the whole, it is cut on no link of a part. A link on which
    it is cut lies on a closed walk with a call, and the whole would have this walk too. -/
theorem not_mem_recursion_of_narrows
    (hnone : ∀ ends, ends ∉ (whole.graph all).recursion (Analysis.roots all)) (ends : Ends) :
    ends ∉ (plan.graph seeds).recursion (Analysis.roots seeds) := by
  intro hcut
  obtain ⟨links, hwalk, ⟨link, hlink, rfl⟩, call, hcall, hkind⟩ :=
    CallGraph.exists_closed_walk_of_mem_recursion hcut
  have hspared : Walk ((whole.graph all).Spares ((whole.graph all).recursion (Analysis.roots all)))
      link.ends.source links link.ends.source :=
    hwalk.mono fun other hother => ⟨has_graph_of_narrows hnarrows hother, hnone other.ends⟩
  obtain ⟨entry, hentry, _, _, _, hsource, _⟩ := has_graph_iff.mp (hwalk.split hlink).1
  obtain ⟨_, seed, hseed, _, hpath, _⟩ := hnarrows.enters (Chart.mem_entries_iff.mp hentry)
  have hreached := reached_of_path hseed hpath
  rw [hsource] at hreached
  exact CallGraph.kind_ne_call_of_closed_walk hreached hspared hcall hkind

end Plan

namespace Analysis

variable {image part : Image} {symbols marked : Symbols} {options lowered : Options}
  {found : Findings}

/-- An input from which code is removed: the image has only some of the words, unnamed blocks of
    data are added, and program memory ends earlier, or no later. -/
structure Removes (image : Image) (symbols : Symbols) (options : Options) (part : Image)
    (marked : Symbols) (lowered : Options) : Prop where
  word? : ∀ address word, part.word? address = some word → image.word? address = some word
  marked_eq : ∃ blocks : List DataBlock, (∀ block ∈ blocks, block.Unnamed) ∧
    marked = blocks.foldl .addData symbols
  lowered_eq : ∃ limit ≤ options.memoryLimit, lowered = { options with memoryLimit := limit }

namespace Removes

variable (hremoves : Removes image symbols options part marked lowered)

include hremoves

theorem marksMore : symbols.MarksMore marked := by
  obtain ⟨blocks, hblocks, rfl⟩ := hremoves.marked_eq
  exact (⟨rfl, rfl, rfl, fun _ hmarked => hmarked⟩ : symbols.MarksMore symbols).foldl_addData
    hblocks

theorem reduces :
    (⟨part, marked, lowered.memoryLimit⟩ : Code).Reduces ⟨image, symbols, options.memoryLimit⟩ := by
  refine ⟨fun {address word} hword => ?_, hremoves.marksMore.after_eq⟩
  obtain ⟨limit, hlimit, rfl⟩ := hremoves.lowered_eq
  obtain ⟨hless, hfound, hdata⟩ := wordAt_eq_ok_iff.mp hword
  refine wordAt_eq_ok_iff.mpr ⟨Int.lt_of_lt_of_le hless hlimit,
    hremoves.word? address word hfound, ?_⟩
  rw [← Bool.not_eq_true] at hdata ⊢
  exact mt (hremoves.marksMore.isData address) hdata

theorem mem_seeds {seed : Seed} (hseed : seed ∈ seeds part marked lowered) :
    seed ∈ seeds image symbols options := by
  obtain ⟨limit, -, rfl⟩ := hremoves.lowered_eq
  obtain ⟨⟨address, depth⟩, hvector, hsome⟩ := List.mem_filterMap.mp hseed
  simp only [Option.ite_none_right_eq_some, hremoves.marksMore.nameOf_eq] at hsome
  obtain ⟨hpresent, hseed⟩ := hsome
  refine List.mem_filterMap.mpr ⟨(address, depth), hvector, ?_⟩
  rw [Image.isPresent_eq_isSome_word?, Option.isSome_iff_exists] at hpresent
  obtain ⟨word, hword⟩ := hpresent
  have hwhole : image.isPresent address = true := by
    rw [Image.isPresent_eq_isSome_word?, hremoves.word? address word hword]
    rfl
  simp only [hwhole, if_true, hseed]

theorem narrows : ((survey part marked lowered).plan lowered).chart.code.Narrows
    (seeds part marked lowered)
    ((survey image symbols options).plan options).chart.code (seeds image symbols options) := by
  refine ⟨?_, fun start => ?_, fun _ => hremoves.mem_seeds⟩
  · rw [nameOf_plan, nameOf_plan, hremoves.marksMore.nameOf_eq]
  · rw [stretch_plan, stretch_plan]
    exact hremoves.reduces.stretch_within start

theorem not_mem_cut (hnone : ∀ ends, ends ∉ ((survey image symbols options).plan options).cut)
    (ends : Ends) : ends ∉ ((survey part marked lowered).plan lowered).cut :=
  Plan.not_mem_recursion_of_narrows hremoves.narrows hnone ends

/-- As long as no call goes back, an analysis still ends without a fault when code is removed. -/
theorem exists_found (hnone : ∀ ends, ends ∉ ((survey image symbols options).plan options).cut)
    (hresult : (run image symbols options).result = .ok found) :
    ∃ found', (run part marked lowered).result = .ok found' := by
  cases hpart : (run part marked lowered).result with
  | ok found' => exact ⟨found', rfl⟩
  | error fault =>
    have hoverruns :=
      overruns_plan_iff.mpr ((exists_fault_iff part marked lowered).mp ⟨fault, hpart⟩)
    have hwhole := hremoves.narrows.overruns (fun ends hends => absurd hends (hnone ends)) hoverruns
    have hmaxDepth : lowered.maxDepth = options.maxDepth := by
      obtain ⟨limit, -, rfl⟩ := hremoves.lowered_eq
      rfl
    rw [hmaxDepth] at hwhole
    obtain ⟨fault', herror⟩ :=
      (exists_fault_iff image symbols options).mpr (overruns_plan_iff.mp hwhole)
    rw [hresult] at herror
    cases herror

end Removes

/-- To remove code does not add anything. If no two addresses share a name, then of two analyses
    that succeed the one of less code reaches nothing that the other one does not. And if recursion
    is cut nowhere, then the analysis of less code succeeds too, cuts recursion nowhere either, and
    nests no deeper at any address. -/
theorem run_of_removes (hinjective : Function.Injective symbols.nameOf)
    (hremoves : Removes image symbols options part marked lowered)
    (hresult : (run image symbols options).result = .ok found) :
    (∀ found', (run part marked lowered).result = .ok found' →
      ∀ address, address ∈ found'.records → address ∈ found.records) ∧
    ((∀ ends, ends ∉ found.cut) → ∃ found', (run part marked lowered).result = .ok found' ∧
      (∀ ends, ends ∉ found'.cut) ∧
      ∀ address depth, found'.depthAt? address = some depth →
        ∃ whole, found.depthAt? address = some whole ∧ depth ≤ whole) := by
  obtain ⟨hcut, hdepth, hmem⟩ := findings_of_run hresult
  constructor
  · intro found' hresult' address hreached
    obtain ⟨-, -, hmem'⟩ := findings_of_run hresult'
    obtain ⟨depth, entry, harrives, hpass⟩ := (hmem' address).mp hreached
    have henters := hremoves.narrows.enters harrives.enters
    have hwhole := hremoves.narrows.mem_addresses hpass
    rw [stretch_plan] at hwhole
    refine ((visits_eq_entries hinjective hresult).2.2 address).mpr ⟨entry, ?_, hwhole⟩
    obtain ⟨depth, harrives⟩ := henters
    exact ⟨depth, arrivesAt_plan_iff.mp harrives⟩
  · intro hnone
    rw [hcut] at hnone
    obtain ⟨found', hresult'⟩ := hremoves.exists_found hnone hresult
    obtain ⟨hcut', hdepth', -⟩ := findings_of_run hresult'
    refine ⟨found', hresult', fun ends => ?_, fun address depth hfound => ?_⟩
    · rw [hcut']
      exact hremoves.not_mem_cut hnone ends
    · have hgreatest := (hdepth' address depth).mp hfound
      have hwhole :=
        hremoves.narrows.depthsAt_subset (fun ends hends => absurd hends (hnone ends)) address
          hgreatest.1
      have hpresent := (hmem address).mpr ⟨depth, hwhole⟩
      rw [← Findings.isSome_depthAt?_iff, Option.isSome_iff_exists] at hpresent
      obtain ⟨whole, hdeepest⟩ := hpresent
      exact ⟨whole, hdeepest, ((hdepth address whole).mp hdeepest).2 hwhole⟩

/-- A program that calls a routine over and over, which calls another one and then returns. -/
private def callsForever : Image where
  words := .ofList ([(0x00, 0x2010), (0x01, 0x2800), (0x10, 0x2020), (0x11, 0x0008),
    (0x20, 0x0008)] : List (Int × Int))

/-- The same program without the last word of the first routine. -/
private def unreturned : Image where
  words := .ofList ([(0x00, 0x2010), (0x01, 0x2800), (0x10, 0x2020),
    (0x20, 0x0008)] : List (Int × Int))

private theorem removes_unreturned :
    Removes callsForever .standard {} unreturned (Symbols.standard.addData ⟨0x20, 0x21, none⟩)
      { memoryLimit := 0x40 } := by
  refine ⟨fun address word hword => ?_, ⟨[⟨0x20, 0x21, none⟩], ?_, rfl⟩, ⟨0x40, by decide, rfl⟩⟩
  · have hkept : ∀ pair ∈ unreturned.words.toList, callsForever.word? pair.1 = some pair.2 := by
      decide +kernel
    exact hkept (address, word) (Std.TreeMap.mem_toList_iff_getElem?_eq_some.mpr hword)
  · intro block hblock name hname
    rw [List.mem_singleton.mp hblock] at hname
    cases hname

/-- The routine that is now data is still arrived at, but nothing of it is reached. -/
theorem run_of_removes_unreturned :
    ∃ found found', (run callsForever .standard {}).result = .ok found ∧
      (run unreturned (Symbols.standard.addData ⟨0x20, 0x21, none⟩)
        { memoryLimit := 0x40 }).result = .ok found' ∧
      found.depthAt? 0x20 = some 2 ∧ found'.depthAt? 0x20 = none ∧ found'.depthAt? 0x10 = some 1 ∧
      (∀ ends, ends ∉ found'.cut) ∧
      ∀ address, address ∈ found'.records → address ∈ found.records := by
  have hobserved : (run callsForever .standard {}).result.toOption.map
      (fun found => (found.cut.toList, found.depthAt? 0x20)) = some ([], some 2) := by
    decide +kernel
  have hobserved' : (run unreturned (Symbols.standard.addData ⟨0x20, 0x21, none⟩)
      { memoryLimit := 0x40 }).result.toOption.map
        (fun found => (found.depthAt? 0x20, found.depthAt? 0x10)) = some (none, some 1) := by
    decide +kernel
  obtain ⟨found, hresult, hobserved⟩ := Analysis.exists_found hobserved
  obtain ⟨found', hresult', hobserved'⟩ := Analysis.exists_found hobserved'
  obtain ⟨hlist, hdepth⟩ := Prod.mk.inj hobserved
  obtain ⟨hdata, hcalled⟩ := Prod.mk.inj hobserved'
  have hnone : ∀ ends, ends ∉ found.cut := by
    intro ends hmem
    rw [← Std.TreeSet.mem_toList, hlist] at hmem
    cases hmem
  obtain ⟨hsubset, hshallower⟩ :=
    run_of_removes Symbols.nameOf_standard_injective removes_unreturned hresult
  obtain ⟨other, hother, hnone', -⟩ := hshallower hnone
  obtain rfl := Except.ok.inj (hother.symm.trans hresult')
  exact ⟨found, _, hresult, hresult', hdepth, hdata, hcalled, hnone', hsubset _ hresult'⟩

end Analysis

end Depth

end Midrange
