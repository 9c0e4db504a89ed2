import Midrange.Depth.Explore
import Midrange.Proofs.Depth.Stretch

namespace Midrange.Depth

namespace Code

/-- Control leads from an entry to another one, and nests so many levels deeper on the way. A skip
    stays in its routine. A call or a goto enters the routine that its target is named for, unless
    it is cut between the two routines, and only a call nests. -/
inductive Step (code : Code) (cut : Std.TreeSet Ends) : Entry → Int → Entry → Prop where
  | skip {entry : Entry} {target : Int}
      (hmem : .skip target ∈ (code.stretch entry.start).departures) :
      Step code cut entry 0 ⟨target, entry.routine⟩
  | goto {entry : Entry} {site target : Int}
      (hmem : .branch .goto site target ∈ (code.stretch entry.start).departures)
      (huncut : ⟨entry.routine, code.symbols.nameOf target⟩ ∉ cut) :
      Step code cut entry 0 ⟨target, code.symbols.nameOf target⟩
  | call {entry : Entry} {site target : Int}
      (hmem : .branch .call site target ∈ (code.stretch entry.start).departures)
      (huncut : ⟨entry.routine, code.symbols.nameOf target⟩ ∉ cut) :
      Step code cut entry 1 ⟨target, code.symbols.nameOf target⟩

/-- Any number of steps, with the levels that they nest altogether. -/
inductive Path (code : Code) (cut : Std.TreeSet Ends) : Entry → Int → Entry → Prop where
  | refl (entry : Entry) : Path code cut entry 0 entry
  | step {first second third : Entry} {levels more : Int}
      (hpath : Path code cut first levels second)
      (hstep : Step code cut second more third) : Path code cut first (levels + more) third

/-- A path leads from some seed to an entry, where control has a nesting depth. -/
def ArrivesAt (code : Code) (cut : Std.TreeSet Ends) (seeds : List Seed) (entry : Entry)
    (depth : Int) : Prop :=
  ∃ seed ∈ seeds, ∃ levels, code.Path cut seed.entry levels entry ∧ depth = seed.depth + levels

/-- Some path leads from a seed to an entry when nothing is cut. -/
def Enters (code : Code) (seeds : List Seed) (entry : Entry) : Prop :=
  ∃ depth, code.ArrivesAt ∅ seeds entry depth

/-- Control can come from the seeds to an address and start there, in whatever routine. -/
def Starts (code : Code) (seeds : List Seed) (start : Int) : Prop :=
  ∃ routine, code.Enters seeds ⟨start, routine⟩

variable {code : Code} {image : Image} {left right : Symbols} {limit : Int} {cut : Std.TreeSet Ends}
  {seeds : List Seed} {first second : Entry} {levels depth : Int}

/-- When nothing is cut, control takes each departure. -/
theorem exists_step (entry : Entry) {departure : Departure}
    (hmem : departure ∈ (code.stretch entry.start).departures) :
    ∃ levels, Step code ∅ entry levels (code.enter entry.routine departure) := by
  cases departure with
  | skip target => exact ⟨0, .skip hmem⟩
  | branch kind site target =>
    cases kind with
    | call => exact ⟨1, .call hmem Std.TreeSet.not_mem_emptyc⟩
    | goto => exact ⟨0, .goto hmem Std.TreeSet.not_mem_emptyc⟩

theorem Path.trans {third : Entry} {more : Int} (hfirst : Path code cut first levels second)
    (hsecond : Path code cut second more third) : Path code cut first (levels + more) third := by
  induction hsecond with
  | refl => rwa [Int.add_zero]
  | step _ hstep ih =>
    rw [← Int.add_assoc]
    exact ih.step hstep

theorem ArrivesAt.path (harrives : ArrivesAt code cut seeds first depth)
    (hpath : Path code cut first levels second) :
    ArrivesAt code cut seeds second (depth + levels) := by
  obtain ⟨seed, hseed, before, hbefore, rfl⟩ := harrives
  exact ⟨seed, hseed, before + levels, hbefore.trans hpath, Int.add_assoc ..⟩

/-- A step is taken in other code too where this one departs no other way, the names are the same,
    and no more is cut. -/
theorem Step.widen {code' : Code} {less : Std.TreeSet Ends}
    (hname : code.symbols.nameOf = code'.symbols.nameOf)
    (hdepartures : (code.stretch first.start).departures ⊆ (code'.stretch first.start).departures)
    (hless : ∀ ends ∈ less, ends ∈ cut) (hstep : Step code cut first levels second) :
    Step code' less first levels second := by
  cases hstep with
  | skip hmem => exact .skip (hdepartures hmem)
  | goto hmem huncut =>
    rw [hname] at huncut ⊢
    exact .goto (hdepartures hmem) (mt (hless _) huncut)
  | call hmem huncut =>
    rw [hname] at huncut ⊢
    exact .call (hdepartures hmem) (mt (hless _) huncut)

theorem Path.widen {code' : Code} {less : Std.TreeSet Ends}
    (hname : code.symbols.nameOf = code'.symbols.nameOf)
    (hdepartures : ∀ start, (code.stretch start).departures ⊆ (code'.stretch start).departures)
    (hless : ∀ ends ∈ less, ends ∈ cut) (hpath : Path code cut first levels second) :
    Path code' less first levels second := by
  induction hpath with
  | refl => exact .refl _
  | step _ hstep ih => exact ih.step (hstep.widen hname (hdepartures _) hless)

/-- With less cut the same paths are left, and maybe more. -/
theorem Path.mono {less : Std.TreeSet Ends} (hless : ∀ ends ∈ less, ends ∈ cut)
    (hpath : Path code cut first levels second) : Path code less first levels second :=
  hpath.widen rfl (fun _ => List.Subset.refl _) hless

theorem ArrivesAt.enters (harrives : ArrivesAt code cut seeds first depth) :
    Enters code seeds first := by
  obtain ⟨seed, hseed, levels, hpath, hdepth⟩ := harrives
  have hnone (ends : Ends) (hends : ends ∈ (∅ : Std.TreeSet Ends)) : ends ∈ cut :=
    absurd hends Std.TreeSet.not_mem_emptyc
  exact ⟨depth, seed, hseed, levels, hpath.mono hnone, hdepth⟩

theorem starts_of_mem_seeds {seed : Seed} (hseed : seed ∈ seeds) : Starts code seeds seed.address :=
  ⟨seed.label, seed.depth, seed, hseed, 0, .refl _, (Int.add_zero _).symm⟩

theorem ArrivesAt.starts (harrives : ArrivesAt code cut seeds first depth) :
    Starts code seeds first.start :=
  ⟨first.routine, harrives.enters⟩

theorem Starts.target {start : Int} {departure : Departure} (hstarts : Starts code seeds start)
    (hmem : departure ∈ (code.stretch start).departures) : Starts code seeds departure.target := by
  obtain ⟨routine, depth, harrives⟩ := hstarts
  obtain ⟨levels, hstep⟩ := exists_step ⟨start, routine⟩ hmem
  have hbehind := harrives.path ((Path.refl _).step hstep)
  have htarget : (code.enter routine departure).start = departure.target := by
    cases departure <;> rfl
  exact htarget ▸ hbehind.starts

theorem Step.congr (hsame : SameCode left right) (hname : left.nameOf = right.nameOf)
    (hstep : Step ⟨image, left, limit⟩ cut first levels second) :
    Step ⟨image, right, limit⟩ cut first levels second := by
  refine hstep.widen hname ?_ fun _ hends => hends
  rw [hsame.stretch_eq]
  exact List.Subset.refl _

/-- Paths depend on the names that addresses go by, not on the labels that are recorded. -/
theorem Path.congr (hsame : SameCode left right) (hname : left.nameOf = right.nameOf)
    (hpath : Path ⟨image, left, limit⟩ cut first levels second) :
    Path ⟨image, right, limit⟩ cut first levels second := by
  induction hpath with
  | refl => exact .refl _
  | step _ hstep ih => exact .step ih (hstep.congr hsame hname)

theorem arrivesAt_congr (hsame : SameCode left right) (hname : left.nameOf = right.nameOf) :
    ArrivesAt ⟨image, left, limit⟩ cut seeds first depth ↔
      ArrivesAt ⟨image, right, limit⟩ cut seeds first depth := by
  constructor
  · rintro ⟨seed, hseed, levels, hpath, hdepth⟩
    exact ⟨seed, hseed, levels, hpath.congr hsame hname, hdepth⟩
  · rintro ⟨seed, hseed, levels, hpath, hdepth⟩
    exact ⟨seed, hseed, levels, hpath.congr hsame.symm hname.symm, hdepth⟩

end Code

end Midrange.Depth
