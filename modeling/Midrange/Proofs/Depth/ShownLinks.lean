import Midrange.Proofs.Depth.Links

namespace Midrange.Depth

/-- The links that are shown so far, with the pairs of routines that they join. -/
structure Display where
  links : List Link := []
  pairs : Std.TreeSet Ends := ∅

namespace Display

/-- Shows one more link, unless it is a call where calls are hidden, or its pair is shown already
    where one link for each pair is enough. -/
def add (options : Options) (display : Display) (link : Link) : Display :=
  if options.hideCalls = true ∧ link.kind = .call then display
  else if options.oneLinkPerPair = true ∧ link.ends ∈ display.pairs then display
  else ⟨display.links ++ [link], display.pairs.insert link.ends⟩

/-- Shows the links that a visit meets, one by one. -/
def follow (options : Options) (code : Code) (display : Display) (visit : Visit) : Display :=
  (visit.stretch.departures.filterMap (code.link? visit.arrival.entry.routine)).foldl
    (add options) display

variable {options : Options}

/-- Of the links that follow, those are shown that options leave in and whose pair is not shown
    already. -/
theorem links_foldl_add (display : Display) (links : List Link) :
    (links.foldl (add options) display).links = display.links ++
      let kept := if options.hideCalls then links.filter (·.kind ≠ .call) else links
      if options.oneLinkPerPair then freshBy Link.ends display.pairs kept else kept := by
  induction links generalizing display with
  | nil => simp [freshBy]
  | cons link rest ih =>
    rw [List.foldl_cons, ih]
    by_cases hhidden : options.hideCalls = true ∧ link.kind = .call
    · simp [add, hhidden]
    · have hkept :
          (if options.hideCalls then (link :: rest).filter (·.kind ≠ .call) else link :: rest) =
          link :: if options.hideCalls then rest.filter (·.kind ≠ .call) else rest := by
        split
        case isTrue hhides =>
          exact List.filter_cons_of_pos (decide_eq_true fun hcall => hhidden ⟨hhides, hcall⟩)
        case isFalse => rfl
      simp only [hkept, add, hhidden, if_false]
      by_cases hpairs : options.oneLinkPerPair = true
      · by_cases hknown : link.ends ∈ display.pairs
        · simp [hpairs, hknown, freshBy]
        · simp [hpairs, hknown, freshBy]
      · simp [hpairs]

/-- To show links while they are met comes to the same as to choose among them once all are
    known. -/
theorem links_foldl_follow (code : Code) (visits : List Visit) :
    (visits.foldl (follow options code) {}).links =
      Analysis.shownLinks options (visits.flatMap fun visit =>
        visit.stretch.departures.filterMap (code.link? visit.arrival.entry.routine)) := by
  have hfold : ((visits.flatMap fun visit => visit.stretch.departures.filterMap
      (code.link? visit.arrival.entry.routine)).foldl (add options) {}).links = _ :=
    links_foldl_add {} _
  rw [List.foldl_flatMap] at hfold
  exact hfold

end Display

namespace Analysis

variable {image : Image} {symbols : Symbols} {options : Options}

/-- The links that options leave in, in the words of the standard library. -/
private theorem shownLinks_eq (options : Options) (links : List Link) : shownLinks options links =
    let kept := if options.hideCalls then links.filter (·.kind ≠ .call) else links
    if options.oneLinkPerPair then kept.eraseDupsBy (fun link earlier => link.ends == earlier.ends)
    else kept := by
  simp only [shownLinks, distinctBy, freshBy_eq_eraseDupsBy]
  simp

/-- A search that settles has met the links of its visits, in order. -/
private theorem links_of_settled {last : Search} (hsettled : (survey image symbols options).settled
      ((survey image symbols options).plan options) = .ok last) :
    last.links.toList = last.visits.toList.flatMap fun visit => visit.stretch.departures.filterMap
      ((⟨image, symbols, options.memoryLimit⟩ : Code).link? visit.arrival.entry.routine) := by
  obtain ⟨_, hturns, -⟩ := exists_turns_of_settled hsettled
  rw [hturns.run.links_eq]
  refine List.flatMap_congr fun visit hvisit => ?_
  rw [Plan.links, hturns.run.sound.stretch_eq visit hvisit]
  refine List.filterMap_congr fun departure _ => ?_
  cases departure with
  | skip => rfl
  | branch kind site target => simp only [Code.link?, nameOf_plan]

/-- Options on links make no difference before all links are known. -/
private theorem result_showing (image : Image) (symbols : Symbols) (options : Options)
    (pairs calls : Bool) :
    let survey := survey image symbols options
    let plan := survey.plan options
    let showing : Options := { options with oneLinkPerPair := pairs, hideCalls := calls }
    (run image symbols showing).result =
      ((survey.settled plan).mapError (·.fault)).map (findings plan showing survey.labelled.2) := by
  intro survey plan showing
  have hsurvey : Analysis.survey image symbols showing = survey := rfl
  have hplan : survey.plan showing = plan := rfl
  simp only [run, hsurvey, hplan]
  cases survey.settled plan <;> rfl

/-- Options on links only choose which of them to show. For all four settings the analysis fails
    alike, or else it finds the same but for the links. Of those that are shown by default, the
    calls are left out where they are hidden, and of the others only the first one for each pair is
    left where one is enough. This comes to the same as to choose while the visits are made, at each
    branch that is met. -/
theorem run_eq_of_shown (image : Image) (symbols : Symbols) (options : Options) :
    let code : Code := ⟨image, symbols, options.memoryLimit⟩
    let showing (pairs calls : Bool) : Options :=
      { options with oneLinkPerPair := pairs, hideCalls := calls }
    (∃ fault, ∀ pairs calls, (run image symbols (showing pairs calls)).result = .error fault) ∨
    ∃ found, (run image symbols (showing false false)).result = .ok found ∧ ∀ pairs calls,
      let kept := if calls then found.links.filter (·.kind ≠ .call) else found.links
      let shown :=
        if pairs then kept.eraseDupsBy (fun link earlier => link.ends == earlier.ends) else kept
      (run image symbols (showing pairs calls)).result = .ok { found with links := shown } ∧
        shown = (found.visits.foldl (Display.follow (showing pairs calls) code) {}).links := by
  intro code showing
  have hresult := result_showing image symbols options
  cases hsettled : (survey image symbols options).settled
    ((survey image symbols options).plan options) with
  | error failure =>
    simp only [hsettled] at hresult
    exact Or.inl ⟨failure.fault, hresult⟩
  | ok last =>
    simp only [hsettled] at hresult
    obtain ⟨found, hfound⟩ : ∃ found, found = findings ((survey image symbols options).plan options)
        (showing false false) (survey image symbols options).labelled.2 last := ⟨_, rfl⟩
    have hlinks : found.links = last.links.toList := by
      rw [hfound]
      rfl
    have hvisits : found.visits = last.visits.toList := by
      rw [hfound]
      rfl
    refine Or.inr ⟨found, (hresult false false).trans (congrArg _ hfound.symm),
      fun pairs calls => ?_⟩
    intro kept shown
    have hshown : shownLinks (showing pairs calls) found.links = shown :=
      shownLinks_eq (showing pairs calls) found.links
    refine ⟨(hresult pairs calls).trans ?_, ?_⟩
    · rw [← hshown, hlinks, hfound]
      rfl
    · rw [Display.links_foldl_follow, hvisits, ← links_of_settled hsettled, ← hlinks, hshown]

end Analysis

end Midrange.Depth
