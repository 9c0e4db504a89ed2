import Midrange.Proofs.Depth.Alike
import Midrange.Proofs.Depth.Termination
import Midrange.Sweep

namespace Midrange

namespace Symbols

theorem isLabelled_ensureLabel_iff {symbols : Symbols} {address other : Int} :
    (symbols.ensureLabel address).isLabelled other = true ↔
      address = other ∨ symbols.isLabelled other = true := by
  simp only [isLabelled, ensureLabel, Std.TreeMap.contains_iff_mem, Std.TreeMap.mem_insertIfNew,
    Std.compare_eq_iff_eq]

theorem isLabelled_ensureLabels_iff {symbols : Symbols} {addresses : List Int} {address : Int} :
    (symbols.ensureLabels addresses).isLabelled address = true ↔
      address ∈ addresses ∨ symbols.isLabelled address = true := by
  unfold ensureLabels
  induction addresses generalizing symbols with
  | nil => simp
  | cons first rest ih =>
    rw [List.foldl_cons, ih, isLabelled_ensureLabel_iff, List.mem_cons, or_left_comm,
      or_assoc, eq_comm]

end Symbols

namespace Depth

/-- The first one of some branches to each target that has no label. -/
def unlabelled (symbols : Symbols) (branches : List (Int × Int)) : List (Int × Int) :=
  distinctBy (·.2) (branches.filter fun branch => !symbols.isLabelled branch.2)

def unlabelledWarning (branch : Int × Int) : String :=
  let place := s!"{Text.hexLiteral 4 branch.1}: branch target {Text.hexLiteral 4 branch.2}"
  s!"{place} has no label, page tracking may have diverged"

theorem fst_labelTargets (symbols : Symbols) (branches : List (Int × Int)) :
    (labelTargets symbols branches).1 = symbols.ensureLabels (branches.map (·.2)) := by
  induction branches generalizing symbols with
  | nil => rfl
  | cons branch rest ih =>
    simp only [labelTargets]
    split <;> exact ih _

private theorem snd_labelTargets_eq_freshBy {symbols now : Symbols} {known : Std.TreeSet Int}
    (hnow : ∀ address, now.isLabelled address = true ↔
      symbols.isLabelled address = true ∨ address ∈ known)
    (branches : List (Int × Int)) :
    (labelTargets now branches).2 = (freshBy (·.2) known
      (branches.filter fun branch => !symbols.isLabelled branch.2)).map unlabelledWarning := by
  induction branches generalizing known now with
  | nil => rfl
  | cons branch rest ih =>
    obtain ⟨site, target⟩ := branch
    have hnext (address : Int) : (now.ensureLabel target).isLabelled address = true ↔
        target = address ∨ symbols.isLabelled address = true ∨ address ∈ known :=
      Symbols.isLabelled_ensureLabel_iff.trans (or_congr_right (hnow address))
    by_cases hlabelled : now.isLabelled target = true
    · have hsame (address : Int) : (now.ensureLabel target).isLabelled address = true ↔
          symbols.isLabelled address = true ∨ address ∈ known := by
        rw [hnext, or_iff_right_of_imp]
        rintro rfl
        exact (hnow _).mp hlabelled
      -- the branch is left out either way, for a label from before or for one from an earlier
      -- branch
      cases hbefore : symbols.isLabelled target with
      | true => simp [labelTargets, hlabelled, hbefore, ih hsame]
      | false =>
        have hseen : target ∈ known := ((hnow target).mp hlabelled).resolve_left (by simp [hbefore])
        simp [labelTargets, freshBy, hlabelled, hbefore, hseen, ih hsame]
    · obtain ⟨hbefore, hunseen⟩ := not_or.mp (mt (hnow target).mpr hlabelled)
      have hmore (address : Int) : (now.ensureLabel target).isLabelled address = true ↔
          symbols.isLabelled address = true ∨ address ∈ known.insert target := by
        rw [hnext, Std.TreeSet.mem_insert, Std.compare_eq_iff_eq, or_left_comm]
      simp [labelTargets, freshBy, hlabelled, hbefore, hunseen, ih hmore, unlabelledWarning]

/-- A branch to a target without a label brings about a warning, and no later branch to the same
    target does. -/
theorem snd_labelTargets (symbols : Symbols) (branches : List (Int × Int)) :
    (labelTargets symbols branches).2 = (unlabelled symbols branches).map unlabelledWarning :=
  snd_labelTargets_eq_freshBy (by simp) branches

/-- With more labels the same branches lack one, but for those whose targets have been given one. -/
theorem unlabelled_eq_filter {left right : Symbols} (branches : List (Int × Int))
    (hmore : ∀ address, left.isLabelled address = true → right.isLabelled address = true) :
    unlabelled right branches = (unlabelled left branches).filter fun branch =>
      !right.isLabelled branch.2 := by
  have hfilter : branches.filter (fun branch => !right.isLabelled branch.2) =
      (branches.filter fun branch => !left.isLabelled branch.2).filter fun branch =>
        !right.isLabelled branch.2 := by
    rw [List.filter_filter]
    refine List.filter_congr fun branch _ => ?_
    cases hleft : left.isLabelled branch.2 with
    | true => simp [hmore _ hleft]
    | false => simp
  rw [unlabelled, hfilter]
  exact freshBy_filter (fun address => !right.isLabelled address) (fun _ _ => rfl) _

theorem of_mem_unlabelled {symbols : Symbols} {branches : List (Int × Int)} {branch : Int × Int}
    (hmem : branch ∈ unlabelled symbols branches) :
    branch ∈ branches ∧ symbols.isLabelled branch.2 = false := by
  have hkept := (freshBy_sublist _ _ _).subset hmem
  rwa [List.mem_filter, Bool.not_eq_true'] at hkept

namespace Analysis

variable {image : Image} {symbols : Symbols} {options : Options}

theorem seeds_ensureLabels (added : List Int) :
    seeds image (symbols.ensureLabels added) options = seeds image symbols options := by
  simp only [seeds, nameOf_ensureLabels]

theorem alike_survey (image : Image) (symbols : Symbols) (options : Options) (added : List Int) :
    (survey image (symbols.ensureLabels added) options).Alike (survey image symbols options) := by
  have hsame (table : Symbols) :=
    sameCode_ensureLabels table ((seeds image table options).map (·.address))
  refine alike_of_alikeFrom (seeds_ensureLabels added) ?_
  rw [code_survey, code_survey]
  refine SameCode.alikeFrom
    ((hsame _).trans ((sameCode_ensureLabels symbols added).trans (hsame _).symm)) ?_ _ _ _
  simp only [nameOf_ensureLabels]

/-- The branches in reach that give their targets labels. -/
def Survey.unlabelled (survey : Survey) : List (Int × Int) :=
  Depth.unlabelled survey.chart.code.symbols (survey.chart.branches survey.entries)

theorem Survey.snd_labelled (survey : Survey) :
    survey.labelled.2 = survey.unlabelled.map unlabelledWarning :=
  snd_labelTargets _ _

/-- With some more labels than before an analysis fails like before, or it finds the same and warns
    of the same branches but for those whose targets are labelled by now. -/
def Repeats (image : Image) (symbols : Symbols) (options : Options) (labelled : Symbols) : Prop :=
  let survey := survey image symbols options
  (∃ fault, (run image symbols options).result = .error fault ∧
    (run image labelled options).result = .error fault) ∨
  ∃ found links, (run image symbols options).result = .ok found ∧
    found.warnings = survey.unlabelled.map unlabelledWarning ++
      recursionWarnings (survey.plan options) links ∧
    (run image labelled options).result = .ok { found with
      warnings :=
        (survey.unlabelled.filter fun branch => !labelled.isLabelled branch.2).map
          unlabelledWarning ++
        recursionWarnings (survey.plan options) links }

private theorem isLabelled_survey_iff {address : Int} :
    (survey image symbols options).chart.code.symbols.isLabelled address = true ↔
      address ∈ (seeds image symbols options).map (·.address) ∨
      symbols.isLabelled address = true := by
  rw [code_survey]
  exact Symbols.isLabelled_ensureLabels_iff

theorem unlabelled_survey (added : List Int) :
    (survey image (symbols.ensureLabels added) options).unlabelled =
      (survey image symbols options).unlabelled.filter
        fun branch => !(symbols.ensureLabels added).isLabelled branch.2 := by
  have halike := alike_survey image symbols options added
  have hmore (address : Int)
      (hlabelled : (survey image symbols options).chart.code.symbols.isLabelled address = true) :
      (survey image (symbols.ensureLabels added) options).chart.code.symbols.isLabelled address =
        true := by
    rw [isLabelled_survey_iff, seeds_ensureLabels, Symbols.isLabelled_ensureLabels_iff]
    exact (isLabelled_survey_iff.mp hlabelled).imp_right Or.inr
  rw [Survey.unlabelled, halike.branches_eq, unlabelled_eq_filter _ hmore]
  -- the seeds have labels in either table, so that only the labels that were added count
  refine List.filter_congr fun branch hmem => congrArg not (Bool.eq_iff_iff.mpr ?_)
  rw [isLabelled_survey_iff, seeds_ensureLabels]
  refine or_iff_right fun hseed => ?_
  have hlabelled := isLabelled_survey_iff.mpr (Or.inl hseed)
  rw [(of_mem_unlabelled hmem).2] at hlabelled
  exact Bool.false_ne_true hlabelled

theorem repeats_ensureLabels (added : List Int) :
    Repeats image symbols options (symbols.ensureLabels added) := by
  have halike := alike_survey image symbols options added
  cases hsettled : (survey image symbols options).settled
    ((survey image symbols options).plan options) with
  | error failure =>
    refine Or.inl ⟨failure.fault, result_of_settled hsettled, ?_⟩
    exact result_of_settled ((halike.settled_eq options).trans hsettled)
  | ok last =>
    refine Or.inr ⟨_, last.links.toList, result_of_settled hsettled, ?_, ?_⟩
    · simp only [findings, Survey.snd_labelled]
    · rw [result_of_settled ((halike.settled_eq options).trans hsettled)]
      simp only [findings, Survey.snd_labelled, unlabelled_survey,
        (halike.plan options).recursionWarnings_eq, (halike.plan options).cut_eq]

/-- An analysis gives labels to the vectors and to the targets of all branches in reach. -/
theorem symbols_run (image : Image) (symbols : Symbols) (options : Options) :
    let survey := survey image symbols options
    (run image symbols options).symbols = symbols.ensureLabels
      (survey.seeds.map (·.address) ++ (survey.chart.branches survey.entries).map (·.2)) := by
  intro survey
  have hrun : (run image symbols options).symbols = survey.labelled.1 := by
    simp only [run]
    split <;> rfl
  rw [hrun, Survey.labelled, fst_labelTargets, code_survey]
  exact (List.foldl_append ..).symm

/-- Labels that were given earlier do not influence an analysis, be it by a sweep over the image, by
    an analysis or in any other way: it repeats the one without them, apart from warnings of missing
    labels. A second analysis repeats the first one, and misses no label any more. -/
theorem run_eq_of_ensureLabels (image : Image) (symbols : Symbols) (options : Options) :
    (∀ added, Repeats image symbols options (symbols.ensureLabels added)) ∧
    (∀ instructions, Repeats image symbols options (Sweep.label symbols instructions)) ∧
    Repeats image symbols options (run image symbols options).symbols ∧
    ∀ branch ∈ (survey image symbols options).unlabelled,
      (run image symbols options).symbols.isLabelled branch.2 = true := by
  refine ⟨repeats_ensureLabels, fun _ => repeats_ensureLabels _, ?_, fun branch hmem => ?_⟩
  · rw [symbols_run]
    exact repeats_ensureLabels _
  · rw [symbols_run, Symbols.isLabelled_ensureLabels_iff, List.mem_append]
    exact Or.inl (Or.inr (List.mem_map_of_mem (of_mem_unlabelled hmem).1))

end Analysis

end Depth

end Midrange
