import Midrange.Proofs.Depth.Alike
import Midrange.Proofs.Depth.Coverage

namespace Midrange.Depth

/-- The addresses at which control looks along a stretch that starts somewhere: all that it passes,
    and the one at which it goes no further. -/
def Stretch.looks (stretch : Stretch) (start : Int) : List Int :=
  stretch.addresses ++ [start + stretch.addresses.length]

namespace Code

variable {left right : Image} {symbols : Symbols} {limit address start : Int} {count : Nat}
  {selection : Selection} {inTable : Bool}

/-- Control looks at the address where it starts, whether or not it passes it. -/
private theorem start_mem_looks (code : Code) :
    address ∈ (code.follow count address selection inTable).looks address := by
  obtain ⟨ending, hhalted⟩ | ⟨departure?, rest, hlead⟩ :=
    follow_eq_halted_or_lead code count address selection inTable
  · simp [hhalted, Stretch.looks, Stretch.halted]
  · simp [hlead, Stretch.looks, Stretch.lead]

/-- A stretch looks wherever the stretch behind its first address does. -/
private theorem looks_lead {rest : Stretch} {departure? : Option Departure} {other : Int}
    (hmem : other ∈ rest.looks (address + 1)) :
    other ∈ (rest.lead address departure?).looks address := by
  simp only [Stretch.looks, Stretch.lead, List.mem_append, List.mem_singleton,
    List.length_cons] at hmem ⊢
  obtain hpassed | hlast := hmem
  · exact Or.inl (List.mem_cons_of_mem _ hpassed)
  · right
    omega

private theorem wordAt_congr (hword : left.word? address = right.word? address) :
    (⟨left, symbols, limit⟩ : Code).wordAt address =
      (⟨right, symbols, limit⟩ : Code).wordAt address := by
  simp only [wordAt, hword]

private theorem follow_congr
    (hagree :
      ∀ other ∈ ((⟨left, symbols, limit⟩ : Code).follow count address selection inTable).looks
        address, left.word? other = right.word? other) :
    (⟨left, symbols, limit⟩ : Code).follow count address selection inTable =
      (⟨right, symbols, limit⟩ : Code).follow count address selection inTable := by
  have hhere : (⟨left, symbols, limit⟩ : Code).wordAt address =
      (⟨right, symbols, limit⟩ : Code).wordAt address :=
    wordAt_congr (hagree address (start_mem_looks _))
  induction count generalizing address selection inTable with
  | zero => simp only [follow, hhere]
  | succ count ih =>
    rw [follow] at hagree ⊢
    rw [follow, ← hhere]
    cases hword : (⟨left, symbols, limit⟩ : Code).wordAt address with
    | error ending => rfl
    | ok word =>
      simp only [hword] at hagree ⊢
      -- control goes on only if neither a table nor the operation ends the stretch here
      split
      · rfl
      · rename_i hopen
        rw [if_neg hopen] at hagree
        cases hending : ending? inTable (⟨address, word, selection⟩ : Instruction).mnemonic with
        | some ending => rfl
        | none =>
          simp only [hending] at hagree ⊢
          have hrest := fun other hmem => hagree other (looks_lead hmem)
          rw [ih hrest (wordAt_congr (hrest _ (start_mem_looks _)))]

/-- Where control goes from an address on depends on nothing but the words at which it looks. -/
theorem stretch_congr
    (hagree : ∀ other ∈ ((⟨left, symbols, limit⟩ : Code).stretch start).looks start,
      left.word? other = right.word? other) :
    (⟨left, symbols, limit⟩ : Code).stretch start =
      (⟨right, symbols, limit⟩ : Code).stretch start := by
  let count := max left.size right.size
  have hleft : (⟨left, symbols, limit⟩ : Code).follow count start (.atEntry start) false =
      (⟨left, symbols, limit⟩ : Code).stretch start := follow_eq_stretch (le_max_left _ _) start
  have hright : (⟨right, symbols, limit⟩ : Code).follow count start (.atEntry start) false =
      (⟨right, symbols, limit⟩ : Code).stretch start := follow_eq_stretch (le_max_right _ _) start
  rw [← hleft] at hagree ⊢
  rw [← hright]
  exact follow_congr hagree

end Code

namespace Analysis

variable {left right : Image} {symbols : Symbols} {options : Options}

/-- Two images that agree on which vectors hold code, and on every word at which control looks from
    an address where it can start. -/
structure Agree (left right : Image) (symbols : Symbols) (options : Options) : Prop where
  isPresent_eq : ∀ vector ∈ vectors options, left.isPresent vector.1 = right.isPresent vector.1
  word?_eq : ∀ start,
    (⟨left, symbols, options.memoryLimit⟩ : Code).Starts (seeds left symbols options) start →
    ∀ address ∈ ((⟨left, symbols, options.memoryLimit⟩ : Code).stretch start).looks start,
      left.word? address = right.word? address

namespace Agree

variable (hagree : Agree left right symbols options)

include hagree

theorem seeds_eq : seeds left symbols options = seeds right symbols options := by
  refine List.filterMap_congr fun vector hvector => ?_
  simp only [hagree.isPresent_eq vector hvector]

theorem seedJournal_eq : seedJournal left options = seedJournal right options := by
  refine List.filterMap_congr fun vector hvector => ?_
  simp only [hagree.isPresent_eq vector hvector]

theorem alike : (survey left symbols options).Alike (survey right symbols options) := by
  refine alike_of_alikeFrom hagree.seeds_eq ⟨?_, fun start hstarts => ?_⟩
  · rw [code_survey, code_survey, hagree.seeds_eq]
  · obtain ⟨routine, depth, harrives⟩ := hstarts
    have hlooks := hagree.word?_eq start ⟨routine, depth, arrivesAt_plan_iff.mp harrives⟩
    exact (stretch_plan start).trans ((Code.stretch_congr hlooks).trans (stretch_plan start).symm)

theorem labelled_eq : (survey left symbols options).labelled =
    (survey right symbols options).labelled := by
  rw [Survey.labelled, Survey.labelled, hagree.alike.branches_eq, code_survey, code_survey,
    hagree.seeds_eq]

theorem journal_eq (warnings : List String) :
    (survey left symbols options).journal options warnings =
      (survey right symbols options).journal options warnings := by
  simp only [Survey.journal, code_survey, hagree.seedJournal_eq, hagree.alike.graph_eq,
    hagree.alike.entries_eq]

end Agree

/-- Words at which control never looks do not influence an analysis. If two images agree on which
    vectors hold code, and on the words at which control looks from any address where it can start,
    then the analysis of one is that of the other, its failure, findings, labels and messages
    included. -/
theorem run_eq_of_agree (hagree : Agree left right symbols options) :
    run left symbols options = run right symbols options := by
  have hplan := hagree.alike.plan options
  simp only [run, ← hagree.labelled_eq, ← hagree.alike.settled_eq, ← hagree.journal_eq,
    searchJournal, findings, hplan.recursionWarnings_eq, hplan.cut_eq]

/-- A program whose second routine calls the first one back, with some words that control never
    reaches. -/
private def littered (words : List (Int × Int)) : Image where
  words := .ofList ([(0, 0x2002), (1, 0x2801), (2, 0x2000), (3, 0x0008)] ++ words)

private def leftLitter : List (Int × Int) :=
  [(5, 0x2006)]

private def rightLitter : List (Int × Int) :=
  [(5, 0x0008), (6, 0x2000), (0x200, 0x0009)]

private theorem agree_littered :
    Agree (littered leftLitter) (littered rightLitter) .standard {} := by
  have hstarts : ∀ entry ∈ (survey (littered leftLitter) .standard {}).entries,
      entry.start ∈ [0, 1, 2] := by
    decide +kernel
  have hlooks : ∀ start ∈ [0, 1, 2], ∀ address ∈
      ((⟨littered leftLitter, .standard, Symbols.programLimit⟩ : Code).stretch start).looks start,
        (littered leftLitter).word? address = (littered rightLitter).word? address := by
    decide +kernel
  constructor
  · decide +kernel
  · rintro start ⟨routine, henters⟩
    exact hlooks start (hstarts ⟨start, routine⟩ (mem_entries_survey_iff.mpr henters))

theorem run_eq_of_agree_littered :
    (littered leftLitter).word? 5 ≠ (littered rightLitter).word? 5 ∧
      (littered leftLitter).isPresent 6 ≠ (littered rightLitter).isPresent 6 ∧
      ∃ found, (run (littered leftLitter) .standard {}).result = .ok found ∧
        (run (littered rightLitter) .standard {}).result = .ok found ∧
        found.cut.toList = [⟨"L0002", "reset_vector"⟩] ∧ found.depthAt? 3 = some 1 := by
  have hobserved : (run (littered leftLitter) .standard {}).result.toOption.map
      (fun found => (found.cut.toList, found.depthAt? 3)) =
        some ([⟨"L0002", "reset_vector"⟩], some 1) := by decide +kernel
  obtain ⟨found, hresult, hobserved⟩ := exists_found hobserved
  have hsame := run_eq_of_agree agree_littered
  refine ⟨by decide +kernel, by decide +kernel, found, hresult, hsame ▸ hresult,
    Prod.mk.inj hobserved⟩

end Analysis

end Midrange.Depth
