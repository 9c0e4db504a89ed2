import Midrange.Proofs.CommandLine.Publishing

namespace Midrange.CommandLine

open Work

/-- No switch that takes a value has been left empty by a divider. -/
structure Settings.Filled (settings : Settings) : Prop where
  device : settings.device ≠ none
  hints : none ∉ settings.hints
  data : none ∉ settings.data
  maxDepth : settings.maxDepth ≠ none

/-- The last line of what is shown tells a failure. -/
def Outcome.Reports (outcome : Outcome) (failure : Failure) : Prop :=
  ∃ shown, outcome.errors = shown ++ failure.message ++ "\n"

/-- A file of hints is reached that is no text in UTF-8: the image is accepted, and so are all hints
    in front of it. -/
def MeetsNoText (settings : Settings) (device : Device) (session : Session)
    (fault : Text.Utf8Fault) : Prop :=
  ∃ before path after image opened symbols middle bytes,
    settings.hints = before ++ some path :: after ∧
    (takeImage settings device).on session = (.ok image, opened) ∧
    (before.foldlM loadHints .standard).on opened = (.ok symbols, middle) ∧
    middle.bytesOf path = .ok bytes ∧ Text.decodeUtf8 bytes = .error fault

variable {arguments : List String} {settings : Settings} {device : Device} {files : Files}
  {session last : Session} {failure : Failure} {fault : Text.Utf8Fault}

theorem MeetsNoText.exists_on_work (hmeets : MeetsNoText settings device session fault) :
    ∃ last, (work settings device).on session = (.error (.encoding fault), last) := by
  obtain ⟨before, path, after, image, opened, symbols, middle, bytes, heq, himage, hbefore, hbytes,
    hfault⟩ := hmeets
  have hhints : (settings.hints.foldlM loadHints .standard).on opened =
      (.error (.encoding fault), middle) :=
    on_foldlM_eq_error_iff.mpr
      ⟨before, some path, after, symbols, middle, heq, hbefore,
        on_loadHints_of_no_text hbytes hfault⟩
  have hnames : (takeNames settings).on opened = (.error (.encoding fault), middle) :=
    on_bind_eq_error_iff.mpr (Or.inl hhints)
  have htaken : (takeApart settings device).on session = (.error (.encoding fault), middle) :=
    on_bind_eq_error_iff.mpr (Or.inr ⟨image, opened, himage,
      on_bind_eq_error_iff.mpr (Or.inl hnames)⟩)
  exact ⟨middle, on_bind_eq_error_iff.mpr (Or.inl htaken)⟩

/-- A failure that is told for what it is: one of the image, of the hints or of the nesting of
    calls. -/
def Failure.Foreseen (failure : Failure) : Prop :=
  (∃ fault, failure = .image fault) ∨ (∃ fault, failure = .hint fault) ∨
  ∃ fault, failure = .depth fault

/-- If all files can be read, a program can only fail to be taken apart for a reason that is told as
    such, or because hints are no text, or because a switch has been left empty. -/
theorem cases_of_on_takeApart (hreadable : ∀ path ∈ settings.sources, session.files.Readable path)
    (hon : (takeApart settings device).on session = (.error failure, last)) :
    failure.Foreseen ∨
      (∃ fault, failure = .encoding fault ∧ MeetsNoText settings device session fault) ∨
      failure.status = 2 ∧ ¬ settings.Filled := by
  have hfile {fault : FileFault} (heq : failure = .file fault) : False :=
    not_arises_of_readable hreadable fault (heq ▸ arises_of_on_takeApart hon)
  obtain himage | ⟨image, opened, himage, hnames | ⟨symbols, named, fault, -, -, rfl⟩⟩ :=
    on_takeApart_eq_error hon
  · obtain ⟨first, loaded, -, hload⟩ := exists_of_on_takeImage himage
    obtain ⟨-, ⟨fault, -, heq⟩ | ⟨_, fault, -, -, heq⟩⟩ := on_loadImage_eq_error_iff.mp hload
    · exact (hfile heq).elim
    · exact Or.inl (Or.inl ⟨fault, heq⟩)
  · obtain ⟨before, hints?, after, symbols, middle, hhints, hbefore, hload⟩ | ⟨hdata, rfl⟩ :=
      on_takeNames_eq_error hnames
    · obtain ⟨rfl, rfl⟩ | ⟨path, rfl,
          ⟨fault, -, heq⟩ | ⟨bytes, fault, hbytes, hfault, heq⟩ | ⟨fault, heq⟩⟩ :=
        on_loadHints_eq_error hload
      · refine Or.inr (Or.inr ⟨rfl, fun hfilled => hfilled.hints ?_⟩)
        exact hhints ▸ List.mem_append_right before List.mem_cons_self
      · exact (hfile heq).elim
      · exact Or.inr (Or.inl ⟨fault, heq, before, path, after, image, opened, symbols, middle,
          bytes, hhints, himage, hbefore, hbytes, hfault⟩)
      · exact Or.inl (Or.inr (Or.inl ⟨fault, heq⟩))
    · exact Or.inr (Or.inr ⟨rfl, fun hfilled => hfilled.data hdata⟩)
  · unfold depthFailure
    split
    · next hnone =>
      exact Or.inr (Or.inr ⟨rfl,
        fun hfilled => hfilled.maxDepth (Option.isNone_iff_eq_none.mp hnone)⟩)
    · exact Or.inl (Or.inr (Or.inr ⟨fault, rfl⟩))

theorem Failure.Foreseen.status_eq (hforeseen : failure.Foreseen) : failure.status = 1 := by
  obtain ⟨fault, rfl⟩ | ⟨fault, rfl⟩ | ⟨fault, rfl⟩ := hforeseen <;> rfl

/-- If all files can be read and written, work succeeds, or it fails in taking the program apart. -/
theorem exists_on_work (hwritable : ∀ path ∈ settings.outlets, session.files.Writable path) :
    (∃ last, (work settings device).on session = (.ok (), last)) ∨
      ∃ failure last, (work settings device).on session = (.error failure, last) ∧
        (takeApart settings device).on session = (.error failure, last) := by
  rcases htaken : (takeApart settings device).on session with ⟨failure | disassembly, middle⟩
  · exact Or.inr ⟨failure, middle, on_bind_eq_error_iff.mpr (Or.inl htaken), rfl⟩
  · have halike := (keeps_takeApart settings device).alike htaken
    obtain ⟨_, last, hon, -⟩ | ⟨path, hmem, reached, fault, -, hreached, hfault, -⟩ :=
      writes_publish settings disassembly middle
    · exact Or.inl ⟨last, on_bind_eq_ok_iff.mpr ⟨disassembly, middle, htaken, hon⟩⟩
    · rw [halike.files] at hreached
      obtain ⟨place, hplace⟩ := hreached.writable (hwritable path hmem)
      rw [hplace] at hfault
      cases hfault

/-- How a command ends whose files can all be read and written. Whatever is wrong with the image or
    with a hint is told as such, with status one, and so is a call that nests too deep. The status
    is two for an internal error exactly if a file of hints is reached that is no text, unless a
    switch has been left empty. -/
theorem status_of_readable (hcommand : command arguments = .ok (.run settings))
    (hstart : openSession settings files = .ok session)
    (hreadable : ∀ path ∈ settings.sources, session.files.Readable path)
    (hwritable : ∀ path ∈ settings.outlets, session.files.Writable path) :
    (settings.device = none ∧ run arguments files = .error .emptyDevice) ∨
    ∃ device outcome, settings.device = some device ∧ run arguments files = .ok outcome ∧
      (outcome.status = 0 ∨
        (outcome.status = 1 ∧ ∃ failure, failure.Foreseen ∧ outcome.Reports failure) ∨
        outcome.status = 2 ∧
          ((∃ fault, MeetsNoText settings device session fault ∧
            outcome.Reports (.encoding fault)) ∨ ¬ settings.Filled)) ∧
      ((∃ fault, MeetsNoText settings device session fault) → outcome.status = 2) := by
  cases hdevice : settings.device with
  | none =>
    refine Or.inl ⟨rfl, ?_⟩
    simp only [run, hcommand, perform, hstart, hdevice]
    rfl
  | some device =>
    have hrun := run_eq_outcome hcommand hstart hdevice
    refine Or.inr ⟨device, _, rfl, hrun, ?_, ?_⟩
    · obtain ⟨last, hon⟩ | ⟨failure, last, hon, htaken⟩ := exists_on_work hwritable
      · rw [hon]
        exact Or.inl rfl
      · rw [hon]
        have hreports : (outcome settings (.error failure) last).Reports failure := ⟨_, rfl⟩
        have hstatus : (outcome settings (.error failure) last).status = failure.status := rfl
        obtain hforeseen | ⟨fault, rfl, hmeets⟩ | ⟨htwo, hempty⟩ :=
          cases_of_on_takeApart hreadable htaken
        · exact Or.inr (Or.inl ⟨hforeseen.status_eq, failure, hforeseen, hreports⟩)
        · exact Or.inr (Or.inr ⟨rfl, Or.inl ⟨fault, hmeets, hreports⟩⟩)
        · exact Or.inr (Or.inr ⟨htwo, Or.inr hempty⟩)
    · rintro ⟨fault, hmeets⟩
      obtain ⟨last, hon⟩ := hmeets.exists_on_work
      rw [hon]
      rfl

/-- An image without words, hints that say nothing, and hints that are no text. -/
def undecodable : Files where
  present := [("a.hex", [0x3a, 0x30, 0x30, 0x30, 0x30, 0x30, 0x30, 0x30, 0x31, 0x46, 0x46, 0x0a]),
    ("a.txt", []), ("b.txt", [0xff])]

private theorem exists_on_of_isSome {α : Type} {work : Work α}
    (hsome : (work.on session).1.toOption.isSome = true) :
    ∃ value, work.on session = (.ok value, (work.on session).2) := by
  rcases hon : work.on session with ⟨failure | value, last⟩
  · rw [hon] at hsome
    cases hsome
  · exact ⟨value, rfl⟩

theorem status_of_readable_undecodable :
    ∃ outcome, run ["a.hex", "--format", "hex", "--hints", "a.txt", "--hints", "b.txt", "-o",
      "a.asm"] undecodable = .ok outcome ∧ outcome.status = 2 := by
  let settings : Settings :=
    { input := "a.hex", format := some .hex, hints := [some "a.txt", some "b.txt"],
      output := some "a.asm" }
  let session : Session := { files := undecodable }
  have hcommand : command ["a.hex", "--format", "hex", "--hints", "a.txt", "--hints", "b.txt", "-o",
      "a.asm"] = .ok (.run settings) := by
    decide +kernel
  have hstart : openSession settings undecodable = .ok session := rfl
  have hreadable : ∀ path ∈ settings.sources, session.files.Readable path := by decide +kernel
  have hwritable : ∀ path ∈ settings.outlets, session.files.Writable path := by decide +kernel
  let opened := ((takeImage settings .generic).on session).2
  let middle := (([some "a.txt"].foldlM loadHints .standard).on opened).2
  have himage : ((takeImage settings .generic).on session).1.toOption.isSome = true := by
    decide +kernel
  have hbefore : (([some "a.txt"].foldlM loadHints .standard).on opened).1.toOption.isSome =
      true := by
    decide +kernel
  have hbytes : middle.bytesOf "b.txt" = .ok [0xff] := by decide +kernel
  have hmeets : MeetsNoText settings .generic session ⟨0, [0xff], .badStart⟩ := by
    obtain ⟨image, himage⟩ := exists_on_of_isSome himage
    obtain ⟨symbols, hbefore⟩ := exists_on_of_isSome hbefore
    exact ⟨[some "a.txt"], "b.txt", [], image, opened, symbols, middle, [0xff], rfl, himage,
      hbefore, hbytes, rfl⟩
  obtain ⟨hnone, -⟩ | ⟨device, outcome, hdevice, hrun, -, hstatus⟩ :=
    status_of_readable hcommand hstart hreadable hwritable
  · cases hnone
  · obtain rfl : Device.generic = device := Option.some.inj hdevice
    exact ⟨outcome, hrun, hstatus ⟨_, hmeets⟩⟩

/-- Bytes that are no text, in a file of hints that can be read, are told as an internal error. -/
theorem internal_error_of_undecodable :
    undecodable.Readable "a.hex" ∧ undecodable.Readable "b.txt" ∧
      ∃ outcome, run ["a.hex", "--format", "hex", "--hints", "b.txt"] undecodable = .ok outcome ∧
        outcome.status = 2 := by
  let settings : Settings := { input := "a.hex", format := some .hex, hints := [some "b.txt"] }
  have hcommand : command ["a.hex", "--format", "hex", "--hints", "b.txt"] =
      .ok (.run settings) := by
    decide +kernel
  have hstart : openSession settings undecodable = .ok { files := undecodable } := rfl
  have hdevice : settings.device = some .generic := rfl
  have hfailed : ((work settings .generic).on { files := undecodable }).1 =
      .error (.encoding ⟨0, [0xff], .badStart⟩) := by
    decide +kernel
  refine ⟨by decide +kernel, by decide +kernel, _, run_eq_outcome hcommand hstart hdevice, ?_⟩
  rw [hfailed]
  rfl

end Midrange.CommandLine
