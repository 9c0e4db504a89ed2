import Midrange.Proofs.CommandLine.Faults
import Midrange.Proofs.CommandLine.Writing

namespace Midrange.CommandLine

open Work

/-- What a file holds: the text that has been written, or else what was there at first. -/
def Files.content? (files : Files) (path : Path) : Option (List UInt8) :=
  ((files.written.lookup path).map (·.toUTF8.toList)).or (files.present.lookup path)

/-- What a file holds once a command has come out. The messages are added to the log file. -/
def Outcome.content? (outcome : Outcome) (files : Files) (path : Path) : Option (List UInt8) :=
  let content? := { files with written := outcome.written }.content? path
  match outcome.log with
  | some (log, journal) =>
    if path = log then some (content?.getD [] ++ (logText journal).toUTF8.toList) else content?
  | none => content?

theorem Outcome.content?_eq {outcome : Outcome} {files : Files} {path : Path}
    (hwritten : outcome.written = files.written)
    (hother : ∀ log journal, outcome.log = some (log, journal) → path ≠ log) :
    outcome.content? files path = files.content? path := by
  unfold Outcome.content?
  rw [hwritten]
  split
  · next log journal hlog => exact if_neg (hother log journal hlog)
  · rfl

variable {arguments : List String} {settings : Settings} {device : Device} {files : Files}
  {session last : Session} {failure : Failure}

/-- No failure passes for success. -/
theorem Failure.status_ne_zero (failure : Failure) : failure.status ≠ 0 := by
  cases failure with
  | file fault => cases fault <;> exact Nat.succ_ne_zero _
  | image | hint | encoding | depth | emptyHints | emptyRange | emptyLimit =>
    exact Nat.succ_ne_zero _

/-- A session starts without output and without anything written but its log file. -/
structure Session.Fresh (settings : Settings) (files : Files) (session : Session) : Prop where
  output : session.output = ""
  written : session.files.written = files.written
  log : ∀ place, session.log = some place →
    ∃ path, settings.logFile = some path ∧ files.locateOutput (Path.direct path) = .ok place

theorem fresh_of_openSession (hstart : openSession settings files = .ok session) :
    session.Fresh settings files := by
  unfold openSession at hstart
  split at hstart
  · obtain rfl := Except.ok.inj hstart
    exact ⟨rfl, rfl, nofun⟩
  · next path hpath =>
    split at hstart
    · cases hstart
    · next place hplace =>
      obtain rfl := Except.ok.inj hstart
      refine ⟨rfl, ?_, fun other heq => ⟨path, hpath, Option.some.inj heq ▸ hplace⟩⟩
      unfold Files.touch
      split <;> rfl

/-- A command that starts comes out as its work ends. -/
theorem run_eq_outcome (hcommand : command arguments = .ok (.run settings))
    (hstart : openSession settings files = .ok session) (hdevice : settings.device = some device) :
    run arguments files =
      .ok (outcome settings ((work settings device).on session).1
        ((work settings device).on session).2) := by
  simp only [run, hcommand, perform, hstart, hdevice]
  rfl

/-- Work that fails because of what is read, or because of the program, has changed nothing but the
    messages. -/
theorem alike_of_on_work (hfailed : (work settings device).on session = (.error failure, last))
    (harises : failure.Arises settings session.files) : session.Alike last := by
  obtain htaken | ⟨disassembly, middle, htaken, hpublished⟩ := on_bind_eq_error_iff.mp hfailed
  · exact (keeps_takeApart settings device).alike htaken
  · obtain ⟨_, _, hon, -⟩ | ⟨_, -, _, fault, _, -, -, hon⟩ :=
      writes_publish settings disassembly middle
    · rw [hpublished] at hon
      cases hon
    · rw [hpublished] at hon
      cases hon
      exact absurd harises (not_arises_of_readable (readable_of_on_takeApart htaken) fault)

/-- A command that fails publishes nothing. If its work ends because of the image, the hints or the
    nesting of calls, then its status is not zero, it has no output, and it has not written
    anything; every file holds what it did, except for the log file. -/
theorem publishes_nothing_of_failure (hcommand : command arguments = .ok (.run settings))
    (hstart : openSession settings files = .ok session) (hdevice : settings.device = some device)
    (hfailed : (work settings device).on session = (.error failure, last))
    (harises : failure.Arises settings session.files) :
    ∃ outcome, run arguments files = .ok outcome ∧ outcome.status ≠ 0 ∧ outcome.output = "" ∧
      outcome.written = files.written ∧
      ∀ path,
        (∀ log place, settings.logFile = some log →
          files.locateOutput (Path.direct log) = .ok place → path ≠ place.text) →
        outcome.content? files path = files.content? path := by
  have hrun := run_eq_outcome hcommand hstart hdevice
  rw [hfailed] at hrun
  have hfresh := fresh_of_openSession hstart
  have halike := alike_of_on_work hfailed harises
  have hwritten : last.files.written = files.written := by rw [halike.files, hfresh.written]
  refine ⟨_, hrun, failure.status_ne_zero, halike.output.trans hfresh.output, hwritten,
    fun path hother => ?_⟩
  refine Outcome.content?_eq hwritten fun log journal hlog => ?_
  obtain ⟨place, hplace, heq⟩ := Option.map_eq_some_iff.mp hlog
  obtain ⟨rfl, -⟩ := Prod.mk.inj heq
  obtain ⟨named, hnamed, hlocated⟩ := hfresh.log place (halike.log ▸ hplace)
  exact hother named place hnamed hlocated

/-- An image without the mark that opens a record, and a listing from an earlier run. -/
def spoilt : Files where
  present := [("a.hex", [0x30, 0x30, 0x0a]), ("a.asm", [0x3b, 0x0a])]

theorem publishes_nothing_of_failure_spoilt :
    ∃ outcome,
      run ["a.hex", "--format", "hex", "-o", "a.asm", "--graph", "a.dot"] spoilt = .ok outcome ∧
      outcome.status ≠ 0 ∧ outcome.output = "" ∧
      outcome.content? spoilt "a.asm" = some [0x3b, 0x0a] ∧
      outcome.content? spoilt "a.dot" = none := by
  let settings : Settings :=
    { input := "a.hex", format := some .hex, output := some "a.asm", graph := some "a.dot" }
  have hcommand : command ["a.hex", "--format", "hex", "-o", "a.asm", "--graph", "a.dot"] =
      .ok (.run settings) := by
    decide +kernel
  have hfailed : ((work settings .generic).on { files := spoilt }).1 =
      .error (.image (.record 1 (.noMark "00"))) := by
    decide +kernel
  have hstart : openSession settings spoilt = .ok { files := spoilt } := rfl
  have hdevice : settings.device = some .generic := rfl
  generalize hon : (work settings .generic).on { files := spoilt } = ended at hfailed
  obtain ⟨result, last⟩ := ended
  obtain rfl : result = _ := hfailed
  obtain ⟨outcome, hrun, hstatus, houtput, -, hcontent⟩ :=
    publishes_nothing_of_failure hcommand hstart hdevice hon trivial
  have hasm := hcontent "a.asm" nofun
  have hdot := hcontent "a.dot" nofun
  exact ⟨outcome, hrun, hstatus, houtput, hasm, hdot⟩

end Midrange.CommandLine
