import Midrange.Proofs.Basic
import Midrange.Proofs.CommandLine.Work

namespace Midrange.CommandLine

open Work

namespace Files

/-- A file can be written. -/
def Writable (files : Files) (path : Path) : Prop :=
  ∃ place, files.locateOutput path = .ok place

instance (files : Files) (path : Path) : Decidable (files.Writable path) :=
  inferInstanceAs (Decidable (∃ place, files.locateOutput path = .ok place))

/-- Files that differ only in what has been written. -/
structure Alike (files other : Files) : Prop where
  present : other.present = files.present
  directories : other.directories = files.directories

namespace Alike

variable {files middle other : Files} {path : Path} {place found : Place}

theorem refl (files : Files) : files.Alike files :=
  ⟨rfl, rfl⟩

theorem trans (hfirst : files.Alike middle) (hnext : middle.Alike other) : files.Alike other :=
  ⟨hnext.present.trans hfirst.present, hnext.directories.trans hfirst.directories⟩

theorem isDirectory_eq (halike : files.Alike other) : other.isDirectory = files.isDirectory := by
  funext place
  rw [isDirectory, isDirectory, halike.present, halike.directories]

theorem step (halike : files.Alike other) {part : String}
    (hstep : files.step path place part = .ok found) : other.step path place part = .ok found := by
  unfold Files.step at hstep ⊢
  rw [halike.isDirectory_eq]
  split at hstep
  · next hdirectory => rwa [if_pos hdirectory]
  · split at hstep <;> cases hstep

theorem walk (halike : files.Alike other) {parts : List String}
    (hwalk : files.walk path parts = .ok found) : other.walk path parts = .ok found := by
  unfold Files.walk at hwalk ⊢
  split at hwalk
  · cases hwalk
  · next hzero =>
    split at hwalk
    · cases hwalk
    · next hlong =>
      rw [if_neg hzero, if_neg hlong]
      exact foldlM_eq_ok (fun _ _ _ => halike.step) hwalk

theorem locate (halike : files.Alike other) (hlocate : files.locate path = .ok found) :
    other.locate path = .ok found := by
  obtain ⟨place, hwalk, hplace⟩ := bind_eq_ok_iff.mp hlocate
  refine bind_eq_ok_iff.mpr ⟨place, halike.walk hwalk, ?_⟩
  rwa [halike.isDirectory_eq]

/-- What has been written does not matter for whether a file can be. -/
theorem writable (halike : files.Alike other) (hwritable : files.Writable path) :
    other.Writable path := by
  obtain ⟨place, hplace⟩ := hwritable
  unfold locateOutput at hplace
  split at hplace
  · obtain ⟨parent, -, hparent⟩ := bind_eq_ok_iff.mp hplace
    obtain ⟨_, -, hnone⟩ := bind_eq_ok_iff.mp hparent
    cases hnone
  · next hslash => exact ⟨place, (if_neg hslash).trans (halike.locate hplace)⟩

end Alike

theorem alike_of_write {files written : Files} {path : Path} {text : String}
    (hwrite : files.write path text = .ok written) : files.Alike written := by
  obtain ⟨place, -, hwritten⟩ := bind_eq_ok_iff.mp hwrite
  obtain rfl := Except.ok.inj hwritten
  exact ⟨rfl, rfl⟩

theorem write_eq_error_iff {files : Files} {path : Path} {text : String} {fault : FileFault} :
    files.write path text = .error fault ↔ files.locateOutput path = .error fault := by
  unfold write
  cases files.locateOutput path with
  | ok place => exact ⟨nofun, nofun⟩
  | error other => simp [bind, Except.bind]

end Files

/-- The files that a command writes, besides the one for messages. -/
def Settings.outlets (settings : Settings) : List Path :=
  (settings.output.filter (· ≠ "")).toList ++
    ((settings.graph.filter (· ≠ "")).map Path.normal).toList

/-- Work fails only at a file that it cannot write, which is one of some outlets. -/
def Work.Writes {α : Type} (outlets : List Path) (work : Work α) : Prop :=
  ∀ session : Session,
    (∃ value last, work.on session = (.ok value, last) ∧ session.files.Alike last.files) ∨
    ∃ path ∈ outlets, ∃ files fault last, session.files.Alike files ∧
      files.locateOutput path = .error fault ∧ work.on session = (.error (.file fault), last)

namespace Work.Writes

variable {α β : Type} {outlets : List Path} {first : Work α} {next : α → Work β}

theorem bind (hfirst : first.Writes outlets) (hnext : ∀ value, (next value).Writes outlets) :
    (first >>= next).Writes outlets := by
  intro session
  rw [on_bind]
  obtain ⟨value, middle, hon, halike⟩ | ⟨path, hmem, files, fault, last, halike, hfault, hon⟩ :=
    hfirst session
  · rw [hon]
    obtain ⟨found, last, hon, hlast⟩ | ⟨path, hmem, files, fault, last, hlast, hfault, hon⟩ :=
      hnext value middle
    · exact Or.inl ⟨found, last, hon, halike.trans hlast⟩
    · exact Or.inr ⟨path, hmem, files, fault, last, halike.trans hlast, hfault, hon⟩
  · rw [hon]
    exact Or.inr ⟨path, hmem, files, fault, last, halike, hfault, rfl⟩

theorem pure (value : α) : (Pure.pure value : Work α).Writes outlets :=
  fun session => Or.inl ⟨value, session, rfl, .refl session.files⟩

theorem tell (text : String) : (tell text).Writes outlets :=
  fun session => Or.inl ⟨(), _, rfl, .refl session.files⟩

theorem writeFile {path : Path} (hmem : path ∈ outlets) (text : String) :
    (writeFile path text).Writes outlets := by
  intro session
  have hget : (CommandLine.writeFile path text).on session =
      (lift .file (session.files.write path text) >>= fun files =>
        modify fun session => { session with files }).on session :=
    on_bind get _ session
  rw [hget, on_bind, on_lift]
  cases hwrite : session.files.write path text with
  | ok files => exact Or.inl ⟨(), _, rfl, Files.alike_of_write hwrite⟩
  | error fault =>
    exact Or.inr ⟨path, hmem, session.files, fault, session, .refl _,
      Files.write_eq_error_iff.mp hwrite, rfl⟩

end Work.Writes

theorem writes_writeListing (settings : Settings) (listing : String) :
    (writeListing settings listing).Writes settings.outlets := by
  unfold writeListing
  split
  · next path hpath =>
    have hmem : path ∈ settings.outlets := by
      rw [Settings.outlets, hpath]
      exact List.mem_cons_self
    exact (Work.Writes.writeFile hmem listing).bind fun _ => Work.Writes.tell _
  · exact fun session => Or.inl ⟨(), _, rfl, .refl session.files⟩

theorem writes_tellDeepest (findings : Depth.Findings) (outlets : List Path) :
    (tellDeepest findings).Writes outlets := by
  unfold tellDeepest
  split
  · exact Work.Writes.tell _
  · exact Work.Writes.pure ()

theorem writes_writeGraph (settings : Settings) (symbols : Symbols) (findings : Depth.Findings) :
    (writeGraph settings symbols findings).Writes settings.outlets := by
  unfold writeGraph
  split
  · next path hpath =>
    have hmem : Path.normal path ∈ settings.outlets := by
      rw [Settings.outlets, hpath]
      exact List.mem_append_right _ List.mem_cons_self
    exact (Work.Writes.writeFile hmem _).bind fun _ => Work.Writes.tell _
  · exact Work.Writes.pure ()

/-- Once a program has been taken apart, nothing fails but writing a file. -/
theorem writes_publish (settings : Settings) (disassembly : Disassembly) :
    (publish settings disassembly).Writes settings.outlets := by
  refine (writes_writeListing settings _).bind fun _ => ?_
  split
  · next findings _ =>
    exact (writes_tellDeepest findings _).bind fun _ => writes_writeGraph settings _ findings
  · exact Work.Writes.pure ()

end Midrange.CommandLine
