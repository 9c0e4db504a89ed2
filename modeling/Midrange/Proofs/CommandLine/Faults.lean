import Mathlib.Data.List.ReduceOption
import Midrange.Proofs.Basic
import Midrange.Proofs.CommandLine.Work

namespace Midrange.CommandLine

open Work

variable {settings : Settings} {device : Device} {session last : Session} {symbols : Symbols}
  {path : Path} {failure : Failure} {image : Image} {bytes : List UInt8}

/-- A file can be read. -/
def Files.Readable (files : Files) (path : Path) : Prop :=
  ∃ found, files.read path.normal = .ok found

instance (files : Files) (path : Path) : Decidable (files.Readable path) :=
  inferInstanceAs (Decidable (∃ found, files.read path.normal = .ok found))

/-- The files that a command reads. -/
def Settings.sources (settings : Settings) : List Path :=
  settings.input :: settings.hints.reduceOption

/-- A failure lies in what a command reads or in the program that it takes apart, unless it is the
    fault of a file that is none of those that the command reads. -/
def Failure.Arises (settings : Settings) (files : Files) : Failure → Prop
  | .file fault => ∃ path ∈ settings.sources, files.read path.normal = .error fault
  | _ => True

theorem bytesOf_eq_error_iff {fault : FileFault} :
    session.bytesOf path = .error fault ↔ session.files.read path.normal = .error fault := by
  unfold Session.bytesOf
  cases session.files.read path.normal <;> simp [Except.map]

theorem readable_of_bytesOf (hbytes : session.bytesOf path = .ok bytes) :
    session.files.Readable path := by
  cases hread : session.files.read path.normal with
  | ok found => exact ⟨found, hread⟩
  | error fault =>
    rw [bytesOf_eq_error_iff.mpr hread] at hbytes
    cases hbytes

theorem on_readFile_eq_ok_iff : (readFile path).on session = (.ok bytes, last) ↔
    last = session ∧ session.bytesOf path = .ok bytes := by
  rw [on_readFile, ← on_lift, on_lift_eq_ok_iff]

theorem on_readFile_eq_error_iff : (readFile path).on session = (.error failure, last) ↔
    last = session ∧ ∃ fault, session.bytesOf path = .error fault ∧ failure = .file fault := by
  rw [on_readFile, ← on_lift, on_lift_eq_error_iff]

/-- The image is at fault if its file cannot be read, or else if the bytes make none. -/
theorem on_loadImage_eq_error_iff : (loadImage settings).on session = (.error failure, last) ↔
    last = session ∧
    ((∃ fault, session.bytesOf settings.input = .error fault ∧ failure = .file fault) ∨
      ∃ bytes fault, session.bytesOf settings.input = .ok bytes ∧
        readImage settings bytes = .error fault ∧ failure = .image fault) := by
  rw [loadImage, on_bind_eq_error_iff, on_readFile_eq_error_iff, and_or_left]
  refine or_congr_right ?_
  constructor
  · rintro ⟨bytes, middle, hbytes, himage⟩
    obtain ⟨rfl, hbytes⟩ := on_readFile_eq_ok_iff.mp hbytes
    obtain ⟨rfl, fault, hfault, rfl⟩ := on_lift_eq_error_iff.mp himage
    exact ⟨rfl, bytes, fault, hbytes, hfault, rfl⟩
  · rintro ⟨rfl, bytes, fault, hbytes, hfault, rfl⟩
    exact ⟨bytes, last, on_readFile_eq_ok_iff.mpr ⟨rfl, hbytes⟩,
      on_lift_eq_error_iff.mpr ⟨rfl, fault, hfault, rfl⟩⟩

theorem on_loadImage_eq_ok_iff : (loadImage settings).on session = (.ok image, last) ↔
    last = session ∧
    ∃ bytes, session.bytesOf settings.input = .ok bytes ∧ readImage settings bytes = .ok image := by
  rw [loadImage, on_bind_eq_ok_iff]
  constructor
  · rintro ⟨bytes, middle, hbytes, himage⟩
    obtain ⟨rfl, hbytes⟩ := on_readFile_eq_ok_iff.mp hbytes
    obtain ⟨rfl, hread⟩ := on_lift_eq_ok_iff.mp himage
    exact ⟨rfl, bytes, hbytes, hread⟩
  · rintro ⟨rfl, bytes, hbytes, himage⟩
    exact ⟨bytes, last, on_readFile_eq_ok_iff.mpr ⟨rfl, hbytes⟩,
      on_lift_eq_ok_iff.mpr ⟨rfl, himage⟩⟩

/-- What makes loading one file of hints fail: a missing name, the file, its encoding, or a hint. -/
theorem on_loadHints_eq_error {hints? : Option Path}
    (hon : (loadHints symbols hints?).on session = (.error failure, last)) :
    (hints? = none ∧ failure = .emptyHints) ∨ ∃ path, hints? = some path ∧
      ((∃ fault, session.bytesOf path = .error fault ∧ failure = .file fault) ∨
        (∃ bytes fault, session.bytesOf path = .ok bytes ∧ Text.decodeUtf8 bytes = .error fault ∧
          failure = .encoding fault) ∨
        ∃ fault, failure = .hint fault) := by
  cases hints? with
  | none =>
    cases hon
    exact Or.inl ⟨rfl, rfl⟩
  | some path =>
    refine Or.inr ⟨path, rfl, ?_⟩
    rw [loadHints, on_bind_eq_error_iff] at hon
    obtain hread | ⟨bytes, middle, hbytes, hon⟩ := hon
    · obtain ⟨-, hfault⟩ := on_readFile_eq_error_iff.mp hread
      exact Or.inl hfault
    · obtain ⟨rfl, hbytes⟩ := on_readFile_eq_ok_iff.mp hbytes
      rw [on_bind_eq_error_iff] at hon
      obtain hdecode | ⟨text, later, hdecode, hon⟩ := hon
      · obtain ⟨-, fault, hfault, rfl⟩ := on_lift_eq_error_iff.mp hdecode
        exact Or.inr (Or.inl ⟨bytes, fault, hbytes, hfault, rfl⟩)
      · refine Or.inr (Or.inr ?_)
        simp only at hon
        obtain hsay | ⟨_, _, -, hon⟩ := on_bind_eq_error_iff.mp hon
        · cases hsay
        · split at hon
          · next fault _ =>
            cases hon
            exact ⟨fault, rfl⟩
          · cases hon

/-- Bytes that are no text make loading hints fail before anything else is looked at. -/
theorem on_loadHints_of_no_text {fault : Text.Utf8Fault} (hbytes : session.bytesOf path = .ok bytes)
    (hfault : Text.decodeUtf8 bytes = .error fault) :
    (loadHints symbols (some path)).on session = (.error (.encoding fault), session) := by
  rw [loadHints, on_bind_eq_error_iff]
  refine Or.inr ⟨bytes, session, on_readFile_eq_ok_iff.mpr ⟨rfl, hbytes⟩, ?_⟩
  rw [on_bind_eq_error_iff]
  exact Or.inl (on_lift_eq_error_iff.mpr ⟨rfl, fault, hfault, rfl⟩)

theorem exists_of_on_loadHints_eq_ok {hints? : Option Path} {found : Symbols}
    (hon : (loadHints symbols hints?).on session = (.ok found, last)) :
    ∃ path, hints? = some path ∧ session.files.Readable path := by
  cases hints? with
  | none => cases hon
  | some path =>
    rw [loadHints, on_bind_eq_ok_iff] at hon
    obtain ⟨bytes, middle, hbytes, -⟩ := hon
    exact ⟨path, rfl, readable_of_bytesOf (on_readFile_eq_ok_iff.mp hbytes).2⟩

theorem exists_on_tell (text : String) (session : Session) : ∃ told,
    session.Alike told ∧ (tell text).on session = (.ok (), told) :=
  ⟨_, Keeps.tell text session, rfl⟩

theorem exists_on_tellLog (settings : Settings) (session : Session) : ∃ told,
    session.Alike told ∧ (tellLog settings).on session = (.ok (), told) := by
  have hkept := keeps_tellLog settings session
  unfold tellLog at hkept ⊢
  split at hkept <;> exact ⟨_, hkept, rfl⟩

/-- Taking the image is loading it, with messages in front and behind. -/
theorem exists_of_on_takeImage {result : Except Failure Image}
    (hon : (takeImage settings device).on session = (result, last)) : ∃ opened loaded,
    session.Alike opened ∧ (loadImage settings).on opened = (result, loaded) := by
  obtain ⟨first, hfirst, hlog⟩ := exists_on_tellLog settings session
  obtain ⟨second, hsecond, hinput⟩ := exists_on_tell s!"Input:  {settings.input}" first
  obtain ⟨opened, hopened, hdevice⟩ :=
    exists_on_tell s!"Device: {device.name} - {device.summary}" second
  simp only [takeImage, on_bind, hlog, hinput, hdevice] at hon
  rcases hload : (loadImage settings).on opened with ⟨failure | image, loaded⟩ <;> rw [hload] at hon
  · cases hon
    exact ⟨opened, last, (hfirst.trans hsecond).trans hopened, hload⟩
  · obtain ⟨told, -, htold⟩ :=
      exists_on_tell s!"Loaded {image.size} words, codesize {Text.hexLiteral 4 image.codeSize}"
        loaded
    simp only [htold] at hon
    cases hon
    exact ⟨opened, loaded, (hfirst.trans hsecond).trans hopened, hload⟩

/-- The names are at fault if a file of hints is, or a range of data is missing. -/
theorem on_takeNames_eq_error (hon : (takeNames settings).on session = (.error failure, last)) :
    (∃ before hints? after symbols middle, settings.hints = before ++ hints? :: after ∧
      (before.foldlM loadHints .standard).on session = (.ok symbols, middle) ∧
      (loadHints symbols hints?).on middle = (.error failure, last)) ∨
    none ∈ settings.data ∧ failure = .emptyRange := by
  rw [takeNames, on_bind_eq_error_iff] at hon
  obtain hhints | ⟨hinted, middle, -, hdata⟩ := hon
  · exact Or.inl (on_foldlM_eq_error_iff.mp hhints)
  · obtain ⟨before, range?, after, symbols, later, heq, -, hrange⟩ :=
      on_foldlM_eq_error_iff.mp hdata
    cases range? with
    | none =>
      cases hrange
      exact Or.inr ⟨heq ▸ List.mem_append_right before List.mem_cons_self, rfl⟩
    | some range => cases hrange

/-- A program cannot be taken apart if the image, the names or the nesting of calls is at fault, in
    this order. -/
theorem on_takeApart_eq_error
    (hon : (takeApart settings device).on session = (.error failure, last)) :
    (takeImage settings device).on session = (.error failure, last) ∨
      ∃ image opened, (takeImage settings device).on session = (.ok image, opened) ∧
        ((takeNames settings).on opened = (.error failure, last) ∨
          ∃ symbols named fault, (takeNames settings).on opened = (.ok symbols, named) ∧
            (Disassembly.run device image symbols (wantedAnalysis settings device)).result =
              .error fault ∧
            failure = depthFailure settings fault) := by
  rw [takeApart] at hon
  refine (on_bind_eq_error_iff.mp hon).imp_right ?_
  rintro ⟨image, opened, himage, hon⟩
  refine ⟨image, opened, himage, (on_bind_eq_error_iff.mp hon).imp_right ?_⟩
  rintro ⟨symbols, named, hnames, hon⟩
  obtain hsay | ⟨_, _, -, hon⟩ := on_bind_eq_error_iff.mp hon
  · cases hsay
  · obtain ⟨-, fault, hfault, hfailure⟩ := on_lift_eq_error_iff.mp hon
    exact ⟨symbols, named, fault, hnames, hfault, hfailure⟩

/-- No file is at fault if all that are read can be. -/
theorem not_arises_of_readable {files : Files}
    (hreadable : ∀ path ∈ settings.sources, files.Readable path) (fault : FileFault) :
    ¬ (Failure.file fault).Arises settings files := by
  rintro ⟨path, hsource, hfault⟩
  obtain ⟨found, hfound⟩ := hreadable path hsource
  rw [hfound] at hfault
  cases hfault

theorem arises_of_bytesOf {fault : FileFault} (hsource : path ∈ settings.sources)
    (hbytes : session.bytesOf path = .error fault) :
    (Failure.file fault).Arises settings session.files :=
  ⟨path, hsource, bytesOf_eq_error_iff.mp hbytes⟩

/-- If a program cannot be taken apart, this lies in what is read or in the program. -/
theorem arises_of_on_takeApart
    (hon : (takeApart settings device).on session = (.error failure, last)) :
    failure.Arises settings session.files := by
  obtain himage | ⟨image, opened, himage, hnames | ⟨symbols, named, fault, -, -, rfl⟩⟩ :=
    on_takeApart_eq_error hon
  · obtain ⟨opened, loaded, halike, hload⟩ := exists_of_on_takeImage himage
    obtain ⟨-, ⟨fault, hfault, rfl⟩ | ⟨_, fault, -, -, rfl⟩⟩ := on_loadImage_eq_error_iff.mp hload
    · rw [← halike.files]
      exact arises_of_bytesOf List.mem_cons_self hfault
    · trivial
  · obtain ⟨before, hints?, after, symbols, middle, heq, hbefore, hhints⟩ | ⟨-, rfl⟩ :=
      on_takeNames_eq_error hnames
    · have halike := ((keeps_takeImage settings device).alike himage).trans
        ((Keeps.foldlM keeps_loadHints before .standard).alike hbefore)
      obtain ⟨-, rfl⟩ | ⟨path, rfl, ⟨fault, hfault, rfl⟩ | ⟨_, _, -, -, rfl⟩ | ⟨_, rfl⟩⟩ :=
        on_loadHints_eq_error hhints
      · trivial
      · have hsource : path ∈ settings.sources := by
          rw [Settings.sources, heq]
          exact List.mem_cons_of_mem _
            (List.reduceOption_mem_iff.mpr (List.mem_append_right _ List.mem_cons_self))
        rw [← halike.files]
        exact arises_of_bytesOf hsource hfault
      · trivial
      · trivial
    · trivial
  · unfold depthFailure
    split <;> trivial

/-- If a program can be taken apart, all that is read can be. -/
theorem readable_of_on_takeApart {disassembly : Disassembly}
    (hon : (takeApart settings device).on session = (.ok disassembly, last)) :
    ∀ path ∈ settings.sources, session.files.Readable path := by
  rw [takeApart] at hon
  obtain ⟨image, opened, himage, hon⟩ := on_bind_eq_ok_iff.mp hon
  obtain ⟨symbols, named, hnames, -⟩ := on_bind_eq_ok_iff.mp hon
  have hopened := (keeps_takeImage settings device).alike himage
  rw [Settings.sources, List.forall_mem_cons]
  constructor
  · obtain ⟨first, loaded, halike, hload⟩ := exists_of_on_takeImage himage
    obtain ⟨-, bytes, hbytes, -⟩ := on_loadImage_eq_ok_iff.mp hload
    rw [← halike.files]
    exact readable_of_bytesOf hbytes
  · intro path hmem
    rw [takeNames] at hnames
    obtain ⟨hinted, middle, hhints, -⟩ := on_bind_eq_ok_iff.mp hnames
    obtain ⟨before, reached, found, later, halike, hload⟩ :=
      exists_of_on_foldlM_eq_ok keeps_loadHints hhints _ (List.reduceOption_mem_iff.mp hmem)
    obtain ⟨other, heq, hreadable⟩ := exists_of_on_loadHints_eq_ok hload
    obtain rfl := Option.some.inj heq
    rwa [halike.files, hopened.files] at hreadable

end Midrange.CommandLine
