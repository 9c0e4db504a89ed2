import Midrange.CommandLine.Run

namespace Midrange.CommandLine

/-- Sessions that differ in nothing but their messages. -/
structure Session.Alike (session other : Session) : Prop where
  output : other.output = session.output
  files : other.files = session.files
  log : other.log = session.log

namespace Session.Alike

variable {session middle last : Session}

theorem refl (session : Session) : session.Alike session :=
  ⟨rfl, rfl, rfl⟩

theorem trans (hfirst : session.Alike middle) (hnext : middle.Alike last) : session.Alike last :=
  ⟨hnext.output.trans hfirst.output, hnext.files.trans hfirst.files, hnext.log.trans hfirst.log⟩

end Session.Alike

namespace Work

variable {α β ε : Type} {first : Work α} {next : α → Work β} {session last : Session} {value : β}
  {failure : Failure}

/-- How work ends that begins with a session. -/
def on (work : Work α) (session : Session) : Except Failure α × Session :=
  work.run.run session

theorem on_bind (first : Work α) (next : α → Work β) (session : Session) :
    (first >>= next).on session =
      match first.on session with
      | (.ok value, middle) => (next value).on middle
      | (.error failure, middle) => (.error failure, middle) := by
  simp only [on, ExceptT.run_bind, StateT.run_bind]
  rcases first.run.run session with ⟨failure | value, middle⟩ <;> rfl

/-- Work succeeds if both parts do, one after the other. -/
theorem on_bind_eq_ok_iff : (first >>= next).on session = (.ok value, last) ↔
    ∃ found middle, first.on session = (.ok found, middle) ∧
      (next found).on middle = (.ok value, last) := by
  rw [on_bind]
  rcases hfirst : first.on session with ⟨failure | found, middle⟩
  · simp
  · constructor
    · exact fun hnext => ⟨found, middle, rfl, hnext⟩
    · rintro ⟨_, _, heq, hnext⟩
      cases heq
      exact hnext

/-- Work fails in its first part, or else in the second one. -/
theorem on_bind_eq_error_iff : (first >>= next).on session = (.error failure, last) ↔
    first.on session = (.error failure, last) ∨
      ∃ found middle, first.on session = (.ok found, middle) ∧
        (next found).on middle = (.error failure, last) := by
  rw [on_bind]
  rcases hfirst : first.on session with ⟨fault | found, middle⟩
  · simp
  · constructor
    · exact fun hnext => Or.inr ⟨found, middle, rfl, hnext⟩
    · rintro (heq | ⟨_, _, heq, hnext⟩)
      · cases heq
      · cases heq
        exact hnext

theorem on_lift (kind : ε → Failure) (result : Except ε α) (session : Session) :
    (lift kind result).on session = (result.mapError kind, session) := by
  cases result <;> rfl

theorem on_lift_eq_ok_iff {kind : ε → Failure} {result : Except ε α} {found : α} :
    (lift kind result).on session = (.ok found, last) ↔ last = session ∧ result = .ok found := by
  cases result with
  | error fault => exact iff_of_false nofun fun hfound => nomatch hfound.2
  | ok value =>
    constructor
    · rintro ⟨⟩
      exact ⟨rfl, rfl⟩
    · rintro ⟨rfl, ⟨⟩⟩
      rfl

theorem on_lift_eq_error_iff {kind : ε → Failure} {result : Except ε α} :
    (lift kind result).on session = (.error failure, last) ↔
      last = session ∧ ∃ fault, result = .error fault ∧ failure = kind fault := by
  cases result with
  | ok value => exact iff_of_false nofun fun ⟨_, _, hfault, _⟩ => nomatch hfault
  | error fault =>
    constructor
    · rintro ⟨⟩
      exact ⟨rfl, fault, rfl, rfl⟩
    · rintro ⟨rfl, _, ⟨⟩, rfl⟩
      rfl

/-- Work over a list fails at an item behind others that succeed one after the other. -/
theorem on_foldlM_eq_error_iff {step : β → α → Work β} {items : List α} {start : β} :
    (items.foldlM step start).on session = (.error failure, last) ↔
      ∃ before item after found middle, items = before ++ item :: after ∧
        (before.foldlM step start).on session = (.ok found, middle) ∧
        (step found item).on middle = (.error failure, last) := by
  induction items generalizing start session with
  | nil =>
    constructor
    · rintro ⟨⟩
    · rintro ⟨before, _, _, _, _, heq, -⟩
      cases before <;> cases heq
  | cons head rest ih =>
    rw [List.foldlM_cons, on_bind_eq_error_iff]
    constructor
    · rintro (hhead | ⟨found, middle, hhead, hrest⟩)
      · exact ⟨[], head, rest, start, session, rfl, rfl, hhead⟩
      · obtain ⟨before, item, after, value, later, rfl, hbefore, hitem⟩ := ih.mp hrest
        refine ⟨head :: before, item, after, value, later, rfl, ?_, hitem⟩
        rw [List.foldlM_cons, on_bind_eq_ok_iff]
        exact ⟨found, middle, hhead, hbefore⟩
    · rintro ⟨before, item, after, value, later, heq, hbefore, hitem⟩
      cases before with
      | nil =>
        cases hbefore
        cases heq
        exact Or.inl hitem
      | cons first before =>
        obtain ⟨rfl, rfl⟩ := List.cons.inj heq
        rw [List.foldlM_cons, on_bind_eq_ok_iff] at hbefore
        obtain ⟨found, middle, hhead, hbefore⟩ := hbefore
        exact Or.inr ⟨found, middle, hhead,
          ih.mpr ⟨before, item, after, value, later, rfl, hbefore, hitem⟩⟩

/-- Work that changes nothing but the messages, however it ends. -/
def Keeps (work : Work α) : Prop :=
  ∀ session : Session, session.Alike (work.on session).2

namespace Keeps

theorem pure (value : α) : Keeps (Pure.pure value : Work α) :=
  Session.Alike.refl

theorem throw (failure : Failure) : Keeps (throw failure : Work α) :=
  Session.Alike.refl

theorem lift (kind : ε → Failure) (result : Except ε α) : Keeps (lift kind result) := by
  cases result with
  | ok value => exact pure value
  | error fault => exact throw (kind fault)

theorem sayAll (journal : Journal) : Keeps (sayAll journal) :=
  fun _ => ⟨rfl, rfl, rfl⟩

theorem say (report : Report) : Keeps (say report) :=
  fun _ => ⟨rfl, rfl, rfl⟩

theorem tell (text : String) : Keeps (tell text) :=
  say ⟨.info, .commandLine, text⟩

theorem bind (hfirst : Keeps first) (hnext : ∀ value, Keeps (next value)) :
    Keeps (first >>= next) := by
  intro session
  have hkept := hfirst session
  rw [on_bind]
  rcases hon : first.on session with ⟨failure | value, middle⟩ <;> rw [hon] at hkept
  · exact hkept
  · exact hkept.trans (hnext value middle)

theorem foldlM {step : β → α → Work β} (hstep : ∀ value item, Keeps (step value item))
    (items : List α) (start : β) : Keeps (items.foldlM step start) := by
  induction items generalizing start with
  | nil => exact pure start
  | cons item rest ih => exact (hstep start item).bind ih

/-- Behind work that keeps all but the messages the rest begins with a session like the first
    one. -/
theorem alike (hkeeps : Keeps first) {result : Except Failure α}
    (hon : first.on session = (result, last)) : session.Alike last := by
  have hkept := hkeeps session
  rwa [hon] at hkept

end Keeps

/-- If work over a list succeeds, it does at every item. -/
theorem exists_of_on_foldlM_eq_ok {step : β → α → Work β}
    (hkeeps : ∀ value item, Keeps (step value item)) {items : List α} {start : β}
    (hon : (items.foldlM step start).on session = (.ok value, last)) :
    ∀ item ∈ items, ∃ before middle found later, session.Alike middle ∧
      (step before item).on middle = (.ok found, later) := by
  induction items generalizing start session with
  | nil => simp
  | cons head rest ih =>
    rw [List.foldlM_cons, on_bind_eq_ok_iff] at hon
    obtain ⟨found, middle, hhead, hrest⟩ := hon
    rw [List.forall_mem_cons]
    refine ⟨⟨start, session, found, middle, .refl session, hhead⟩, fun item hmem => ?_⟩
    obtain ⟨before, later, result, last, halike, hitem⟩ := ih hrest item hmem
    exact ⟨before, later, result, last, ((hkeeps start head).alike hhead).trans halike, hitem⟩

end Work

open Work

theorem on_readFile (path : Path) (session : Session) :
    (readFile path).on session = ((session.bytesOf path).mapError .file, session) :=
  (on_bind get _ session).trans (on_lift .file (session.bytesOf path) session)

theorem keeps_readFile (path : Path) : Keeps (readFile path) :=
  fun session => by rw [on_readFile]; exact .refl session

theorem keeps_loadImage (settings : Settings) : Keeps (loadImage settings) :=
  (keeps_readFile settings.input).bind fun _ => Keeps.lift _ _

theorem keeps_loadHints (symbols : Symbols) (hints? : Option Path) :
    Keeps (loadHints symbols hints?) := by
  cases hints? with
  | none => exact Keeps.throw _
  | some path =>
    refine (keeps_readFile path).bind fun bytes => (Keeps.lift _ _).bind fun text =>
      (Keeps.sayAll _).bind fun _ => ?_
    split
    · exact Keeps.throw _
    · exact (Keeps.say _).bind fun _ => Keeps.pure _

theorem keeps_addRange (symbols : Symbols) (range? : Option (Int × Int)) :
    Keeps (addRange symbols range?) := by
  cases range? with
  | none => exact Keeps.throw _
  | some range => exact Keeps.pure _

theorem keeps_tellLog (settings : Settings) : Keeps (tellLog settings) := by
  unfold tellLog
  split
  · exact Keeps.say _
  · exact Keeps.pure ()

theorem keeps_takeImage (settings : Settings) (device : Device) :
    Keeps (takeImage settings device) :=
  (keeps_tellLog settings).bind fun _ => (Keeps.tell _).bind fun _ => (Keeps.tell _).bind fun _ =>
    (keeps_loadImage settings).bind fun image => (Keeps.tell _).bind fun _ => Keeps.pure image

theorem keeps_takeNames (settings : Settings) : Keeps (takeNames settings) :=
  (Keeps.foldlM keeps_loadHints settings.hints .standard).bind fun hinted =>
    Keeps.foldlM keeps_addRange settings.data hinted

/-- Taking a program apart changes nothing but the messages. -/
theorem keeps_takeApart (settings : Settings) (device : Device) :
    Keeps (takeApart settings device) :=
  (keeps_takeImage settings device).bind fun _ => (keeps_takeNames settings).bind fun _ =>
    (Keeps.sayAll _).bind fun _ => Keeps.lift _ _

end Midrange.CommandLine
