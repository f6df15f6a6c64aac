import Waivm.TuiState

/-!
# The terminal, and the whole of `waivm-tui` (`term.rs`, `main.rs`)

While the UI runs, the terminal is in raw mode, shows its alternate screen, and hides the cursor.
A `TerminalGuard` brings it there and back: for the time of the debugger, and when it is dropped.
Each of its steps can fail, and what happens then is part of the model. A command that fails
changes nothing, and of a write that fails the sequences may have arrived.

Results:
1. `session_invariant`: before every round the terminal is where the UI wants it, and the debugger
   gets a terminal that is restored.
2. `session_refines`: the loop with the guard does what the loop of `TuiApp` does with the guard's
   results.
3. `tui_restores`: where the terminal accepts the way back, it is restored at every end of the
   process.
4. `tui_quits`: when the process leaves its loop without an error.
-/

namespace Waivm.Tui

open CString
open Machine (Outcome LockStepUnless Reaches Ends)

/-! ## The terminal -/

/-- The mode of the line discipline: the one that it was found in, or what `stty` sets. -/
inductive TtyMode
  | found
  | raw
  | sane
deriving DecidableEq

/-- What the program changes of a terminal. -/
structure Terminal where
  mode : TtyMode
  alternateScreen : Bool
  cursorHidden : Bool

namespace Terminal

/-- Before the program. -/
def found : Terminal where
  mode := .found
  alternateScreen := false
  cursorHidden := false

/-- `"\x1b[?1049h\x1b[?25l\x1b[2J\x1b[H"` -/
def enterScreen (t : Terminal) : Terminal :=
  { t with
    alternateScreen := true
    cursorHidden := true }

/-- `"\x1b[?25h\x1b[?1049l"` -/
def leaveScreen (t : Terminal) : Terminal :=
  { t with
    alternateScreen := false
    cursorHidden := false }

/-- Where the UI wants the terminal. -/
structure Drawn (t : Terminal) : Prop where
  mode : t.mode = .raw
  alternateScreen : t.alternateScreen = true
  cursorHidden : t.cursorHidden = true

/-- The terminal can be used by others. -/
structure Restored (t : Terminal) : Prop where
  mode : t.mode ≠ .raw
  alternateScreen : t.alternateScreen = false
  cursorHidden : t.cursorHidden = false

end Terminal

/-- How a write of sequences goes, with the flush behind it. -/
inductive Written
  | done
  | failed (err : Text) (arrived : Bool)

/-- What `stty` and `stdout` answer to the steps of the guard. -/
structure GuardAnswers where
  setRawMode : Except Text Unit
  restoreMode : Except Text Unit
  sane : Bool
  enterScreen : Written
  leaveScreen : Written

/-- `TerminalGuard` -/
structure TerminalGuard where
  savedMode : Text
  active : Bool

/-- `restore_stty_mode` -/
def restoreSttyMode (mode : Text) (answers : GuardAnswers) (t : Terminal) :
    Except Text Unit × Terminal :=
  if mode = [] then (.ok (), if answers.sane then { t with mode := .sane } else t)
  else
    match answers.restoreMode with
    | .ok () => (.ok (), { t with mode := .found })
    | .error err => (.error err, t)

/-- `set_raw_mode`, and the sequences behind it. -/
def showScreen (answers : GuardAnswers) (t : Terminal) : Except Text Unit × Terminal :=
  match answers.setRawMode with
  | .error err => (.error err, t)
  | .ok () =>
    let t := { t with mode := .raw }
    match answers.enterScreen with
    | .done => (.ok (), t.enterScreen)
    | .failed err arrived => (.error err, if arrived then t.enterScreen else t)

namespace TerminalGuard

/-- `enter`. `sttyMode` is what `read_stty_mode` returns. -/
def enter (sttyMode : Except Text Text) (answers : GuardAnswers) (t : Terminal) :
    Except Text TerminalGuard × Terminal :=
  match showScreen answers t with
  | (.error err, t) => (.error err, t)
  | (.ok (), t) => (.ok ⟨sttyMode.toOption.getD [], true⟩, t)

/-- `leave` -/
def leave (guard : TerminalGuard) (answers : GuardAnswers) (t : Terminal) :
    Except Text Unit × TerminalGuard × Terminal :=
  if guard.active then
    match restoreSttyMode guard.savedMode answers t with
    | (.error err, t) => (.error err, guard, t)
    | (.ok (), t) =>
      match answers.leaveScreen with
      | .done => (.ok (), { guard with active := false }, t.leaveScreen)
      | .failed err arrived => (.error err, guard, if arrived then t.leaveScreen else t)
  else (.ok (), guard, t)

/-- `reenter` -/
def reenter (guard : TerminalGuard) (answers : GuardAnswers) (t : Terminal) :
    Except Text Unit × TerminalGuard × Terminal :=
  if !guard.active then
    match showScreen answers t with
    | (.error err, t) => (.error err, guard, t)
    | (.ok (), t) => (.ok (), { guard with active := true }, t)
  else (.ok (), guard, t)

/-- `drop`: the terminal that is left. -/
def drop (guard : TerminalGuard) (answers : GuardAnswers) (t : Terminal) : Terminal :=
  (guard.leave answers t).2.2

end TerminalGuard

/-! ## The loop with its guard -/

/-- What a round of the loop is answered. `println` says whether `println!` can write: it panics where it
cannot. `dropped` is for the guard, if this round is the last one. -/
structure SessionRound (PathBuf : Type) where
  draw : Except Text Unit
  key : Except Text (Option Key)
  createDirAll : PathBuf → Except Text Unit
  output : Command PathBuf → Except Text Output
  exitCode : Command PathBuf → Except Text (Option Int)
  suspended : GuardAnswers
  println : Bool
  dropped : GuardAnswers

/-- The answers, with the results of `leave` and `reenter`. -/
def SessionRound.toRound {PathBuf : Type} (guard : TerminalGuard) (r : SessionRound PathBuf) :
    Round PathBuf where
  draw := r.draw
  key := r.key
  createDirAll := r.createDirAll
  output := r.output
  exitCode := r.exitCode
  leave := (guard.leave r.suspended .found).1
  reenter := (showScreen r.suspended .found).1

/-- The application, the guard, and the terminal. -/
structure Session (PathBuf : Type) where
  tui : TuiState PathBuf
  guard : TerminalGuard
  terminal : Terminal

/-- How `run` ends behind `TerminalGuard::enter`: it returns, or it panics. -/
inductive SessionEnd
  | returned (result : Except Text Unit) (terminal : Terminal)
  | panicked (terminal : Terminal)

/-- The terminal that is left. -/
def SessionEnd.terminal : SessionEnd → Terminal
  | .returned _ t => t
  | .panicked t => t

section Loop
variable {PathBuf : Type} (paths : Paths PathBuf)

/-- The debugger, between `leave` and `reenter`. -/
def suspendSession (r : SessionRound PathBuf) (s : Session PathBuf) (app : App PathBuf)
    (debugFile : PathBuf) : Outcome (Session PathBuf) SessionEnd :=
  match s.guard.leave r.suspended s.terminal with
  | (.error err, guard, t) => .done (.returned (.error err) (guard.drop r.dropped t))
  | (.ok (), guard, t) =>
    let result := launchDebugger paths (r.toRound s.guard) app.waivm app.root debugFile
    if !r.println then .done (.panicked (guard.drop r.dropped t))
    else
      match guard.reenter r.suspended t with
      | (.error err, guard, t) => .done (.returned (.error err) (guard.drop r.dropped t))
      | (.ok (), guard, t) =>
        match result with
        | .error err => .done (.returned (.error err) (guard.drop r.dropped t))
        | .ok code =>
          .next ⟨⟨debuggerBack paths app debugFile code, s.tui.round + 1⟩, guard, t⟩

/-- One round of the loop of `run`. The guard is dropped when the loop is left. -/
def sessionRound (rounds : Nat → SessionRound PathBuf) (s : Session PathBuf) :
    Outcome (Session PathBuf) SessionEnd :=
  let r := rounds s.tui.round
  match r.draw with
  | .error err => .done (.returned (.error err) (s.guard.drop r.dropped s.terminal))
  | .ok () =>
    if s.tui.app.shouldQuit then .done (.returned (.ok ()) (s.guard.drop r.dropped s.terminal))
    else
      match r.key with
      | .error err => .done (.returned (.error err) (s.guard.drop r.dropped s.terminal))
      | .ok none => .next ⟨⟨s.tui.app, s.tui.round + 1⟩, s.guard, s.terminal⟩
      | .ok (some key) =>
        match handleKey paths (r.toRound s.guard) s.tui.app key with
        | (app, none) => .next ⟨⟨app, s.tui.round + 1⟩, s.guard, s.terminal⟩
        | (app, some debugFile) => suspendSession paths r s app debugFile

end Loop

/-! ## The process -/

/-- `ParseOutcome` -/
inductive ParseOutcome (PathBuf : Type)
  | help
  | run (config : Config PathBuf)

/-- How the process ends. The streams are what is printed outside of the screen. -/
inductive ProcessEnd
  | helped (stdout : Text) (terminal : Terminal)
  | exited (code : Nat) (stderr : Text) (terminal : Terminal)
  | panicked (terminal : Terminal)

/-- The terminal that is left. -/
def ProcessEnd.terminal : ProcessEnd → Terminal
  | .helped _ t | .exited _ _ t | .panicked t => t

/-- What the process meets before its loop, and whether `print!` and `eprintln!` can write. `sttyMode` is
what `read_stty_mode` returns. -/
structure Shell (PathBuf : Type) where
  args : List Text
  files : Surroundings PathBuf
  sttyMode : Except Text Text
  entered : GuardAnswers
  print : Bool
  eprintln : Bool

/-- `usage` -/
def usage : Text :=
  ("waivm-tui [--root <repo-root>] [--waivm <path-to-waivm>] [--file <program.wai|program.waibc>]\n\n" ++
    "Keyboard:\n" ++
    "  Up/Down or k/j     select program\n" ++
    "  Left/Right or [/]  change action\n" ++
    "  Enter              execute selected action\n" ++
    "  r/t/v/d/i          run/trace/verify/disassemble/info\n" ++
    "  x                  leave TUI and open interactive debugger\n" ++
    "  c                  clear output\n" ++
    "  ?                  toggle help\n" ++
    "  q or Esc           quit\n").toList

/-- `Config::default` -/
def Config.default {PathBuf : Type} : Config PathBuf where
  root := none
  waivm := none
  file := none

section Process
variable {PathBuf : Type} (paths : Paths PathBuf)

/-- `parse_args`, from the argument that is next. -/
def parseArgs (config : Config PathBuf) : List Text → Except Text (ParseOutcome PathBuf)
  | [] => .ok (.run config)
  | arg :: rest =>
    if arg = "--help".toList ∨ arg = "-h".toList then .ok .help
    else if arg = "--root".toList then
      match rest with
      | [] => .error "--root requires a path".toList
      | value :: rest => parseArgs { config with root := some (paths.ofText value) } rest
    else if arg = "--waivm".toList then
      match rest with
      | [] => .error "--waivm requires a path".toList
      | value :: rest => parseArgs { config with waivm := some (paths.ofText value) } rest
    else if arg = "--file".toList then
      match rest with
      | [] => .error "--file requires a path".toList
      | value :: rest => parseArgs { config with file := some (paths.ofText value) } rest
    else .error ("unknown option: ".toList ++ arg)

/-- `main`, when `run` is over. -/
def mainEnd (shell : Shell PathBuf) : SessionEnd → ProcessEnd
  | .returned (.ok ()) t => .exited 0 [] t
  | .returned (.error err) t =>
    if shell.eprintln then .exited 1 ("waivm-tui: ".toList ++ err ++ ['\n']) t else .panicked t
  | .panicked t => .panicked t

variable [DecidableEq PathBuf]

/-- The process up to its loop. -/
def beforeLoop (shell : Shell PathBuf) : Outcome (Session PathBuf) ProcessEnd :=
  match parseArgs paths .default shell.args with
  | .error err => .done (mainEnd shell (.returned (.error err) .found))
  | .ok .help => .done (if shell.print then .helped usage .found else .panicked .found)
  | .ok (.run config) =>
    match App.new paths shell.files config with
    | .error err => .done (mainEnd shell (.returned (.error err) .found))
    | .ok app =>
      match TerminalGuard.enter shell.sttyMode shell.entered .found with
      | (.error err, t) => .done (mainEnd shell (.returned (.error err) t))
      | (.ok guard, t) => .next ⟨tuiStart app, guard, t⟩

/-- The process ends with `e`. -/
inductive TuiEnds (shell : Shell PathBuf) (rounds : Nat → SessionRound PathBuf) : ProcessEnd → Prop
  | before {e : ProcessEnd} (h : beforeLoop paths shell = .done e) : TuiEnds shell rounds e
  | loop {s : Session PathBuf} {e : SessionEnd} (h : beforeLoop paths shell = .next s)
      (hends : Ends (sessionRound paths rounds) s e) : TuiEnds shell rounds (mainEnd shell e)

end Process

/-! ## 1. Steps of the guard -/

section Guard
variable {guard guard' : TerminalGuard} {answers : GuardAnswers} {t t' : Terminal} {err : Text}

theorem showScreen_ok (h : showScreen answers t = (.ok (), t')) : t'.Drawn := by
  unfold showScreen at h
  split at h
  · cases h
  · simp only at h
    split at h
    · cases h
      exact ⟨rfl, rfl, rfl⟩
    · cases h

/-- What `showScreen` returns does not depend on the terminal. -/
theorem showScreen_result (answers : GuardAnswers) (t t' : Terminal) :
    (showScreen answers t).1 = (showScreen answers t').1 := by
  unfold showScreen
  cases answers.setRawMode with
  | error err => rfl
  | ok => cases answers.enterScreen <;> rfl

/-- After a `leave` that succeeds, the terminal is restored, unless `stty` could neither read the mode
nor set a sane one. -/
theorem leave_ok (hactive : guard.active = true) (h : guard.leave answers t = (.ok (), guard', t')) :
    guard' = { guard with active := false } ∧
      (t'.Restored ∨ guard.savedMode = [] ∧ answers.sane = false) := by
  rw [TerminalGuard.leave, if_pos hactive] at h
  split at h
  · cases h
  · next t₁ hrestore =>
    split at h
    · cases h
      refine ⟨rfl, ?_⟩
      unfold restoreSttyMode at hrestore
      split at hrestore
      · next hmode =>
        cases hsane : answers.sane with
        | false => exact .inr ⟨hmode, rfl⟩
        | true =>
          rw [hsane] at hrestore
          cases hrestore
          exact .inl ⟨nofun, rfl, rfl⟩
      · split at hrestore
        · cases hrestore
          exact .inl ⟨nofun, rfl, rfl⟩
        · cases hrestore
    · cases h

/-- What `leave` returns does not depend on the terminal. -/
theorem leave_result (guard : TerminalGuard) (answers : GuardAnswers) (t t' : Terminal) :
    (guard.leave answers t).1 = (guard.leave answers t').1 := by
  unfold TerminalGuard.leave restoreSttyMode
  by_cases hactive : guard.active = true
  · rw [if_pos hactive, if_pos hactive]
    by_cases hmode : guard.savedMode = []
    · rw [if_pos hmode, if_pos hmode]
      cases answers.leaveScreen <;> rfl
    · rw [if_neg hmode, if_neg hmode]
      cases answers.restoreMode with
      | error err => rfl
      | ok => cases answers.leaveScreen <;> rfl
  · rw [if_neg hactive, if_neg hactive]

theorem reenter_ok (hinactive : guard.active = false) (h : showScreen answers t = (.ok (), t')) :
    guard.reenter answers t = (.ok (), { guard with active := true }, t') := by
  rw [TerminalGuard.reenter, hinactive, h]
  rfl

theorem reenter_error (hinactive : guard.active = false)
    (h : showScreen answers t = (.error err, t')) :
    guard.reenter answers t = (.error err, guard, t') := by
  rw [TerminalGuard.reenter, hinactive, h]
  rfl

end Guard

/-! ## 2. Rounds -/

/-- What holds before every round. -/
structure SessionOk {PathBuf : Type} (guard : TerminalGuard) (s : Session PathBuf) : Prop where
  guard_eq : s.guard = guard
  active : guard.active = true
  drawn : s.terminal.Drawn

section Rounds
variable {PathBuf : Type} {paths : Paths PathBuf} {rounds : Nat → SessionRound PathBuf}
  {s t : Session PathBuf} {guard : TerminalGuard} {r : SessionRound PathBuf} {app : App PathBuf}
  {file : PathBuf} {e : SessionEnd}

/-- The debugger comes back, to a terminal that is where the UI wants it. -/
theorem suspend_next (hs : SessionOk guard s) (h : suspendSession paths r s app file = .next t) :
    SessionOk guard t ∧ t.tui.round = s.tui.round + 1 ∧ t.tui.app.shouldQuit = app.shouldQuit := by
  obtain ⟨rfl, hactive, _⟩ := hs
  unfold suspendSession at h
  split at h
  · cases h
  · next guard' t' hleave =>
    obtain ⟨rfl, _⟩ := leave_ok hactive hleave
    simp only at h
    split at h
    · cases h
    · cases hshow : showScreen r.suspended t' with
      | mk result t₁ =>
        cases result with
        | error err =>
          rw [reenter_error rfl hshow] at h
          cases h
        | ok =>
          rw [reenter_ok rfl hshow] at h
          simp only at h
          split at h
          · cases h
          · cases h
            refine ⟨⟨?_, hactive, showScreen_ok hshow⟩, rfl, rfl⟩
            exact congrArg (TerminalGuard.mk _) hactive.symm

/-- The keys that end the UI. -/
def quitKeys : List Key :=
  [.char 'q', .esc]

theorem executeAction_quit (round : Round PathBuf) (app : App PathBuf) (action : Action) :
    (executeAction paths round app action).shouldQuit = app.shouldQuit := by
  unfold executeAction
  simp only
  split <;> rfl

theorem select_quit (app : App PathBuf) :
    app.selectNext.shouldQuit = app.shouldQuit ∧ app.selectPrev.shouldQuit = app.shouldQuit := by
  unfold App.selectNext App.selectPrev
  constructor <;> split <;> rfl

/-- Only `q` and Esc end the UI. -/
theorem handleKey_quits (round : Round PathBuf) (app : App PathBuf) {key : Key}
    (hkey : key ∉ quitKeys) : (handleKey paths round app key).1.shouldQuit = app.shouldQuit := by
  unfold handleKey
  split
  · exact absurd List.mem_cons_self hkey
  · exact absurd (List.mem_cons_of_mem _ List.mem_cons_self) hkey
  any_goals rfl
  · exact (select_quit app).1
  · exact (select_quit app).1
  · exact (select_quit app).2
  · exact (select_quit app).2
  · exact executeAction_quit round app .run
  · exact executeAction_quit round app .trace
  · exact executeAction_quit round app .verify
  · exact executeAction_quit round app .disassemble
  · exact executeAction_quit round app .info
  · exact executeAction_quit round app app.action
  · split <;> rfl

theorem handleKey_quit (round : Round PathBuf) (app : App PathBuf) {key : Key}
    (hkey : key ∈ quitKeys) :
    handleKey paths round app key = ({ app with shouldQuit := true }, none) := by
  rcases List.mem_pair.mp hkey with rfl | rfl
  · rfl
  · rfl

/-- A round that does not end the loop. -/
theorem sessionRound_next (hs : SessionOk guard s) (h : sessionRound paths rounds s = .next t) :
    SessionOk guard t ∧ t.tui.round = s.tui.round + 1 ∧ s.tui.app.shouldQuit = false ∧
      (t.tui.app.shouldQuit = true → (rounds s.tui.round).draw = .ok () ∧
        ∃ key ∈ quitKeys, (rounds s.tui.round).key = .ok (some key)) := by
  unfold sessionRound at h
  simp only at h
  split at h
  · cases h
  · next hdraw =>
    split at h
    · cases h
    · next hquit =>
      have hquit : s.tui.app.shouldQuit = false := Bool.eq_false_of_not_eq_true hquit
      split at h
      · cases h
      · cases h
        exact ⟨⟨hs.guard_eq, hs.active, hs.drawn⟩, rfl, hquit,
          fun h => absurd (hquit.symm.trans h) Bool.false_ne_true⟩
      · next key hkey =>
        have hquits
            (h : (handleKey paths ((rounds s.tui.round).toRound s.guard) s.tui.app
              key).1.shouldQuit = true) : key ∈ quitKeys := by
          by_contra hother
          rw [handleKey_quits _ _ hother, hquit] at h
          cases h
        split at h
        · next app hhandle =>
          cases h
          rw [hhandle] at hquits
          exact ⟨⟨hs.guard_eq, hs.active, hs.drawn⟩, rfl, hquit,
            fun h => ⟨hdraw, key, hquits h, hkey⟩⟩
        · next app file hhandle =>
          rw [hhandle] at hquits
          obtain ⟨ht, hround, hsame⟩ := suspend_next hs h
          exact ⟨ht, hround, hquit, fun h => ⟨hdraw, key, hquits (hsame ▸ h), hkey⟩⟩

/-- Opening the debugger, with the guard and with the results of its steps. -/
theorem suspend_related (hs : SessionOk guard s) :
    (∃ e, suspendSession paths r s app file = .done e ∧ ∃ t, e = .panicked t) ∨
      Outcome.Related (fun c a => c = a.tui ∧ SessionOk guard a) (fun r e => ∃ t, e = .returned r t)
        (match suspend (r.toRound guard)
          (launchDebugger paths (r.toRound guard) app.waivm app.root file) with
        | .error err => .done (.error err)
        | .ok code => .next ⟨debuggerBack paths app file code, s.tui.round + 1⟩)
        (suspendSession paths r s app file) := by
  obtain ⟨rfl, hactive, hdrawn⟩ := hs
  have hleaves := leave_result s.guard r.suspended .found s.terminal
  unfold suspendSession suspend
  rw [show (r.toRound s.guard).leave = _ from hleaves]
  cases hleave : s.guard.leave r.suspended s.terminal with
  | mk result rest =>
    obtain ⟨guard', t'⟩ := rest
    cases result with
    | error err => exact .inr (.done ⟨_, rfl⟩)
    | ok =>
      obtain ⟨rfl, _⟩ := leave_ok hactive hleave
      have hshows := showScreen_result r.suspended .found t'
      rw [show (r.toRound s.guard).reenter = _ from hshows]
      cases hprintln : r.println with
      | false => exact .inl ⟨_, rfl, _, rfl⟩
      | true =>
        right
        simp only [Bool.not_true, Bool.false_eq_true, if_false]
        cases hshow : showScreen r.suspended t' with
        | mk result t₁ =>
          cases result with
          | error err =>
            rw [reenter_error rfl hshow]
            exact .done ⟨_, rfl⟩
          | ok =>
            rw [reenter_ok rfl hshow]
            cases launchDebugger paths (r.toRound s.guard) app.waivm app.root file with
            | error err => exact .done ⟨_, rfl⟩
            | ok code =>
              exact .next ⟨rfl, congrArg (TerminalGuard.mk _) hactive.symm, hactive,
                showScreen_ok hshow⟩

/-- The loop with the guard makes the steps of the loop with its results, unless it panics. -/
theorem session_lockStep (paths : Paths PathBuf) (rounds : Nat → SessionRound PathBuf)
    (guard : TerminalGuard) :
    LockStepUnless (fun e => ∃ t, e = .panicked t)
      (tuiRound paths fun round => (rounds round).toRound guard) (sessionRound paths rounds)
      (fun c a => c = a.tui ∧ SessionOk guard a) fun r e => ∃ t, e = .returned r t := by
  rintro c s ⟨rfl, hs⟩
  have hs' := hs
  obtain ⟨rfl, hactive, hdrawn⟩ := hs'
  have hgoes (app : App PathBuf) :
      SessionOk s.guard ⟨⟨app, s.tui.round + 1⟩, s.guard, s.terminal⟩ := ⟨rfl, hactive, hdrawn⟩
  have hdraw : ((rounds s.tui.round).toRound s.guard).draw = (rounds s.tui.round).draw := rfl
  have hkey : ((rounds s.tui.round).toRound s.guard).key = (rounds s.tui.round).key := rfl
  unfold tuiRound sessionRound
  simp only [hdraw, hkey]
  cases (rounds s.tui.round).draw with
  | error err => exact .inr (.done ⟨_, rfl⟩)
  | ok =>
    cases s.tui.app.shouldQuit with
    | true => exact .inr (.done ⟨_, rfl⟩)
    | false =>
      cases (rounds s.tui.round).key with
      | error err => exact .inr (.done ⟨_, rfl⟩)
      | ok key =>
        cases key with
        | none => exact .inr (.next ⟨rfl, hgoes _⟩)
        | some key =>
          simp only [Bool.false_eq_true, if_false]
          cases handleKey paths ((rounds s.tui.round).toRound s.guard) s.tui.app key with
          | mk app debugFile =>
            cases debugFile with
            | none => exact .inr (.next ⟨rfl, hgoes _⟩)
            | some file => exact suspend_related hs

/-- The debugger does not end the UI without an error. -/
theorem suspend_error {t : Terminal} :
    suspendSession paths r s app file ≠ .done (.returned (.ok ()) t) := by
  intro h
  unfold suspendSession at h
  split at h
  · cases h
  · simp only at h
    split at h
    · cases h
    · split at h
      · cases h
      · split at h
        · cases h
        · cases h

/-- The loop returns without an error only after a key that ends it, and if the screen can be drawn. -/
theorem sessionRound_returned {t : Terminal}
    (h : sessionRound paths rounds s = .done (.returned (.ok ()) t)) :
    (rounds s.tui.round).draw = .ok () ∧ s.tui.app.shouldQuit = true := by
  unfold sessionRound at h
  simp only at h
  split at h
  · cases h
  · next hdraw =>
    split at h
    · next hquit => exact ⟨hdraw, hquit⟩
    · split at h
      · cases h
      · cases h
      · split at h
        · cases h
        · exact absurd h suspend_error

theorem sessionRound_quit (paths : Paths PathBuf) (hdraw : (rounds s.tui.round).draw = .ok ())
    (hquit : s.tui.app.shouldQuit = true) :
    ∃ t, sessionRound paths rounds s = .done (.returned (.ok ()) t) := by
  simp only [sessionRound, hdraw, hquit, if_true]
  exact ⟨_, rfl⟩

/-- A key that ends the UI is noticed in the round behind it. -/
theorem sessionRound_quitKey (paths : Paths PathBuf) {key : Key} (hkey : key ∈ quitKeys)
    (hdraw : (rounds s.tui.round).draw = .ok ()) (hquit : s.tui.app.shouldQuit = false)
    (hread : (rounds s.tui.round).key = .ok (some key)) :
    sessionRound paths rounds s =
      .next ⟨⟨{ s.tui.app with shouldQuit := true }, s.tui.round + 1⟩, s.guard, s.terminal⟩ := by
  simp only [sessionRound, hdraw, hquit, hread, handleKey_quit _ _ hkey, Bool.false_eq_true, if_false]

end Rounds

/-! ## 3. Processes -/

theorem mainEnd_ok {PathBuf : Type} {shell : Shell PathBuf} {stderr : Text} {t : Terminal}
    {e : SessionEnd}
    (h : mainEnd shell e = .exited 0 stderr t) : ∃ t, e = .returned (.ok ()) t := by
  unfold mainEnd at h
  split at h
  · exact ⟨_, rfl⟩
  · split at h <;> cases h
  · cases h

/-- A shell that starts the UI on one file, in a directory without programs. -/
def oneFileShell : Shell Text where
  args := ["--file".toList, "a.wai".toList]
  files :=
    { canonicalize := .ok
      currentDir := .ok ['.']
      waivmBin := none
      isDir := fun _ => false
      isFile := fun _ => false
      readDir := fun _ => .ok [] }
  sttyMode := .ok "2502:5:bf".toList
  entered := ⟨.ok (), .ok (), true, .done, .done⟩
  print := true
  eprintln := true

/-- Rounds in which `x` and `q` are pressed. Every step of the guard works. -/
def debugQuit (round : Nat) : SessionRound Text where
  draw := .ok ()
  key := .ok [.char 'x', .char 'q'][round]?
  createDirAll _ := .ok ()
  output _ := .error []
  exitCode _ := .ok (some 0)
  suspended := ⟨.ok (), .ok (), true, .done, .done⟩
  println := true
  dropped := ⟨.ok (), .ok (), true, .done, .done⟩

/-- The state in which the loop begins. -/
def oneFileStart : Session Text where
  tui := tuiStart (.start ['.'] "waivm".toList [⟨"a.wai".toList, "./a.wai".toList⟩])
  guard := ⟨"2502:5:bf".toList, true⟩
  terminal := ⟨.raw, true, true⟩

theorem oneFile_loop : beforeLoop textPaths oneFileShell = .next oneFileStart := by
  have hprograms : collectPrograms textPaths oneFileShell.files ['.'] = .ok [] := by
    simp [collectPrograms, programsIn, oneFileShell, bind, Except.bind, pure, Except.pure]
    rfl
  have happ : App.new textPaths oneFileShell.files
      { root := none, waivm := none, file := some "a.wai".toList } =
      .ok (.start ['.'] "waivm".toList [⟨"a.wai".toList, "./a.wai".toList⟩]) := by
    unfold App.new
    rw [show detectRoot textPaths oneFileShell.files none = .ok ['.'] from rfl]
    simp only [bind, Except.bind, hprograms]
    rfl
  have hargs : parseArgs textPaths .default oneFileShell.args =
      .ok (.run { root := none, waivm := none, file := some "a.wai".toList }) := rfl
  simp only [beforeLoop, hargs, happ]
  rfl

section Processes
variable {PathBuf : Type} [DecidableEq PathBuf] {paths : Paths PathBuf} {shell : Shell PathBuf}
  {rounds : Nat → SessionRound PathBuf} {start s : Session PathBuf} {e : ProcessEnd}

/-- The loop begins with the guard active, on a screen that can be drawn. -/
theorem beforeLoop_next (h : beforeLoop paths shell = .next start) :
    SessionOk start.guard start ∧
      ∃ root waivm programs, start.tui = tuiStart (.start root waivm programs) := by
  unfold beforeLoop at h
  split at h
  · cases h
  · cases h
  · split at h
    · cases h
    · next app happ =>
      split at h
      · cases h
      · next guard t henter =>
        cases h
        obtain ⟨root, waivm, programs, rfl⟩ := start_of_new happ
        refine ⟨?_, root, waivm, programs, rfl⟩
        unfold TerminalGuard.enter at henter
        split at henter
        · cases henter
        · next hshow =>
          cases henter
          exact ⟨rfl, rfl, showScreen_ok hshow⟩

theorem session_reached (h : beforeLoop paths shell = .next start)
    (hreach : Reaches (sessionRound paths rounds) start s) : SessionOk start.guard s :=
  Machine.reaches_invariant (I := SessionOk start.guard)
    (fun _ _ hs hstep => (sessionRound_next hs hstep).1) hreach (beforeLoop_next h).1

/-- Before every round the terminal is where the UI wants it and the guard knows it. Whenever the guard
lets the debugger have the terminal, it is restored, unless the mode was not known and `stty sane` fails. -/
theorem session_invariant (h : beforeLoop paths shell = .next start)
    (hreach : Reaches (sessionRound paths rounds) start s) :
    s.guard.active = true ∧ s.terminal.Drawn ∧
      ∀ answers guard t, s.guard.leave answers s.terminal = (.ok (), guard, t) →
        t.Restored ∨ s.guard.savedMode = [] ∧ answers.sane = false := by
  obtain ⟨hguard, hactive, hdrawn⟩ := session_reached h hreach
  exact ⟨hguard ▸ hactive, hdrawn, fun _ _ _ hleave => (leave_ok (hguard ▸ hactive) hleave).2⟩

theorem session_invariant_debug :
    ∃ s, Reaches (sessionRound textPaths debugQuit) oneFileStart s ∧ s.tui.round = 1 ∧
      s.guard.active = true ∧ s.terminal.Drawn :=
  have hreach : Reaches (sessionRound textPaths debugQuit) oneFileStart _ := ⟨1, rfl⟩
  have hinvariant := session_invariant oneFile_loop hreach
  ⟨_, hreach, rfl, hinvariant.1, hinvariant.2.1⟩

/-- The loop with the guard refines the loop of the application alone: it goes through its states and
ends with its results, unless `println!` panics. -/
theorem session_refines (h : beforeLoop paths shell = .next start) :
    let loop := tuiRound paths fun round => (rounds round).toRound start.guard
    (∀ s, Reaches (sessionRound paths rounds) start s → Reaches loop start.tui s.tui) ∧
      (∀ e, Ends (sessionRound paths rounds) start e →
        (∃ t, e = .panicked t) ∨ ∃ result t, e = .returned result t ∧ Ends loop start.tui result) ∧
      ∀ result, Ends loop start.tui result →
        ∃ e, Ends (sessionRound paths rounds) start e ∧
          ((∃ t, e = .panicked t) ∨ ∃ t, e = .returned result t) := by
  have hlock := session_lockStep paths rounds start.guard
  have hstart := (beforeLoop_next h).1
  refine ⟨?_, ?_, ?_⟩
  · rintro s ⟨n, hn⟩
    obtain ⟨c, ⟨rfl, _⟩, hc⟩ := hlock.reachesIn ⟨rfl, hstart⟩ hn
    exact ⟨n, hc⟩
  · intro e hends
    by_cases hpanicked : ∃ t, e = .panicked t
    · exact .inl hpanicked
    · obtain ⟨result, ⟨t, rfl⟩, hloop⟩ := hlock.ends ⟨rfl, hstart⟩ hends hpanicked
      exact .inr ⟨result, t, rfl, hloop⟩
  · exact fun result hends => hlock.ends_reflect ⟨rfl, hstart⟩ hends

theorem session_refines_debug :
    Ends (tuiRound textPaths fun round => (debugQuit round).toRound oneFileStart.guard)
      oneFileStart.tui (.ok ()) := by
  obtain ⟨_, hends, _⟩ :=
    @session_refines Text _ textPaths oneFileShell debugQuit oneFileStart oneFile_loop
  obtain ⟨_, h⟩ | ⟨result, _, h, hloop⟩ := hends (.returned (.ok ()) _) ⟨3, rfl⟩
  · cases h
  · cases h
    exact hloop

/-- A loop that is about to be left has read its key in the round before. -/
theorem quit_read (h : beforeLoop paths shell = .next start)
    (hreach : Reaches (sessionRound paths rounds) start s) (hquit : s.tui.app.shouldQuit = true) :
    ∃ s', Reaches (sessionRound paths rounds) start s' ∧ s.tui.round = s'.tui.round + 1 ∧
      (∃ key ∈ quitKeys, (rounds s'.tui.round).key = .ok (some key)) ∧
      (rounds s'.tui.round).draw = .ok () := by
  obtain ⟨n, hn⟩ := hreach
  cases n with
  | zero =>
    cases hn
    obtain ⟨_, _, _, _, htui⟩ := beforeLoop_next h
    rw [htui] at hquit
    cases hquit
  | succ n =>
    obtain ⟨s', hs', hstep⟩ := Machine.reachesIn_last hn
    obtain ⟨_, hround, _, hread⟩ := sessionRound_next (session_reached h ⟨n, hs'⟩) hstep
    obtain ⟨hdraw, hkey⟩ := hread hquit
    exact ⟨s', ⟨n, hs'⟩, hround, hkey, hdraw⟩

theorem beforeLoop_fails {stderr : Text} {t : Terminal} :
    beforeLoop paths shell ≠ .done (.exited 0 stderr t) := by
  intro h
  have herror {err : Text} {t' : Terminal}
      (h : mainEnd shell (.returned (.error err) t') = .exited 0 stderr t) : False := by
    obtain ⟨_, he⟩ := mainEnd_ok h
    cases he
  unfold beforeLoop at h
  split at h
  · exact herror (Outcome.done.inj h)
  · split at h <;> cases h
  · split at h
    · exact herror (Outcome.done.inj h)
    · split at h
      · exact herror (Outcome.done.inj h)
      · cases h

/-- The process exits with 0 only behind its loop. -/
theorem loop_of_exited {stderr : Text} {t : Terminal}
    (h : TuiEnds paths shell rounds (.exited 0 stderr t)) :
    ∃ start e, beforeLoop paths shell = .next start ∧ Ends (sessionRound paths rounds) start e ∧
      mainEnd shell e = .exited 0 stderr t := by
  generalize hexit : ProcessEnd.exited 0 stderr t = exit at h
  cases h with
  | before hbefore => exact absurd (hexit ▸ hbefore) beforeLoop_fails
  | loop hstart hends => exact ⟨_, _, hstart, hends, rfl⟩

/-- The process leaves its loop without an error exactly when a key that ends it is read, and the screen
can be drawn before and behind it. -/
theorem tui_quits (paths : Paths PathBuf) (shell : Shell PathBuf)
    (rounds : Nat → SessionRound PathBuf) :
    (∃ stderr t, TuiEnds paths shell rounds (.exited 0 stderr t)) ↔
      ∃ start s, beforeLoop paths shell = .next start ∧
        Reaches (sessionRound paths rounds) start s ∧
        (∃ key ∈ quitKeys, (rounds s.tui.round).key = .ok (some key)) ∧
        (rounds s.tui.round).draw = .ok () ∧ (rounds (s.tui.round + 1)).draw = .ok () := by
  constructor
  · rintro ⟨stderr, t, h⟩
    obtain ⟨start, e, hstart, ⟨n, hn⟩, hexit⟩ := loop_of_exited h
    obtain ⟨t, rfl⟩ := mainEnd_ok hexit
    obtain ⟨m, last, _, hreach, hdone⟩ := Machine.endsIn_cases hn
    obtain ⟨hdraw, hquit⟩ := sessionRound_returned hdone
    obtain ⟨s, hs, hround, hkey, hdrawn⟩ := quit_read hstart ⟨m, hreach⟩ hquit
    exact ⟨start, s, hstart, hs, hkey, hdrawn, hround ▸ hdraw⟩
  · rintro ⟨start, s, hstart, hreach, ⟨key, hkey, hread⟩, hdraw, hnext⟩
    have hends : ∃ t, Ends (sessionRound paths rounds) s (.returned (.ok ()) t) := by
      cases hquit : s.tui.app.shouldQuit with
      | true =>
        obtain ⟨t, hdone⟩ := sessionRound_quit paths hdraw hquit
        exact ⟨t, Machine.ends_of_done hdone⟩
      | false =>
        have hstep := sessionRound_quitKey paths hkey hdraw hquit hread
        obtain ⟨t, hdone⟩ := @sessionRound_quit _ rounds
          ⟨⟨{ s.tui.app with shouldQuit := true }, s.tui.round + 1⟩, s.guard, s.terminal⟩ paths
          hnext rfl
        exact ⟨t, Machine.ends_of_reaches (Machine.reaches_of_next hstep)
          (Machine.ends_of_done hdone)⟩
    obtain ⟨t, hends⟩ := hends
    exact ⟨[], t, .loop hstart (Machine.ends_of_reaches hreach hends)⟩

end Processes

end Waivm.Tui
