import Waivm.TuiScreen

/-!
# The selection and the scroll position

A round of the loop changes the selection, the output or the position in the output. The
methods of `App` keep the position inside of the output, but the loop itself replaces the
output by two lines when the debugger is back, and leaves the position alone.

Results:
1. `handleKey_effect`: what a key does to the three.
2. `selected_reached`: in every state of a run a program is selected, if there is one.
3. `outputStart_eq_iff`: the position is that of the first line on the screen exactly when it
   is inside of the output.
4. `tui_invariant_iff`: the runs in which this is so throughout.
-/

namespace Waivm.Tui

open CString
open Machine (Outcome Reaches)

/-- A program is selected, if there is one. -/
def SelectedOk {PathBuf : Type} (app : App PathBuf) : Prop :=
  app.selected < app.programs.length ∨ app.programs = [] ∧ app.selected = 0

/-- The position is inside of the output, if there is one. -/
def ScrollOk {PathBuf : Type} (app : App PathBuf) : Prop :=
  app.scroll < app.output.length ∨ app.output = [] ∧ app.scroll = 0

/-- The selection and the scroll position are valid. -/
structure TuiInvariant {PathBuf : Type} (app : App PathBuf) : Prop where
  selected : SelectedOk app
  scroll : ScrollOk app

/-- The debugger is opened in the round that comes, and it is back at the end of the round. -/
def DebuggerReturns {PathBuf : Type} (paths : Paths PathBuf) (rounds : Nat → Round PathBuf)
    (s : TuiState PathBuf) : Prop :=
  (rounds s.round).draw = .ok () ∧ s.app.shouldQuit = false ∧
    (rounds s.round).key = .ok (some (.char 'x')) ∧
    ∃ file code, s.app.selectedPath = some file ∧
      suspend (rounds s.round)
        (launchDebugger paths (rounds s.round) s.app.waivm s.app.root file) = .ok code

/-! ## 1. Keys -/

/-- What a key does: it leaves the selection, the output and the position alone, selects a
program, moves the position, or shows another output from its beginning. -/
inductive KeyEffect {PathBuf : Type} (app app' : App PathBuf) : Prop
  | stays (hprograms : app'.programs = app.programs) (hselected : app'.selected = app.selected)
      (houtput : app'.output = app.output) (hscroll : app'.scroll = app.scroll)
  | selects (hprograms : app'.programs = app.programs)
      (hselected : app'.selected < app.programs.length)
      (houtput : app'.output = app.output) (hscroll : app'.scroll = app.scroll)
  | scrolls (hprograms : app'.programs = app.programs) (hselected : app'.selected = app.selected)
      (houtput : app'.output = app.output)
      (hscroll : app'.scroll ≤ app.scroll ∨ app'.scroll ≤ app.output.length - 1)
  | shows (hprograms : app'.programs = app.programs) (hselected : app'.selected = app.selected)
      (hscroll : app'.scroll = 0)

section Keys
variable {PathBuf : Type} {paths : Paths PathBuf} {round : Round PathBuf} {app app' : App PathBuf}

theorem selectNext_effect (app : App PathBuf) : KeyEffect app app.selectNext := by
  unfold App.selectNext
  split
  · exact .stays rfl rfl rfl rfl
  · next hne => exact .selects rfl (Nat.mod_lt _ (List.length_pos_of_ne_nil hne)) rfl rfl

theorem selectPrev_effect (app : App PathBuf) : KeyEffect app app.selectPrev := by
  unfold App.selectPrev
  split
  · exact .stays rfl rfl rfl rfl
  · next hne => exact .selects rfl (Nat.mod_lt _ (List.length_pos_of_ne_nil hne)) rfl rfl

theorem executeAction_effect (app : App PathBuf) (action : Action) :
    KeyEffect app (executeAction paths round app action) := by
  unfold executeAction
  simp only
  split
  · exact .stays rfl rfl rfl rfl
  · exact .shows rfl rfl rfl

theorem handleKey_effect (app : App PathBuf) (key : Key) :
    KeyEffect app (handleKey paths round app key).1 := by
  unfold handleKey
  -- the keys stand in the order of the source
  split
  · exact .stays rfl rfl rfl rfl
  · exact .stays rfl rfl rfl rfl
  · exact .stays rfl rfl rfl rfl
  · exact .stays rfl rfl rfl rfl
  · exact selectNext_effect app
  · exact selectNext_effect app
  · exact selectPrev_effect app
  · exact selectPrev_effect app
  · exact .stays rfl rfl rfl rfl
  · exact .stays rfl rfl rfl rfl
  · exact .stays rfl rfl rfl rfl
  · exact .stays rfl rfl rfl rfl
  · exact .stays rfl rfl rfl rfl
  · exact .scrolls rfl rfl rfl (.inl (Nat.sub_le _ _))
  · exact .scrolls rfl rfl rfl (.inr (Nat.min_le_right _ _))
  · exact .scrolls rfl rfl rfl (.inl (Nat.zero_le _))
  · exact .scrolls rfl rfl rfl (.inr (Nat.le_refl _))
  · exact .shows rfl rfl rfl
  · exact executeAction_effect app .run
  · exact executeAction_effect app .trace
  · exact executeAction_effect app .verify
  · exact executeAction_effect app .disassemble
  · exact executeAction_effect app .info
  · exact executeAction_effect app app.action
  · split
    · exact .stays rfl rfl rfl rfl
    · exact .stays rfl rfl rfl rfl
  · exact .stays rfl rfl rfl rfl
  · exact .stays rfl rfl rfl rfl

/-- Only `x` opens the debugger, on the program that is selected. -/
theorem handleKey_debug {key : Key} {file : PathBuf}
    (h : handleKey paths round app key = (app', some file)) :
    key = .char 'x' ∧ app.selectedPath = some file ∧
      app' = { app with status := "launching interactive debugger".toList } := by
  unfold handleKey at h
  split at h
  any_goals cases h
  -- the branch of `x` is left
  split at h
  · next path hpath =>
    cases h
    exact ⟨rfl, hpath, rfl⟩
  · cases h

theorem handleKey_x {file : PathBuf} (h : app.selectedPath = some file) :
    handleKey paths round app (.char 'x') =
      ({ app with status := "launching interactive debugger".toList }, some file) := by
  rw [handleKey, h]

theorem KeyEffect.selectedOk (h : KeyEffect app app') (happ : SelectedOk app) : SelectedOk app' := by
  cases h with
  | selects hprograms hselected => exact .inl (hprograms ▸ hselected)
  | stays hprograms hselected | scrolls hprograms hselected | shows hprograms hselected =>
    rw [SelectedOk, hprograms, hselected]
    exact happ

theorem scrollOk_of_zero (h : app.scroll = 0) : ScrollOk app := by
  cases houtput : app.output with
  | nil => exact .inr ⟨houtput, h⟩
  | cons line rest =>
    left
    rw [h, houtput]
    exact Nat.succ_pos _

theorem scrollOk_iff : ScrollOk app ↔ app.scroll ≤ app.output.length - 1 := by
  unfold ScrollOk
  cases app.output with
  | nil => simp
  | cons line rest => simp

theorem KeyEffect.scrollOk (h : KeyEffect app app') (happ : ScrollOk app) : ScrollOk app' := by
  cases h with
  | stays _ _ houtput hscroll | selects _ _ houtput hscroll =>
    rw [ScrollOk, houtput, hscroll]
    exact happ
  | scrolls _ _ houtput hscroll =>
    rw [scrollOk_iff] at happ ⊢
    rw [houtput]
    exact hscroll.elim (·.trans happ) id
  | shows _ _ hscroll => exact scrollOk_of_zero hscroll

end Keys

/-! ## 2. Rounds -/

section Rounds
variable {PathBuf : Type} {paths : Paths PathBuf} {rounds : Nat → Round PathBuf}
  {s t : TuiState PathBuf} {root waivm : PathBuf} {programs : List (Program PathBuf)}

/-- A round does what a key does, or shows the two lines about the debugger at the old position. -/
theorem tuiRound_next (h : tuiRound paths rounds s = .next t) :
    KeyEffect s.app t.app ∨
      DebuggerReturns paths rounds s ∧ t.app.programs = s.app.programs ∧
        t.app.selected = s.app.selected ∧ t.app.scroll = s.app.scroll ∧
        t.app.output.length = 2 := by
  unfold tuiRound at h
  simp only at h
  split at h
  · cases h
  · next hdraw =>
    split at h
    · cases h
    · next hquit =>
      split at h
      · cases h
      · cases h
        exact .inl (.stays rfl rfl rfl rfl)
      · next key hkey =>
        have heffect := @handleKey_effect _ paths (rounds s.round) s.app key
        split at h
        · next app hhandle =>
          cases h
          rw [hhandle] at heffect
          exact .inl heffect
        · next app file hhandle =>
          obtain ⟨rfl, hpath, rfl⟩ := handleKey_debug hhandle
          split at h
          · cases h
          · next code hcode =>
            cases h
            exact .inr ⟨⟨hdraw, Bool.eq_false_of_not_eq_true hquit, hkey, file, code, hpath, hcode⟩,
              rfl, rfl, rfl, rfl⟩

/-- The round in which the debugger is opened and comes back. -/
theorem tuiRound_debugger (h : DebuggerReturns paths rounds s) :
    ∃ t, tuiRound paths rounds s = .next t ∧ t.app.scroll = s.app.scroll ∧
      t.app.output.length = 2 := by
  obtain ⟨hdraw, hquit, hkey, file, code, hpath, hcode⟩ := h
  refine ⟨⟨debuggerBack paths { s.app with status := "launching interactive debugger".toList } file
    code, s.round + 1⟩, ?_, rfl, rfl⟩
  simp only [tuiRound, hdraw, hquit, hkey, Bool.false_eq_true, if_false, handleKey_x hpath, hcode]

/-- `App::new` returns an application in its first state. -/
theorem start_of_new [DecidableEq PathBuf] {env : Surroundings PathBuf} {config : Config PathBuf}
    {app : App PathBuf} (h : App.new paths env config = .ok app) :
    ∃ root waivm programs, app = .start root waivm programs := by
  unfold App.new at h
  cases hroot : detectRoot paths env config.root with
  | error err => simp [hroot, bind, Except.bind] at h
  | ok root =>
    cases hprograms : collectPrograms paths env root with
    | error err => simp [hroot, hprograms, bind, Except.bind] at h
    | ok programs =>
      simp only [hroot, hprograms, bind, Except.bind] at h
      split at h
      · cases h
        exact ⟨_, _, _, rfl⟩
      · cases h
        exact ⟨_, _, _, rfl⟩

/-- In every state of a run a program is selected, if there is one. -/
theorem selected_reached
    (h : Reaches (tuiRound paths rounds) (tuiStart (.start root waivm programs)) s) :
    SelectedOk s.app := by
  refine Machine.reaches_invariant (I := fun s : TuiState PathBuf => SelectedOk s.app) ?_ h ?_
  · intro s t hs hstep
    rcases tuiRound_next hstep with heffect | ⟨_, hprograms, hselected, _⟩
    · exact heffect.selectedOk hs
    · rw [SelectedOk, hprograms, hselected]
      exact hs
  · cases programs with
    | nil => exact .inr ⟨rfl, rfl⟩
    | cons program rest => exact .inl (Nat.succ_pos _)

/-- A round keeps the position inside of the output, unless the debugger is back and the position
is behind the second line. -/
theorem scroll_round (hs : ScrollOk s.app) (hstep : tuiRound paths rounds s = .next t)
    (hback : DebuggerReturns paths rounds s → s.app.scroll ≤ 1) : ScrollOk t.app := by
  rcases tuiRound_next hstep with heffect | ⟨hreturns, _, _, hscroll, hlength⟩
  · exact heffect.scrollOk hs
  · left
    rw [hscroll, hlength]
    exact Nat.lt_succ_of_le (hback hreturns)

/-- A key moves the position to an earlier one, or to one inside of the output. -/
theorem KeyEffect.scroll_le {app app' : App PathBuf} (h : KeyEffect app app') :
    app'.scroll ≤ app.scroll ∨ app'.scroll ≤ app.output.length := by
  cases h with
  | stays _ _ _ hscroll | selects _ _ _ hscroll => exact .inl hscroll.le
  | scrolls _ _ _ hscroll => exact hscroll.imp_right (·.trans (Nat.sub_le _ _))
  | shows _ _ hscroll => exact .inl (hscroll ▸ Nat.zero_le _)

/-- The sums of `App`'s methods fit into a `usize`: a `Vec` has less than 2^63 elements. -/
theorem usize_fits
    (hvec : ∀ s, Reaches (tuiRound paths rounds) (tuiStart (.start root waivm programs)) s →
      s.app.programs.length < 2 ^ 63 ∧ s.app.output.length < 2 ^ 63)
    (h : Reaches (tuiRound paths rounds) (tuiStart (.start root waivm programs)) s) :
    s.app.selected + s.app.programs.length < 2 ^ 64 ∧ s.app.scroll + 10 < 2 ^ 64 := by
  have hscroll := Machine.reaches_invariant (I := fun s : TuiState PathBuf =>
    Reaches (tuiRound paths rounds) (tuiStart (.start root waivm programs)) s ∧
      s.app.scroll < 2 ^ 63)
    (fun s t ⟨hs, hlt⟩ hstep => ⟨Machine.reaches_step hs hstep, by
      rcases tuiRound_next hstep with heffect | ⟨_, _, _, hsame, _⟩
      · exact heffect.scroll_le.elim (Nat.lt_of_le_of_lt · hlt)
          (Nat.lt_of_le_of_lt · (hvec s hs).2)
      · exact hsame ▸ hlt⟩)
    h ⟨Machine.reaches_refl _, Nat.two_pow_pos 63⟩
  obtain ⟨hprograms, _⟩ := hvec s h
  have hselected : s.app.selected ≤ s.app.programs.length := by
    rcases selected_reached h with hlt | ⟨_, hzero⟩
    · exact hlt.le
    · exact hzero ▸ Nat.zero_le _
  exact ⟨by omega, by omega⟩

/-- The position is that of the first line on the screen exactly when it is inside of the output. -/
theorem outputStart_eq_iff (app : App PathBuf) : outputStart app = app.scroll ↔ ScrollOk app := by
  rw [outputStart, min_eq_left_iff, scrollOk_iff]

end Rounds

/-- The selection and the scroll position are valid throughout a run exactly when the position is
at one of the first two lines whenever the debugger comes back. -/
theorem tui_invariant_iff {PathBuf : Type} (paths : Paths PathBuf) (rounds : Nat → Round PathBuf)
    (root waivm : PathBuf) (programs : List (Program PathBuf)) :
    (∀ s, Reaches (tuiRound paths rounds) (tuiStart (.start root waivm programs)) s →
      TuiInvariant s.app) ↔
    ∀ s, Reaches (tuiRound paths rounds) (tuiStart (.start root waivm programs)) s →
      DebuggerReturns paths rounds s → s.app.scroll ≤ 1 := by
  constructor
  · intro hall s hreach hreturns
    obtain ⟨t, hstep, hscroll, hlength⟩ := tuiRound_debugger hreturns
    have hscrollOk := (hall t (Machine.reaches_step hreach hstep)).scroll
    rwa [scrollOk_iff, hscroll, hlength] at hscrollOk
  · intro hback s hreach
    refine ⟨selected_reached hreach, ?_⟩
    have hinv := Machine.reaches_invariant (I := fun s : TuiState PathBuf =>
      Reaches (tuiRound paths rounds) (tuiStart (.start root waivm programs)) s ∧ ScrollOk s.app)
      (fun s t ⟨hs, hok⟩ hstep =>
        ⟨Machine.reaches_step hs hstep, scroll_round hok hstep (hback s hs)⟩)
      hreach ⟨Machine.reaches_refl _, scrollOk_of_zero rfl⟩
    exact hinv.2

/-- Paths that are plain texts. -/
def textPaths : Paths Text where
  ofText := id
  display := id
  join path name := path ++ '/' :: name
  parent _ := none
  isAbsolute path := path.head? == some '/'
  fileName path := (path.splitOn '/').getLast?
  fileStem path := ((path.splitOn '/').getLastD []).splitOn '.' |>.head?
  extension path := (path.splitOn '.').getLast?

/-- Rounds in which the keys `r`, End and `x` are pressed and nothing else. Every command prints
`42` and succeeds. -/
def runEndDebug (round : Nat) : Round Text where
  draw := .ok ()
  key := .ok [.char 'r', .toEnd, .char 'x'][round]?
  createDirAll _ := .ok ()
  output _ := .ok
    { code := some 0, status := "exit status: 0".toList, stdout := "42\n".toList, stderr := [] }
  exitCode _ := .ok (some 0)
  leave := .ok ()
  reenter := .ok ()

/-- After `r`, End and `x` the position is 5, in an output of two lines. -/
theorem scroll_left_behind :
    ¬ ∀ s, Reaches (tuiRound textPaths runEndDebug)
      (tuiStart (.start ['.'] "waivm".toList [⟨"a.wai".toList, "./a.wai".toList⟩])) s →
      TuiInvariant s.app := by
  intro hall
  obtain ⟨s, hreach, hscroll, hlength⟩ : ∃ s,
      Reaches (tuiRound textPaths runEndDebug)
        (tuiStart (.start ['.'] "waivm".toList [⟨"a.wai".toList, "./a.wai".toList⟩])) s ∧
      s.app.scroll = 5 ∧ s.app.output.length = 2 :=
    ⟨_, ⟨3, rfl⟩, rfl, rfl⟩
  have hscrollOk := (hall s hreach).scroll
  rw [scrollOk_iff, hscroll, hlength] at hscrollOk
  exact absurd hscrollOk (by decide)

end Waivm.Tui
