import Waivm.DebuggerRun

/-!
# What the debugger returns

After a failed `do_step` the debugger returns `vm.error`. `wai_vm_step` records its error
there on every way out but one: on a machine without code it returns `WAI_ERR_PARSE` and
leaves `vm.error` at `WAI_OK`.

Results:

1. `failed_round`: how a failing call of `wai_vm_step` ends the debugger.
2. `reports_failures_iff`: the debugger returns the errors that it sees exactly when the
   program has an array, or no command of the script executes an instruction.
-/

namespace Waivm

open CString
open Machine (Reaches ReachesIn Ends)

/-! ## 1. Failing calls -/

/-- The round that follows `s` calls `wai_vm_step`. -/
def CallsStep {count : Nat} (s : DebuggerState count) : Prop :=
  s.vm.halted = 0 ∧
    ((s.continuing = true ∧ s.atBreakpoint = false) ∨
      (AtPrompt s ∧ ∃ rest, readCommand s.input = some (some .doStep, rest)))

/-- In the run of the debugger on `input`, a call of `wai_vm_step` returns the error `e`. -/
def FailedStep (program : OwnedProgram) (input : Text) (e : WaiErrorCode) : Prop :=
  ∃ s vm, DebuggerReaches program input s ∧ CallsStep s ∧
    waiVmStep s.vm = .ok (e, vm) ∧ e ≠ .ok

/-- The debugger returns every error that a call of `wai_vm_step` returned, and `WAI_OK`
only when none did. -/
def ReportsFailures (program : OwnedProgram) (input : Text) : Prop :=
  (∀ e, FailedStep program input e → ∃ out, WaiDebuggerRun program true input (.returned e out)) ∧
  ∀ out, WaiDebuggerRun program true input (.returned .ok out) → ∀ e, ¬ FailedStep program input e

/-- `command` is dispatched in the script `input`: no `quit` is before it. -/
inductive InScript : Text → DebuggerCommand → Prop
  | here {input rest : Text} {command : DebuggerCommand} :
      readCommand input = some (some command, rest) → InScript input command
  | blank {input rest : Text} {command : DebuggerCommand} :
      readCommand input = some (none, rest) → InScript rest command → InScript input command
  | later {input rest : Text} {first command : DebuggerCommand} :
      readCommand input = some (some first, rest) → first ≠ .quit → InScript rest command →
      InScript input command

section Failures
variable {program : OwnedProgram} {s t : DebuggerState program.count} {input : Text}
  {vm : WaiVm} {e : WaiErrorCode}

/-- A failing call ends the debugger with the error that the machine recorded, and the last
line that is written names the instruction. -/
theorem failed_round (hcalls : CallsStep s) (hs : waiVmStep s.vm = .ok (e, vm)) (hne : e ≠ .ok) :
    ∃ out, debuggerStep program s =
      .done (.returned vm.error (out ++ [.runtimeError s.vm.ip e])) := by
  obtain ⟨h0, ⟨hcontinuing, hfree⟩ | ⟨hprompt, rest, hread⟩⟩ := hcalls
  -- the call is made in the loop of `continue`, or by a `step`
  · rw [continue_executes hcontinuing h0 hfree]
    exact ⟨_, doStep_of_failed hs hne⟩
  · have hfailed := doStep_of_failed (s := afterRead s .doStep rest) hs hne
    rw [prompt_step hprompt hread, debuggerDispatch, if_neg (not_not_intro (by exact h0)), hfailed]
    exact ⟨_, rfl⟩

/-- A machine with code that the debugger reaches records the error of a failing call. -/
theorem error_recorded {code : List WaiInstruction} (hc : program.code = some code)
    (h : DebuggerReaches program input s) (hs : waiVmStep s.vm = .ok (e, vm)) (hne : e ≠ .ok) :
    vm.error = e := by
  obtain ⟨d, hinv⟩ := reached_machine hc (debugger_invariant h).reached
  exact (step_failed (program.length_lt hc) hinv hs hne).1

/-- The debugger returns the errors of a program that has an array. -/
theorem reports_of_code {code : List WaiInstruction} (hc : program.code = some code) (input : Text) :
    ReportsFailures program input := by
  have hreturned : ∀ e, FailedStep program input e →
      ∃ out, WaiDebuggerRun program true input (.returned e out) := by
    rintro e ⟨s, vm, hreach, hcalls, hs, hne⟩
    obtain ⟨out, hround⟩ := failed_round hcalls hs hne
    rw [error_recorded hc hreach hs hne] at hround
    exact ⟨_, Machine.ends_of_reaches hreach (Machine.ends_of_done hround)⟩
  refine ⟨hreturned, fun out hok e hfailed => ?_⟩
  -- the debugger ends in one way, so it did not return `WAI_OK` after a failure
  obtain ⟨out', hended⟩ := hreturned e hfailed
  cases Machine.ends_unique hok hended
  obtain ⟨_, _, _, _, _, hne⟩ := hfailed
  exact hne rfl

/-! ## 2. Programs without an array -/

/-- What the debugger still has to read is read in the script. -/
theorem script_rest (h : DebuggerReaches program input s)
    (hscript : ∀ command, InScript input command → command ≠ .doStep ∧ command ≠ .doContinue) :
    AtPrompt s ∧ ∀ command, InScript s.input command → InScript input command := by
  refine Machine.reaches_invariant (I := fun s : DebuggerState program.count => AtPrompt s ∧
    ∀ command, InScript s.input command → InScript input command) ?_ h ⟨rfl, fun _ => id⟩
  rintro s t ⟨hprompt, hrest⟩ hstep
  cases hread : readCommand s.input with
  | none =>
    rw [debuggerStep, show s.continuing = false from hprompt, if_neg Bool.false_ne_true,
      promptRound, hread] at hstep
    cases hstep
  | some read =>
    obtain ⟨command, rest⟩ := read
    cases command with
    | none =>
      cases (prompt_blank hprompt hread).symm.trans hstep
      exact ⟨hprompt, fun command hin => hrest command (.blank hread hin)⟩
    | some first =>
      obtain ⟨_, hcontinue⟩ := hscript first (hrest first (.here hread))
      have hdispatch := dispatch_cases ((prompt_step hprompt hread).symm.trans hstep)
      obtain ⟨hprompt', hinput, _⟩ :=
        Dispatch.prompt (s := afterRead s first rest) hprompt hcontinue hdispatch
      -- `quit` would have ended the debugger
      have hquit : first ≠ .quit := by
        rintro rfl
        cases (prompt_step hprompt hread).symm.trans hstep
      rw [hinput]
      exact ⟨hprompt', fun command hin => hrest command (.later hread hquit hin)⟩

/-- A script without `step` and `continue` calls `wai_vm_step` never. -/
theorem not_failed_of_script
    (hscript : ∀ command, InScript input command → command ≠ .doStep ∧ command ≠ .doContinue)
    (e : WaiErrorCode) : ¬ FailedStep program input e := by
  rintro ⟨s, vm, hreach, ⟨_, hcalls⟩, _, _⟩
  obtain ⟨hprompt, hrest⟩ := script_rest hreach hscript
  rcases hcalls with ⟨hcontinuing, _⟩ | ⟨_, rest, hread⟩
  · exact absurd (hprompt.symm.trans hcontinuing) Bool.false_ne_true
  · exact (hscript _ (hrest _ (.here hread))).1 rfl

/-- A command on a machine without code leaves it alone: no instruction can be executed. -/
theorem vm_of_null {command : DebuggerCommand} (hc : program.code = none)
    (hvm : s.vm = program.initialVm) (hdispatch : debuggerDispatch program s command = .next t) :
    t.vm = program.initialVm := by
  cases (dispatch_cases hdispatch).effect with
  | quiet hquiet => exact hquiet.trans hvm
  | executes _ hok =>
    obtain ⟨code, hcode⟩ := code_of_stepOk hok
    rw [hvm] at hcode
    cases hc.symm.trans hcode

/-- A `continue` on such a machine calls `wai_vm_step` in the round that follows. -/
theorem continue_calls {rest : Text} (hc : program.code = none) (hprompt : AtPrompt s)
    (hread : readCommand s.input = some (some .doContinue, rest)) (hvm : s.vm = program.initialVm) :
    ∃ t, Reaches (debuggerStep program) s t ∧ CallsStep t ∧ t.vm = program.initialVm := by
  have hfree : ∀ s : DebuggerState program.count, s.atBreakpoint = false := fun s => by
    rw [DebuggerState.atBreakpoint, dif_neg]
    exact fun hlt => Nat.not_lt_zero _ (Nat.lt_of_lt_of_eq hlt (program.count_eq_zero hc))
  have h0 : s.vm.halted = 0 := by rw [hvm]; rfl
  exact ⟨_, Machine.reaches_of_next (enter_step hprompt hread), ⟨h0, .inl ⟨rfl, hfree _⟩⟩, hvm⟩

/-- The first `step` or `continue` of a script calls `wai_vm_step` on a machine that has no
code. -/
theorem calls_step_of_null {command : DebuggerCommand} (hc : program.code = none)
    (hin : InScript input command) (hcommand : command = .doStep ∨ command = .doContinue)
    (hprompt : AtPrompt s) (hinput : s.input = input) (hvm : s.vm = program.initialVm) :
    ∃ t, Reaches (debuggerStep program) s t ∧ CallsStep t ∧ t.vm = program.initialVm := by
  have h0 : ∀ {s : DebuggerState program.count}, s.vm = program.initialVm → s.vm.halted = 0 :=
    fun h => by rw [h]; rfl
  induction hin generalizing s with
  | here hread =>
    rw [← hinput] at hread
    rcases hcommand with rfl | rfl
    · exact ⟨s, Machine.reaches_refl s, ⟨h0 hvm, .inr ⟨hprompt, _, hread⟩⟩, hvm⟩
    · exact continue_calls hc hprompt hread hvm
  | @blank _ rest _ hread _ ih =>
    rw [← hinput] at hread
    obtain ⟨t, hreach, hcalls⟩ :=
      ih (s := { s.say [.prompt] with input := rest }) hcommand hprompt rfl hvm
    exact ⟨t, Machine.reaches_trans (Machine.reaches_of_next (prompt_blank hprompt hread)) hreach,
      hcalls⟩
  | @later _ rest first _ hread hquit _ ih =>
    rw [← hinput] at hread
    by_cases hstep : first = .doStep
    · subst hstep
      exact ⟨s, Machine.reaches_refl s, ⟨h0 hvm, .inr ⟨hprompt, _, hread⟩⟩, hvm⟩
    · by_cases hcont : first = .doContinue
      · subst hcont
        exact continue_calls hc hprompt hread hvm
      · have hfirst : debuggerStep program s = debuggerDispatch program (afterRead s first rest) first :=
          prompt_step hprompt hread
        cases hdispatch : debuggerDispatch program (afterRead s first rest) first with
        | done result =>
          rcases dispatch_done hdispatch with ⟨h, _⟩ | ⟨h, _⟩
          · exact absurd h hquit
          · exact absurd h hstep
        | next t =>
          obtain ⟨hprompt', hinput', _⟩ := Dispatch.prompt (s := afterRead s first rest) hprompt hcont
            (dispatch_cases hdispatch)
          have hvm' := vm_of_null (s := afterRead s first rest) hc hvm hdispatch
          obtain ⟨u, hreach, hcalls⟩ := ih hcommand hprompt' hinput' hvm'
          exact ⟨u, Machine.reaches_trans (Machine.reaches_of_next (hfirst.trans hdispatch)) hreach,
            hcalls⟩

/-- On a program without an array every `step` and every `continue` fails, and the debugger
returns `WAI_OK`. -/
theorem not_reports_of_null {command : DebuggerCommand} (hc : program.code = none)
    (hin : InScript input command) (hcommand : command = .doStep ∨ command = .doContinue) :
    ¬ ReportsFailures program input := by
  rintro ⟨hreturned, _⟩
  obtain ⟨s, hreach, hcalls, hvm⟩ :=
    calls_step_of_null (s := debuggerStart program input) hc hin hcommand rfl rfl rfl
  have hs : waiVmStep s.vm = .ok (.errParse, program.initialVm) := by
    rw [hvm]
    exact step_null hc
  -- `wai_vm_step` returns the error but records none in a machine without code
  obtain ⟨out, hround⟩ := @failed_round program _ _ _ hcalls hs nofun
  obtain ⟨out', hended⟩ := hreturned .errParse ⟨s, _, hreach, hcalls, hs, nofun⟩
  have hok := Machine.ends_of_reaches hreach (Machine.ends_of_done hround)
  cases Machine.ends_unique hok hended

end Failures

/-- The debugger reports the failures it sees exactly when the program has an array or the
script dispatches neither `step` nor `continue`. -/
theorem reports_failures_iff (program : OwnedProgram) (input : Text) :
    ReportsFailures program input ↔
      program.code ≠ none ∨
        ∀ command, InScript input command → command ≠ .doStep ∧ command ≠ .doContinue := by
  constructor
  · intro hreports
    by_contra hcond
    rw [not_or, not_not] at hcond
    obtain ⟨hc, hscript⟩ := hcond
    refine hscript fun command hin => ⟨?_, ?_⟩
    · rintro rfl
      exact not_reports_of_null hc hin (.inl rfl) hreports
    · rintro rfl
      exact not_reports_of_null hc hin (.inr rfl) hreports
  · rintro (hc | hscript)
    · obtain ⟨code, hcode⟩ := Option.ne_none_iff_exists'.mp hc
      exact reports_of_code hcode input
    · exact ⟨fun e h => absurd h (not_failed_of_script hscript e),
        fun _ _ e => not_failed_of_script hscript e⟩

/-- `step` on the program of an empty source: the call fails, and the debugger returns
`WAI_OK`. -/
theorem empty_program_failure :
    FailedStep waiProgramInit ['s', '\n'] .errParse ∧
    (∃ out, WaiDebuggerRun waiProgramInit true ['s', '\n'] (.returned .ok out)) ∧
    ¬ ReportsFailures waiProgramInit ['s', '\n'] :=
  ⟨⟨debuggerStart waiProgramInit ['s', '\n'], _, Machine.reaches_refl _,
      ⟨rfl, .inr ⟨rfl, [], rfl⟩⟩, rfl, nofun⟩,
    ⟨_, Machine.ends_of_done rfl⟩, not_reports_of_null rfl (.here rfl) (.inl rfl)⟩

end Waivm
