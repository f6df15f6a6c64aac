import Waivm.CliMain
import Waivm.VerifierAgreement

/-!
# The commands against each other

`run` executes a program in the engine, `debug` and `trace` in the stepper; `asm` has one validator, and
`verify` has another. The user sees their exit status.

Results:
1. `commands_agree`: the exit status of `run`, of `debug` on a single `continue`, and of `trace`, and what
   they print. An empty program passes in the debugger, and a long one fails in the trace, which prints the
   beginning only.
2. `asm_verify_agree`: `asm` takes the sources that `verify` accepts.
3. `asm_keeps_behaviour`: on the bytecode that `asm` writes, every command ends as on the source.
-/

namespace Waivm

open CString Printf
open LittleEndian (Byte)
open X86 (Reg Val)
open Machine (Outcome ReachesIn Reaches Ends)

/-! ## 1. Running, debugging and tracing -/

/-- The exit status of a command whose run ends with `status`. -/
def exitStatus : WaiErrorCode → CliStatus
  | .ok => .ok
  | _ => .err

section Executing
variable {program : OwnedProgram} {regs : Reg → Val Object} {vm vm' : WaiVm} {n : Nat}
  {status : WaiErrorCode} {s t : DebuggerState program.count}

/-- A run that finishes comes to no division of `INT64_MIN` by `-1`. -/
theorem not_divides_of_finishes (h : Finishes regs program.initialVm n status vm') :
    ¬ ReachesDivision program := by
  rintro ⟨vm, hreach, hdivides⟩
  obtain ⟨c, hends, _⟩ := finishes_ends h
  cases hc : program.code with
  | none =>
    obtain ⟨ins, hcur, _⟩ := hdivides
    cases (null_division hc (program.count_eq_zero hc) hreach).2.1.symm.trans hcur
  | some code =>
    have hlen : code.length ≤ maxInstructions := program.count_eq code hc ▸ program.count_le
    rw [program.initialVm_eq hc] at hreach hends
    obtain ⟨t, ht⟩ := (asm_trap_iff hlen (.init code) regs).mpr ⟨vm, hreach, hdivides⟩
    cases Machine.ends_unique hends ht

/-- The trace of a run that finishes. -/
theorem trace_of_finishes (h : Finishes regs program.initialVm n status vm') :
    ∃ status' lines, Ends (traceIteration program) (traceStart program) (.returned status' lines) ∧
      (n < waiTraceMaxSteps → status' = status ∧ printsOf lines = vm'.emitted) ∧
      (waiTraceMaxSteps ≤ n → status' = .errUnsupported ∧
        (∃ mid, Executed regs program.initialVm waiTraceMaxSteps mid ∧ printsOf lines = mid.emitted) ∧
        printsOf lines <+: vm'.emitted) := by
  have hdiv : ∀ vm, StepReach program.initialVm vm → ¬ DividesMinByMinusOne vm :=
    fun vm hreach hdivides => not_divides_of_finishes h ⟨vm, hreach, hdivides⟩
  obtain ⟨vm, hreach, hdone⟩ := (finishes_iff (initial_runnable program)).mp h
  obtain ⟨status', lines, hends, _, _, hresult⟩ :=
    trace_run hdiv (Nat.zero_add waiTraceMaxSteps) (traceStart_at program)
  refine ⟨status', lines, hends, ?_⟩
  rcases hresult with ⟨_, m, hm, vm₁, vm₂, hreach', hdone', hprints⟩ |
    ⟨hlimit, vm₁, hreach', hprints⟩
  · -- the trace has seen the end of the run
    obtain ⟨rfl, rfl, he⟩ := Machine.endsIn_unique hreach hdone hreach' hdone'
    cases he
    exact ⟨fun _ => ⟨rfl, hprints⟩, fun hge => absurd hm (Nat.not_lt.mpr hge)⟩
  · have hle := Machine.reachesIn_le_of_done hreach hdone hreach'
    refine ⟨fun hlt => absurd hlt (Nat.not_lt.mpr hle), fun _ => ⟨hlimit, ?_, ?_⟩⟩
    · exact ⟨vm₁, (executed_iff (initial_runnable program)).mpr hreach', hprints⟩
    · rw [hprints]
      exact emitted_prefix (initial_runnable program) hreach' hreach hdone

/-- In the loop of a single `continue` nothing is left of the input. -/
theorem continuing_input (h : DebuggerReaches program ['c', '\n'] s) (hs : s.continuing = true) :
    s.input = [] := by
  have hkeep : ∀ s t : DebuggerState program.count,
      (s.input = [] ∨ (s.input = ['c', '\n'] ∧ s.continuing = false)) →
      debuggerStep program s = .next t → t.input = [] := by
    intro s t hs hstep
    unfold debuggerStep at hstep
    split at hstep
    · next hcontinuing =>
      have hnil : s.input = [] :=
        hs.resolve_right fun h => Bool.false_ne_true (h.2.symm.trans hcontinuing)
      rcases continue_cases hstep with ⟨_, hnext⟩ | ⟨_, _, hnext⟩ | ⟨_, _, hexecutes⟩
      · cases hnext
        exact hnil
      · cases hnext
        exact hnil
      · obtain ⟨vm, _, rfl⟩ := doStep_next hexecutes
        exact hnil
    · unfold promptRound at hstep
      rcases hs with hnil | ⟨hinput, _⟩
      · rw [hnil] at hstep
        cases hstep
      · rw [hinput, read_continue] at hstep
        cases hstep
        rfl
  have hinput : s.input = [] ∨ (s.input = ['c', '\n'] ∧ s.continuing = false) :=
    Machine.reaches_invariant
      (I := fun s : DebuggerState program.count =>
        s.input = [] ∨ (s.input = ['c', '\n'] ∧ s.continuing = false))
      (fun s t hs hstep => .inl (hkeep s t hs hstep)) h (.inr ⟨rfl, rfl⟩)
  exact hinput.resolve_right fun h => Bool.false_ne_true (h.2.symm.trans hs)

/-- At the end of the input the debugger returns. -/
theorem prompt_end (hs : AtPrompt s) (hinput : s.input = []) :
    debuggerStep program s = .done (.returned .ok (s.out ++ [.prompt])) := by
  rw [debuggerStep, show s.continuing = false from hs, if_neg Bool.false_ne_true, promptRound, hinput]
  rfl

/-- The debugger passes the last machine of a run. -/
theorem debugger_at (h : Finishes regs program.initialVm n status vm') :
    ∃ s, Continuing program s ∧ s.input = [] ∧ s.vm.halted = 0 ∧
      ReachesIn instructionStep n program.initialVm s.vm ∧
      instructionStep s.vm = .done (.stopped status vm') := by
  obtain ⟨vm, hreach, hdone⟩ := (finishes_iff (initial_runnable program)).mp h
  have h0 : vm.halted = 0 := by
    cases n with
    | zero =>
      cases hreach
      rfl
    | succ n =>
      obtain ⟨vm₁, _, hlast⟩ := Machine.reachesIn_last hreach
      exact (engineStep_next (engineStep_of_instructionStep hlast)).2.2
  obtain ⟨s, hs, rfl⟩ := continuing_of_reaches hreach
  exact ⟨s, hs, continuing_input hs.reached hs.continuing, h0, hreach, hdone⟩

/-- On a single `continue` the debugger comes to a `HALT`, and to the end of its input. -/
theorem debugger_halts (h : Finishes regs program.initialVm n .ok vm') :
    ∃ out, WaiDebuggerRun program true ['c', '\n'] (.returned .ok out) ∧
      printedValues out = vm'.emitted := by
  obtain ⟨s, hs, hinput, h0, _, hdone⟩ := debugger_at h
  have hengine : engineStep s.vm = .done (.stopped .ok vm') := by
    unfold instructionStep at hdone
    split at hdone
    · cases hdone
    · exact hdone
  obtain ⟨hok, h1⟩ : StepOk s.vm vm' ∧ vm'.halted ≠ 0 := by
    rcases engineStep_stopped hengine with ⟨_, _, hne⟩ | ⟨hstep, hhalted⟩
    · exact absurd h0 hne
    · exact ⟨hstep, hhalted rfl⟩
  -- the round that executes `HALT`, the one that leaves the loop, and the prompt at the end
  have hfirst := (continue_executes hs.continuing h0 hs.atBreakpoint).trans (doStep_of_stepOk hok)
  generalize ht : ({ s with
    vm := vm'
    out := s.out ++ printedBy s.vm vm'
    executed := s.executed + 1 } : DebuggerState program.count) = t at hfirst
  have hvm : t.vm = vm' := by rw [← ht]
  have hcontinuing : t.continuing = true := by
    rw [← ht]
    exact hs.continuing
  have hsecond : debuggerStep program t = .next { t.say [.halted] with continuing := false } := by
    rw [continue_step hcontinuing, continueRound, if_pos (hvm.symm ▸ h1)]
  have hnil : t.input = [] := by
    rw [← ht]
    exact hinput
  have hthird := @prompt_end program { t.say [.halted] with continuing := false } rfl hnil
  have hreach : DebuggerReaches program ['c', '\n'] t := Machine.reaches_step hs.reached hfirst
  refine ⟨_, Machine.ends_of_reaches (Machine.reaches_step hreach hsecond)
    (Machine.ends_of_done hthird), ?_⟩
  show printedValues (t.out ++ [.halted] ++ [.prompt]) = _
  rw [printed_quiet _ rfl, printed_quiet _ rfl, (debugger_invariant hreach).printed, hvm]

/-- On a single `continue` the debugger returns the error of a run, but for a program without an
array: there the error is not recorded. -/
theorem debugger_fails (h : Finishes regs program.initialVm n status vm') (hne : status ≠ .ok) :
    ∃ out, WaiDebuggerRun program true ['c', '\n']
        (.returned (if program.code = none then .ok else status) out) ∧
      printedValues out = vm'.emitted := by
  obtain ⟨s, hs, _, h0, hreach, hdone⟩ := debugger_at h
  have hemitted := failed_emitted hreach hdone hne
  have hprinted := (debugger_invariant hs.reached).printed
  -- the round in which the call of `wai_vm_step` fails
  have hround : ∀ {error vm}, waiVmStep s.vm = .ok (error, vm) → error ≠ .ok →
      vm.emitted = s.vm.emitted →
      ∃ out, WaiDebuggerRun program true ['c', '\n'] (.returned vm.error out) ∧
        printedValues out = vm'.emitted := by
    intro error vm hstep herror hsame
    have hlast := (continue_executes hs.continuing h0 hs.atBreakpoint).trans
      (doStep_of_failed hstep herror)
    refine ⟨_, Machine.ends_of_reaches hs.reached (Machine.ends_of_done hlast), ?_⟩
    rw [printed_quiet _ rfl, printedValues_append, printedValues_printedBy, hsame,
      List.drop_length, List.append_nil, hprinted, hemitted]
  cases hc : program.code with
  | none =>
    have hvm : s.vm = program.initialVm := reached_null hc (debugger_invariant hs.reached).reached
    have hnull : s.vm.code = none := hvm ▸ hc
    obtain ⟨out, hends, hout⟩ := hround (step_null hnull) (by decide) rfl
    rw [hvm] at hends
    exact ⟨out, hends, hout⟩
  | some code =>
    obtain ⟨d, hinv⟩ := reached_machine hc (debugger_invariant hs.reached).reached
    rw [instructionStep_eq hinv.code_eq] at hdone
    rcases engineStep_stopped hdone with ⟨_, hok, _⟩ | ⟨hstep, _⟩
    · exact absurd hok hne
    · obtain ⟨out, hends, hout⟩ := hround hstep hne hemitted
      rw [error_recorded hc hs.reached hstep hne] at hends
      exact ⟨out, hends, hout⟩

end Executing

theorem debugEnd_returned (host : Host) (status : WaiErrorCode) (out : List DebuggerLine) :
    ∃ stderr, debugEnd host (.returned status out) =
      .exited (exitStatus status) (debuggerText out) stderr host.files := by
  cases status <;> exact ⟨_, rfl⟩

theorem traceEnd_returned (host : Host) (status : WaiErrorCode) (lines : List TraceLine) :
    ∃ stderr, traceEnd host (.returned status lines) =
      .exited (exitStatus status) (traceText lines) stderr host.files := by
  cases status <;> exact ⟨_, rfl⟩

/-- The file loads as a program whose run finishes after `n` instructions, and the debugger reads a
single `continue`. -/
structure FinishingFile (host : Host) (path : Text) (program : OwnedProgram) (n : Nat)
    (status : WaiErrorCode) (vm : WaiVm) : Prop where
  loads : ∃ info, loadProgramAuto host.load host.files path waiProgramInit (some zeroInfo) =
    (.ok, program, info)
  finishes : Finishes host.regs program.initialVm n status vm
  stdin : host.stdin = ['c', '\n']
  breakpoints : host.breakpoints = true

/-- `run` and `debug` print the same values, and `trace` prints them too below its limit. From there on it
prints those of the instructions up to the limit, and fails. `debug` exits as `run` does, but for a program
without an array, and so does `trace` below the limit. -/
theorem commands_agree {host : Host} {path : Text} {program : OwnedProgram} {n : Nat}
    {status : WaiErrorCode} {vm : WaiVm} (h : FinishingFile host path program n status vm)
    (name : Text) :
    (∃ stderr, waiCliMain host [name, ['r', 'u', 'n'], path]
      (.exited (exitStatus status) (printedText vm.emitted) stderr host.files)) ∧
    (∃ out stderr, waiCliMain host [name, ['d', 'e', 'b', 'u', 'g'], path]
        (.exited (if program.code = none then .ok else exitStatus status) (debuggerText out) stderr
          host.files) ∧
      printedValues out = vm.emitted) ∧
    ∃ lines stderr, waiCliMain host [name, ['t', 'r', 'a', 'c', 'e'], path]
        (.exited (if n < waiTraceMaxSteps then exitStatus status else .err) (traceText lines) stderr
          host.files) ∧
      (n < waiTraceMaxSteps → printsOf lines = vm.emitted) ∧
      (waiTraceMaxSteps ≤ n →
        (∃ mid, Executed host.regs program.initialVm waiTraceMaxSteps mid ∧
          printsOf lines = mid.emitted) ∧
        printsOf lines <+: vm.emitted) := by
  obtain ⟨⟨info, hload⟩, hfinishes, hstdin, hbreakpoints⟩ := h
  refine ⟨?_, ?_, ?_⟩
  · obtain ⟨c, hends, hcode, rfl⟩ := finishes_ends hfinishes
    show ∃ stderr, commandRun host path _
    unfold commandRun withProgram
    rw [hload]
    cases status <;> exact ⟨_, _, hends, congrArg (Option.map _) hcode⟩
  · show ∃ out stderr, commandDebug host path _ ∧ _
    unfold commandDebug withProgram
    rw [hload, hstdin, hbreakpoints]
    obtain ⟨out, hends, hout⟩ : ∃ out, WaiDebuggerRun program true ['c', '\n']
        (.returned (if program.code = none then .ok else status) out) ∧
        printedValues out = vm.emitted := by
      by_cases hok : status = .ok
      · subst hok
        rw [ite_self]
        exact debugger_halts hfinishes
      · exact debugger_fails hfinishes hok
    obtain ⟨stderr, he⟩ :=
      debugEnd_returned host (if program.code = none then .ok else status) out
    rw [apply_ite exitStatus] at he
    exact ⟨out, stderr, ⟨_, hends, he⟩, hout⟩
  · show ∃ lines stderr, commandTrace host path _ ∧ _
    unfold commandTrace withProgram
    rw [hload]
    obtain ⟨status', lines, hends, hbelow, hlimit⟩ := trace_of_finishes hfinishes
    obtain ⟨stderr, he⟩ := traceEnd_returned host status' lines
    refine ⟨lines, stderr, ⟨_, hends, he.trans ?_⟩, fun hn => (hbelow hn).2, fun hn => (hlimit hn).2⟩
    split
    · next hn => rw [(hbelow hn).1]
    · next hn => rw [(hlimit (Nat.not_lt.mp hn)).1]; rfl

/-- The host of `sourceHost`, with a single `continue` to read. -/
def continueHost (content : List Byte) : Host :=
  { sourceHost content with stdin := ['c', '\n'] }

/-- The source `print r0` and `halt`. -/
def printSource : List Byte :=
  [0x70, 0x72, 0x69, 0x6e, 0x74, 0x20, 0x72, 0x30, 0x0a] ++ haltSource

/-- The three commands print the zero in `r0`. -/
theorem commands_agree_print :
    (∃ stderr, waiCliMain (continueHost printSource) [['w'], ['r', 'u', 'n'], ['s']]
      (.exited .ok (printedText [0]) stderr (onlySource printSource))) ∧
    (∃ out stderr, waiCliMain (continueHost printSource) [['w'], ['d', 'e', 'b', 'u', 'g'], ['s']]
      (.exited .ok (debuggerText out) stderr (onlySource printSource)) ∧ printedValues out = [0]) ∧
    ∃ lines stderr, waiCliMain (continueHost printSource) [['w'], ['t', 'r', 'a', 'c', 'e'], ['s']]
      (.exited .ok (traceText lines) stderr (onlySource printSource)) ∧ printsOf lines = [0] := by
  have hcode : (loadedFrom printSource).code = some printHalt.instructions := by decide +kernel
  have hload : (loadProgramAuto .unlimited (onlySource printSource) ['s'] waiProgramInit
      (some zeroInfo)).1 = .ok := by decide +kernel
  obtain ⟨vm, hfinishes, hprinted⟩ : ∃ vm,
      Finishes (fun _ => .undef) (loadedFrom printSource).initialVm 1 .ok vm ∧ vm.emitted = [0] := by
    rw [(loadedFrom printSource).initialVm_eq hcode]
    exact ⟨_, (finishes_iff (initial_runnable printHalt)).mpr ⟨_, rfl, rfl⟩, rfl⟩
  have hfile : FinishingFile (continueHost printSource) ['s'] (loadedFrom printSource) 1 .ok vm :=
    ⟨⟨_, Prod.ext hload rfl⟩, hfinishes, rfl, rfl⟩
  obtain ⟨⟨_, hrun⟩, ⟨out, _, hdebug, hout⟩, lines, _, htrace, hlines, _⟩ := commands_agree hfile ['w']
  rw [hprinted] at hrun hout hlines
  have hsome : (loadedFrom printSource).code ≠ none := hcode ▸ Option.some_ne_none _
  rw [if_neg hsome] at hdebug
  have hbelow : 1 < waiTraceMaxSteps := by decide
  rw [if_pos hbelow] at htrace
  exact ⟨⟨_, hrun⟩, ⟨out, _, hdebug, hout⟩, lines, _, htrace, hlines hbelow⟩

/-! ## 2. Assembling and verifying -/

section Validators
variable {host : Host} {path : Text} {program : OwnedProgram}

/-- The two validators accept the same programs. -/
theorem verify_ok_iff_validate (program : OwnedProgram) :
    (waiVerifyProgram program.toWaiProgram).1 = .ok ↔ validateProgram program = .ok := by
  have hverdict : verdict (verifyFrom program.toWaiProgram 0 program.instructions) =
      validateProgram program := verdict_from
  rw [← hverdict]
  unfold waiVerifyProgram
  rw [if_neg program.not_null]
  cases verifyFrom program.toWaiProgram 0 program.instructions <;> exact Iff.rfl

/-- How `verify` exits on a file. -/
theorem verify_exits (host : Host) (name path : Text) :
    ∃ status stdout stderr, waiCliMain host [name, ['v', 'e', 'r', 'i', 'f', 'y'], path]
        (.exited status stdout stderr host.files) ∧
      (status = .ok ↔ ∃ program info, loadProgramAuto host.load host.files path waiProgramInit
        (some zeroInfo) = (.ok, program, info) ∧ validateProgram program = .ok) := by
  show ∃ status stdout stderr, commandVerify host path _ ∧ _
  unfold commandVerify withProgram
  cases hload : loadProgramAuto host.load host.files path waiProgramInit (some zeroInfo) with
  | mk loaded rest =>
    obtain ⟨program, info⟩ := rest
    cases loaded with
    | err => exact ⟨_, _, _, rfl, nofun, nofun⟩
    | ok =>
      have hvalid := verify_ok_iff_validate program
      simp only
      generalize waiVerifyProgram program.toWaiProgram = verified at hvalid ⊢
      obtain ⟨status, report⟩ := verified
      cases status with
      | ok => exact ⟨_, _, _, rfl, fun _ => ⟨program, info, rfl, hvalid.mp rfl⟩, fun _ => rfl⟩
      | _ =>
        refine ⟨_, _, _, rfl, nofun, ?_⟩
        rintro ⟨_, _, ⟨⟩, hok⟩
        cases hvalid.mpr hok

/-- What the assembler makes of the file. -/
def assembledFile (host : Host) (path : Text) : WaiAssemblerResult × OwnedProgram :=
  waiAssembleFile host.load.assembler (host.files path) waiProgramInit

/-- What is assembled can be written. -/
def WritesOut (host : Host) (path : Text) : Prop :=
  host.write.Permits (encodeProgram (assembledFile host path).2).length

/-- How `asm` exits. -/
theorem asm_exits (host : Host) (name input output : Text) :
    ∃ status stderr files, waiCliMain host [name, ['a', 's', 'm'], input, ['-', 'o'], output]
        (.exited status [] stderr files) ∧
      (status = .ok ↔ ((assembledFile host input).1.error = .ok ∧
        validateProgram (assembledFile host input).2 = .ok) ∧ WritesOut host input) := by
  show ∃ status stderr files, _ = commandAsmEnd host _ ∧ _
  unfold commandAsmEnd assembledFile WritesOut assembledFile
  simp only
  rw [if_neg (not_not.mpr rfl)]
  generalize waiAssembleFile host.load.assembler (host.files input) waiProgramInit = assembly
  by_cases hassembled : assembly.1.error = .ok
  · rw [if_neg (not_not.mpr hassembled)]
    cases hwrite : waiBytecodeWriteFile host.write (host.files output) assembly.2 with
    | mk written content =>
      have hok : waiBytecodeWriteFile host.write (host.files output) assembly.2 = (.ok, content) ↔ _ :=
        write_ok_iff
      rw [hwrite] at hok
      cases written with
      | ok =>
        obtain ⟨hvalid, hio, _⟩ := hok.mp rfl
        exact ⟨_, _, _, rfl, fun _ => ⟨⟨hassembled, hvalid⟩, hio⟩, fun _ => rfl⟩
      | _ =>
        refine ⟨_, _, _, rfl, nofun, ?_⟩
        rintro ⟨⟨_, hvalid⟩, hio⟩
        cases hwrite.symm.trans (write_ok_iff.mpr ⟨hvalid, hio, rfl⟩)
  · rw [if_pos hassembled]
    exact ⟨_, _, _, rfl, nofun, fun h => absurd h.1.1 hassembled⟩

/-- A file without the magic is a source. -/
theorem load_of_source (hmagic : ¬ ∃ rest, host.files path = some (waiBytecodeMagic ++ rest)) :
    loadProgramAuto host.load host.files path waiProgramInit (some zeroInfo) =
      (if (assembledFile host path).1.error ≠ .ok then .err else .ok, (assembledFile host path).2,
        some zeroInfo) := by
  rw [loadProgramAuto, if_neg (hasWaibcMagic_iff.not.mpr hmagic), assembledFile]
  simp only
  by_cases hok : (waiAssembleFile host.load.assembler (host.files path) waiProgramInit).1.error = .ok
  · rw [if_neg (not_not.mpr hok), if_neg (not_not.mpr hok)]
    rfl
  · rw [if_pos hok, if_pos hok]

/-- `asm` takes the sources that `verify` accepts, when it can write the file. -/
theorem asm_verify_agree (host : Host) (name input output : Text)
    (hmagic : ¬ ∃ rest, host.files input = some (waiBytecodeMagic ++ rest)) :
    ∃ assembled verified stdout stderr stderr' files,
      waiCliMain host [name, ['a', 's', 'm'], input, ['-', 'o'], output]
        (.exited assembled [] stderr files) ∧
      waiCliMain host [name, ['v', 'e', 'r', 'i', 'f', 'y'], input]
        (.exited verified stdout stderr' host.files) ∧
      (assembled = .ok ↔ verified = .ok ∧ WritesOut host input) := by
  obtain ⟨assembled, stderr, files, hasm, hassembled⟩ := asm_exits host name input output
  obtain ⟨verified, stdout, stderr', hverify, hverified⟩ := verify_exits host name input
  refine ⟨assembled, verified, stdout, stderr, stderr', files, hasm, hverify, ?_⟩
  rw [hassembled, hverified, load_of_source hmagic]
  refine and_congr_left' ⟨?_, ?_⟩
  · rintro ⟨hok, hvalid⟩
    exact ⟨_, _, by rw [if_neg (not_not.mpr hok)], hvalid⟩
  · rintro ⟨program, info, hload, hvalid⟩
    split at hload
    · cases hload
    · next hok =>
      cases hload
      exact ⟨not_not.mp hok, hvalid⟩

/-- `verify` accepts the source `halt`, because `asm` writes it. -/
theorem asm_verify_agree_halt : ∃ stdout stderr,
    waiCliMain (sourceHost haltSource) [['w'], ['v', 'e', 'r', 'i', 'f', 'y'], ['s']]
      (.exited .ok stdout stderr (onlySource haltSource)) := by
  have hmagic : ¬ ∃ rest, (sourceHost haltSource).files ['s'] = some (waiBytecodeMagic ++ rest) := by
    rintro ⟨rest, h⟩
    cases h
  obtain ⟨assembled, verified, stdout, _, stderr, _, hasm, hverify, hiff⟩ :=
    asm_verify_agree (sourceHost haltSource) ['w'] ['s'] ['b'] hmagic
  have hok : assembled = .ok := by
    have hstatus : (commandAsm .unlimited (.perfect 100) (onlySource haltSource)
        [['w'], ['a', 's', 'm'], ['s'], ['-', 'o'], ['b']]).1 = .ok := by decide +kernel
    obtain ⟨_, hend, _⟩ := commandAsm_end (sourceHost haltSource)
      [['w'], ['a', 's', 'm'], ['s'], ['-', 'o'], ['b']]
    cases hasm.trans hend
    exact hstatus
  obtain ⟨rfl, _⟩ := hiff.mp hok
  exact ⟨stdout, stderr, hverify⟩

end Validators

/-! ## 3. The source and its bytecode -/

/-- No array is allocated for no instruction. -/
def ArrayHolds (program : OwnedProgram) : Prop :=
  program.code ≠ some []

section Arrays
variable {alloc : AssemblerAlloc} {state state' : AssemblyState}

theorem push_array {allocates : Nat → Bool} {program program' : OwnedProgram} {ins : WaiInstruction}
    (h : waiProgramPush allocates program ins = (.ok, program')) : ArrayHolds program' := by
  have happend : ∀ capacity hroom hcap, ArrayHolds (program.append ins capacity hroom hcap) :=
    fun _ _ _ hempty => List.append_ne_nil_of_right_ne_nil _ (List.cons_ne_nil _ _)
      (Option.some.inj hempty)
  unfold waiProgramPush at h
  split at h
  · split at h
    · cases h
    · split at h
      · cases h
      · split at h
        · cases h
        · cases h
          exact happend _ _ _
  · cases h
    exact happend _ _ _

theorem line_array {lineNumber : Nat} {rawLine : Text} (hstate : ArrayHolds state.program)
    (h : assembleLine alloc state lineNumber rawLine = .ok state') : ArrayHolds state'.program := by
  rcases assembleLine_cases alloc state lineNumber rawLine with
    ⟨_, hsame⟩ | ⟨item, _, hadd⟩ | ⟨_, _, hbad⟩
  · cases h.symm.trans hsame
    exact hstate
  · rw [h] at hadd
    cases item with
    | label name =>
      rw [addItem] at hadd
      split at hadd <;> cases hadd
      exact hstate
    | instruction instr target =>
      rw [addItem] at hadd
      split at hadd
      · cases hadd
      · split at hadd <;> cases hadd
        next hpush => exact push_array hpush
  · rw [h] at hbad
    cases hbad

theorem lines_array {lineNumber : Nat} {rawLines : List Text} (hstate : ArrayHolds state.program)
    (h : assembleLines alloc lineNumber state rawLines = .ok state') : ArrayHolds state'.program := by
  induction rawLines generalizing lineNumber state with
  | nil =>
    cases h
    exact hstate
  | cons rawLine rest ih =>
    rw [assembleLines] at h
    split at h
    · cases h
    · next next hline => exact ih (line_array hstate hline) h

theorem resolve_array {labels : List LabelDef} {program program' : OwnedProgram}
    {pending : List PendingRef} (hprogram : ArrayHolds program)
    (h : resolvePending labels program pending = .ok program') : ArrayHolds program' := by
  induction pending generalizing program with
  | nil =>
    cases h
    exact hprogram
  | cons ref rest ih =>
    rw [resolvePending] at h
    split at h
    · cases h
    · split at h
      · cases h
      · refine ih (fun hempty => ?_) h
        obtain ⟨code, hcode, hnil⟩ := Option.map_eq_some_iff.mp hempty
        exact hprogram (hcode.trans (congrArg some (List.modify_eq_nil_iff.mp hnil)))

theorem source_array (alloc : AssemblerAlloc) (source : Text) :
    ArrayHolds (waiAssembleSource alloc source).2 := by
  have hinit : ArrayHolds waiProgramInit := nofun
  unfold waiAssembleSource
  split
  · exact hinit
  · split
    · exact hinit
    · next state hlines =>
      split
      · exact hinit
      · next program hresolve => exact resolve_array (lines_array hinit hlines) hresolve

end Arrays

section Capacity
variable (program : OwnedProgram) (capacity : Nat) (hnull : program.code = none → capacity = 0)
  (hle : program.count ≤ capacity) (hmax : capacity ≤ maxInstructions)

theorem array_length : ∀ l, program.code = some l → program.count = l.length :=
  program.count_eq

theorem array_le : program.count ≤ maxInstructions :=
  program.count_le

/-- The program in an array of another size. -/
def OwnedProgram.withCapacity : OwnedProgram where
  code := program.code
  count := program.count
  capacity := capacity
  count_eq := array_length program
  count_le := array_le program
  null_empty := hnull
  count_le_capacity := hle
  capacity_le := hmax

theorem verify_capacity : waiVerifyProgram (program.withCapacity capacity hnull hle hmax).toWaiProgram =
    waiVerifyProgram program.toWaiProgram := by
  have hfrom : ∀ ip l, verifyFrom (program.withCapacity capacity hnull hle hmax).toWaiProgram ip l =
      verifyFrom program.toWaiProgram ip l := by
    intro ip l
    induction l generalizing ip with
    | nil => rfl
    | cons ins rest ih =>
      rw [verifyFrom, verifyFrom, ih]
      rfl
  unfold waiVerifyProgram
  rw [hfrom]
  rfl

theorem dispatch_capacity (s : DebuggerState program.count) (command : DebuggerCommand) :
    debuggerDispatch (program.withCapacity capacity hnull hle hmax) s command =
      debuggerDispatch program s command := by
  have hbreak : ∀ arg value line,
      setBreakpoint (program.withCapacity capacity hnull hle hmax) s arg value line =
        setBreakpoint program s arg value line := by
    intro arg value line
    have hcount : parseIndex arg (program.withCapacity capacity hnull hle hmax).count =
        parseIndex arg program.count := rfl
    unfold setBreakpoint
    rw [hcount]
    cases parseIndex arg program.count <;> rfl
  have hstep : doStep (program.withCapacity capacity hnull hle hmax) s = doStep program s := by
    unfold doStep
    rcases waiVmStep s.vm with f | ⟨status, vm⟩
    · rfl
    · cases status <;> rfl
  cases command with
  | doStep =>
    unfold debuggerDispatch
    simp only [hstep]
    split
    · rfl
    · cases doStep program s <;> rfl
  | doBreak arg => exact congrArg Outcome.next (hbreak arg true .breakpointSet)
  | doClear arg => exact congrArg Outcome.next (hbreak arg false .breakpointCleared)
  | _ => rfl

theorem debugger_capacity {alloc : Bool} {input : Text} {r : DebuggerEnd} :
    WaiDebuggerRun (program.withCapacity capacity hnull hle hmax) alloc input r ↔
      WaiDebuggerRun program alloc input r := by
  have hstep : debuggerStep (program.withCapacity capacity hnull hle hmax) = debuggerStep program := by
    funext s
    unfold debuggerStep promptRound
    split
    · rfl
    · rcases readCommand s.input with _ | ⟨_ | command, input⟩
      · rfl
      · rfl
      · exact dispatch_capacity program capacity hnull hle hmax _ command
  unfold WaiDebuggerRun
  rw [hstep]
  rfl

theorem eq_withCapacity {program program' : OwnedProgram} (hcode : program'.code = program.code)
    (hcount : program'.count = program.count) : ∃ hnull hle hmax,
      program' = program.withCapacity program'.capacity hnull hle hmax := by
  obtain ⟨⟨code, count, capacity, _, _⟩, _, _, _⟩ := program
  obtain ⟨⟨code', count', capacity', _, _⟩, hnull, hle, hmax⟩ := program'
  cases hcode
  cases hcount
  exact ⟨hnull, hle, hmax, rfl⟩

end Capacity

theorem ofArray_code {program : OwnedProgram} (harray : ArrayHolds program)
    (hlen : program.instructions.length ≤ maxInstructions) :
    (OwnedProgram.ofArray program.instructions hlen).code = program.code := by
  show (if program.instructions = [] then none else some program.instructions) = program.code
  unfold WaiProgram.instructions
  cases hcode : program.code with
  | none => rfl
  | some code => exact if_neg fun hnil => harray (hcode.trans (congrArg some hnil))

/-- The same end, over other files. -/
def ProcessEnd.inFiles (files : FileSystem) : ProcessEnd → ProcessEnd
  | .exited status stdout stderr _ => .exited status stdout stderr files
  | .killed => .killed
  | .outOfBounds => .outOfBounds

/-- The commands that load a program. -/
def loadingCommands : List Text :=
  [['r', 'u', 'n'], ['d', 'i', 's'], ['d', 'e', 'b', 'u', 'g'], ['t', 'r', 'a', 'c', 'e'],
    ['v', 'e', 'r', 'i', 'f', 'y']]

section Behaviour
variable {host : Host} {files : FileSystem}

theorem runEnd_inFiles (r : AsmEnd) :
    runEnd { host with files := files } r = (runEnd host r).map (ProcessEnd.inFiles files) := by
  cases r with
  | trapped t => cases t <;> rfl
  | returned c =>
    show (waiVmExecute c).map _ = ((waiVmExecute c).map _).map _
    cases waiVmExecute c with
    | none => rfl
    | some status => cases status <;> rfl

theorem debugEnd_inFiles (r : DebuggerEnd) :
    debugEnd { host with files := files } r = (debugEnd host r).inFiles files := by
  cases r with
  | fault f => cases f <;> rfl
  | returned status out => cases status <;> rfl

theorem traceEnd_inFiles (r : TraceEnd) :
    traceEnd { host with files := files } r = (traceEnd host r).inFiles files := by
  cases r with
  | fault f => cases f <;> rfl
  | returned status lines => cases status <;> rfl

/-- What a command does depends neither on the size of the array nor on the files. -/
def Portable (command : Host → OwnedProgram → ProcessEnd → Prop) : Prop :=
  ∀ host files (program : OwnedProgram) capacity hnull hle hmax e,
    command { host with files := files } (program.withCapacity capacity hnull hle hmax) e ↔
      ∃ e', command host program e' ∧ e = e'.inFiles files

theorem portable_run : Portable fun host program e => ∃ r,
    Ends asmStep (asmEntry host.regs program.initialVm) r ∧ runEnd host r = some e := by
  intro host files program capacity hnull hle hmax e
  constructor
  · rintro ⟨r, hr, he⟩
    obtain ⟨e', he', rfl⟩ := Option.map_eq_some_iff.mp ((runEnd_inFiles r).symm.trans he)
    exact ⟨e', ⟨r, hr, he'⟩, rfl⟩
  · rintro ⟨_, ⟨r, hr, he⟩, rfl⟩
    exact ⟨r, hr, (runEnd_inFiles r).trans (congrArg (Option.map _) he)⟩

theorem portable_dis : Portable fun host program e =>
    e = host.succeeds (waiDisassembleProgram program.toWaiProgram) := by
  intro host files program capacity hnull hle hmax e
  exact ⟨fun he => ⟨_, rfl, he⟩, fun ⟨_, he', he⟩ => he.trans (congrArg _ he')⟩

theorem portable_debug : Portable fun host program e => ∃ r,
    WaiDebuggerRun program host.breakpoints host.stdin r ∧ debugEnd host r = e := by
  intro host files program capacity hnull hle hmax e
  constructor
  · rintro ⟨r, hr, he⟩
    exact ⟨_, ⟨r, (debugger_capacity _ _ hnull hle hmax).mp hr, rfl⟩,
      he.symm.trans (debugEnd_inFiles r)⟩
  · rintro ⟨_, ⟨r, hr, rfl⟩, rfl⟩
    exact ⟨r, (debugger_capacity _ _ hnull hle hmax).mpr hr, debugEnd_inFiles r⟩

theorem portable_trace : Portable fun host program e => ∃ r,
    Ends (traceIteration program) (traceStart program) r ∧ traceEnd host r = e := by
  intro host files program capacity hnull hle hmax e
  constructor
  · rintro ⟨r, hr, he⟩
    exact ⟨_, ⟨r, hr, rfl⟩, he.symm.trans (traceEnd_inFiles r)⟩
  · rintro ⟨_, ⟨r, hr, rfl⟩, rfl⟩
    exact ⟨r, hr, traceEnd_inFiles r⟩

theorem portable_verify : Portable fun host program e => e =
    match waiVerifyProgram program.toWaiProgram with
    | (.ok, report) =>
      host.succeeds ("verify: ok - ".toList ++ report.message.toList ++ ['\n'])
    | (status, report) => host.fails [] (verifyMessage status report) := by
  intro host files program capacity hnull hle hmax e
  simp only
  rw [verify_capacity]
  generalize waiVerifyProgram program.toWaiProgram = verified
  obtain ⟨status, report⟩ := verified
  cases status <;> exact ⟨fun he => ⟨_, rfl, he⟩, fun ⟨_, he', he⟩ => he.trans (congrArg _ he')⟩

/-- What `asm` writes behaves as the source that it was made from: the commands that load a program end
in the same way on both. -/
theorem asm_keeps_behaviour {name input output stdout stderr : Text} (hload : host.load.Grants)
    (hmagic : ¬ ∃ rest, host.files input = some (waiBytecodeMagic ++ rest))
    (hasm : waiCliMain host [name, ['a', 's', 'm'], input, ['-', 'o'], output]
      (.exited .ok stdout stderr files)) :
    ∀ command ∈ loadingCommands, ∀ e,
      waiCliMain { host with files := files } [name, command, output] e ↔
        ∃ e', waiCliMain host [name, command, input] e' ∧ e = e'.inFiles files := by
  obtain ⟨stderr', hend, _⟩ :=
    commandAsm_end host [name, ['a', 's', 'm'], input, ['-', 'o'], output]
  have hwritten : commandAsm host.load.assembler host.write host.files
      [name, ['a', 's', 'm'], input, ['-', 'o'], output] = (.ok, files) := by
    injection hasm.trans hend with hstatus _ _ hfiles
    exact Prod.ext hstatus.symm hfiles.symm
  obtain ⟨content, hcontent, hok, hvalid, hfiles⟩ := commandAsm_ok hwritten
  have hplain : waiFileHasWaibcMagic (some content) = false := by
    rw [← Bool.not_eq_true, hasWaibcMagic_iff, ← hcontent]
    exact hmagic
  have hsource : loadProgramAuto host.load host.files input waiProgramInit (some zeroInfo) = _ :=
    load_source hload hcontent hplain hok
  have harray := source_array host.load.assembler (textOf content)
  generalize (waiAssembleSource host.load.assembler (textOf content)).2 = program
    at hvalid hfiles hsource harray
  -- the reader allocates an array of another size
  obtain ⟨hnull, hle, hmax, hbytecode⟩ :=
    eq_withCapacity (ofArray_code harray program.length_le) program.count_eq_length.symm
  have hread : waiBytecodeReadFile host.load.code (some (encodeProgram program)) waiProgramInit
      (some zeroInfo) = _ := read_encodeProgram (hload.code program.count) hvalid
  rw [hbytecode] at hread
  have hmagic' : waiFileHasWaibcMagic (files output) = true := by
    rw [hfiles, Function.update_self]
    exact hasWaibcMagic_iff.mpr ⟨_, rfl⟩
  have hloads : ∀ command, Portable command → ∀ e,
      withProgram { host with files := files } output (command { host with files := files }) e ↔
        ∃ e', withProgram host input (command host) e' ∧ e = e'.inFiles files := by
    intro command hportable e
    unfold withProgram
    rw [hsource]
    simp only [loadProgramAuto, if_pos hmagic']
    rw [hfiles, Function.update_self, hread]
    exact hportable host _ program _ hnull hle hmax e
  intro command hcommand
  simp only [loadingCommands, List.mem_cons, List.not_mem_nil, or_false] at hcommand
  rcases hcommand with rfl | rfl | rfl | rfl | rfl
  · exact hloads _ portable_run
  · exact hloads _ portable_dis
  · exact hloads _ portable_debug
  · exact hloads _ portable_trace
  · exact hloads _ portable_verify

end Behaviour

/-- The bytecode of the source `halt` is disassembled as the source is. -/
theorem asm_keeps_behaviour_halt : ∃ e,
    waiCliMain (sourceHost haltSource) [['w', 'a', 'i', 'v', 'm'], ['d', 'i', 's'], ['s']] e ∧
    waiCliMain { sourceHost haltSource with files := afterAsm haltSource }
      [['w', 'a', 'i', 'v', 'm'], ['d', 'i', 's'], ['b']] (e.inFiles (afterAsm haltSource)) := by
  have hmagic : ¬ ∃ rest, (sourceHost haltSource).files ['s'] = some (waiBytecodeMagic ++ rest) := by
    rintro ⟨rest, h⟩
    cases h
  have hstatus : (commandAsm .unlimited (.perfect 100) (onlySource haltSource) asmArguments).1 =
      .ok := by decide +kernel
  obtain ⟨stderr, hend, _⟩ := commandAsm_end (sourceHost haltSource) asmArguments
  have hasm : waiCliMain (sourceHost haltSource) asmArguments
      (.exited .ok [] stderr (afterAsm haltSource)) := hstatus ▸ hend.symm
  have hsame := asm_keeps_behaviour ⟨AssemblerAlloc.unlimited_grants, fun _ => rfl⟩ hmagic hasm
    ['d', 'i', 's'] (by decide)
  obtain ⟨e, he⟩ : ∃ e, withProgram (sourceHost haltSource) ['s']
      (fun program e => e = (sourceHost haltSource).succeeds
        (waiDisassembleProgram program.toWaiProgram)) e := by
    unfold withProgram
    split <;> exact ⟨_, rfl⟩
  exact ⟨e, he, (hsame _).mpr ⟨e, he, rfl⟩⟩

end Waivm
