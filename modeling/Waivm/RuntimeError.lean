import Waivm.Cli
import Waivm.DebuggerErrors

/-!
# Where a runtime error is reported

The engine moves `ip` behind an instruction before it looks at the operands.
`command_run` reads `ip` after the run has failed, the debugger before each
step.

Results:
1. `failed_ip`: where `ip` points after a failure.
2. `debugger_reports`: on a single `continue` the debugger reports the
   instruction that fails.
3. `names_failure_iff`: `command_run` does so exactly when execution fell off
   the end of the code.
-/

namespace Waivm

open CString
open X86 (Reg Val)
open LittleEndian (Byte)
open Machine (Outcome ReachesIn Reaches Ends)

/-- The message `runtime error at ip=%llu: %s`. -/
structure RuntimeError where
  ip : BitVec 64
  error : WaiErrorCode

/-- `command_run`: the status, and the message about a run that failed. The engine is called with
the registers `regs`. -/
inductive CommandRun (alloc : LoadAlloc) (fs : FileSystem) (regs : Reg → Val Object) (path : Text) :
    CliStatus → Option RuntimeError → Prop
  -- `program` and `info` are not initialised; nothing reads them before they are set
  | notLoaded :
      (loadProgramAuto alloc fs path waiProgramInit (some zeroInfo)).1 = .err →
      CommandRun alloc fs regs path .err none
  | finished {program : OwnedProgram} {info : Option WaiBytecodeInfo} {c : AsmState} :
      loadProgramAuto alloc fs path waiProgramInit (some zeroInfo) = (.ok, program, info) →
      Ends asmStep (asmEntry regs program.initialVm) (.returned c) →
      waiVmExecute c = some .ok →
      CommandRun alloc fs regs path .ok none
  | failed {program : OwnedProgram} {info : Option WaiBytecodeInfo} {c : AsmState}
      {execution : WaiErrorCode} :
      loadProgramAuto alloc fs path waiProgramInit (some zeroInfo) = (.ok, program, info) →
      Ends asmStep (asmEntry regs program.initialVm) (.returned c) →
      waiVmExecute c = some execution → execution ≠ .ok →
      CommandRun alloc fs regs path .err (some ⟨c.mem.ip, execution⟩)

/-- The run of `program` executes instructions until the machine is `vm`, and the next one fails
with `status`. -/
def FailsAt (regs : Reg → Val Object) (program : OwnedProgram) (vm : WaiVm)
    (status : WaiErrorCode) : Prop :=
  status ≠ .ok ∧ ∃ n vm', Executed regs program.initialVm n vm ∧
    Finishes regs program.initialVm n status vm'

/-- The index of the instruction that `vm` executes next, or the number of instructions where
`ip` is behind the last of them. -/
def WaiVm.failingIndex (vm : WaiVm) : BitVec 64 :=
  if vm.codeCount ≤ vm.ip then vm.codeCount else vm.ip

/-- The run of the debugger on `input` ends with the message that an error occurred at `ip`. -/
def DebuggerReports (program : OwnedProgram) (input : Text) (ip : BitVec 64) : Prop :=
  ∃ status out error, WaiDebuggerRun program true input
    (.returned status (out ++ [.runtimeError ip error]))

/-- `report` names the instruction at which the run of `program` failed, and so does the debugger
on a single `continue`. -/
def NamesFailure (regs : Reg → Val Object) (program : OwnedProgram) (report : RuntimeError) :
    Prop :=
  ∃ vm, FailsAt regs program vm report.error ∧ report.ip = vm.failingIndex ∧
    DebuggerReports program ['c', '\n'] report.ip

section Failures
variable {regs : Reg → Val Object} {program : OwnedProgram} {vm vm' : WaiVm} {n : Nat}
  {status : WaiErrorCode}

/-! ## 1. The machine after a failure -/

theorem finishes_ends (h : Finishes regs vm n status vm') :
    ∃ c, Ends asmStep (asmEntry regs vm) (.returned c) ∧ waiVmExecute c = some status ∧
      c.mem = vm' := by
  obtain ⟨c, c', ⟨heads, _, hpath⟩, hsegment, hcode, hmem⟩ := h
  exact ⟨c', Machine.ends_of_reaches (Machine.path_reaches hpath) hsegment.ends, hcode, hmem⟩

theorem reached_ip_le (h : ReachesIn instructionStep n program.initialVm vm) :
    vm.ip ≤ vm.codeCount := by
  cases hc : program.code with
  | none =>
    cases n with
    | zero =>
      cases h
      exact Nat.zero_le _
    | succ n =>
      unfold ReachesIn at h
      rw [Machine.run_done (instructionStep_past_end rfl (past_end_of_null hc))] at h
      cases h
  | some code =>
    have hreach := stepReach_of_reachesIn h
    rw [program.initialVm_eq hc] at hreach
    obtain ⟨d, hinv⟩ := invariant_reach (program.length_lt hc) hreach
    exact hinv.ip_le

/-- An instruction that fails leaves `ip` behind itself. -/
theorem effect_failed_ip {ins : WaiInstruction} (he : Effect vm ins status vm')
    (hne : status ≠ .ok) : vm'.ip = vm.ip := by
  cases he with
  | badRegister | divZero | badShift | badJump | badReturn | memoryOob | stackOverflow
  | stackUnderflow | badOpcode => rfl
  | _ => exact absurd rfl hne

theorem not_halted_of_failed (hs : instructionStep vm = .done (.stopped status vm'))
    (hne : status ≠ .ok) : vm.halted = 0 := by
  by_contra h1
  rw [instructionStep, if_neg fun h => h1 h.1, engineStep, if_pos h1] at hs
  cases hs
  exact hne rfl

/-- After a failure behind the code `ip` is still there; after one at an instruction it is behind
that instruction. -/
theorem failed_ip (h : ReachesIn instructionStep n program.initialVm vm)
    (hs : instructionStep vm = .done (.stopped status vm')) (hne : status ≠ .ok) :
    (vm.ip = vm.codeCount ∧ vm'.ip = vm.ip) ∨ (vm.ip < vm.codeCount ∧ vm'.ip = vm.ip + 1) := by
  have h0 := not_halted_of_failed hs hne
  rcases reached_cases h h0 with ⟨hge, _⟩ | ⟨d, ins, hinv, hget, hcur, hlt⟩
  · -- behind the code the error is raised before anything is fetched
    rw [instructionStep_past_end h0 hge] at hs
    cases hs
    exact .inl ⟨BitVec.le_antisymm (reached_ip_le h) hge, rfl⟩
  · have hc := hinv.code_eq
    have hlen : program.instructions.length < 2 ^ 64 :=
      Nat.lt_of_le_of_lt program.length_le maxInstructions_lt
    rw [instructionStep_eq hc] at hs
    rcases engineStep_done hlen hinv hs with ⟨hok, _⟩ | ⟨_, _, _, hstep⟩
    · exact absurd hok hne
    · -- fetching advanced `ip`, and the instruction that failed did not change it
      obtain ⟨_, he⟩ := current_step hlen hinv hcur
      have heffect : Effect vm.fetched ins status vm' :=
        switch_effect hinv.sp_le (he.symm.trans hstep)
      exact .inr ⟨hlt, effect_failed_ip heffect hne⟩

/-- The failing run in terms of the abstract machine. -/
theorem fails_cases (h : FailsAt regs program vm status) :
    ∃ n vm', Finishes regs program.initialVm n status vm' ∧
      ReachesIn instructionStep n program.initialVm vm ∧
      instructionStep vm = .done (.stopped status vm') := by
  obtain ⟨_, n, vm', hexecuted, hfinishes⟩ := h
  have hreach := (executed_iff (initial_runnable program)).mp hexecuted
  obtain ⟨vm₁, hreach₁, hdone⟩ := (finishes_iff (initial_runnable program)).mp hfinishes
  cases hreach.symm.trans hreach₁
  exact ⟨n, vm', hfinishes, hreach, hdone⟩

/-- The run of `command_run` fails at some instruction, and `ip` is read from the machine that
this instruction leaves. -/
theorem fails_of_ends {c : AsmState} (hends : Ends asmStep (asmEntry regs program.initialVm) (.returned c))
    (hcode : waiVmExecute c = some status) (hne : status ≠ .ok) :
    ∃ vm, FailsAt regs program vm status := by
  obtain ⟨n, vm, status', hreach, hdone⟩ := returned_cases (initial_runnable program) hends
  have hfinishes : Finishes regs program.initialVm n status' c.mem :=
    (finishes_iff (initial_runnable program)).mpr ⟨vm, hreach, hdone⟩
  obtain ⟨c', hends', hcode', _⟩ := finishes_ends hfinishes
  cases Machine.ends_unique hends hends'
  cases hcode.symm.trans hcode'
  exact ⟨vm, hne, n, c.mem, (executed_iff (initial_runnable program)).mpr hreach, hfinishes⟩

/-! ## 2. The debugger on a single `continue` -/

/-- The state of the debugger in the loop of a `continue` without breakpoints. -/
structure Continuing (program : OwnedProgram) (s : DebuggerState program.count) : Prop where
  reached : DebuggerReaches program ['c', '\n'] s
  continuing : s.continuing = true
  free : s.breakpoints = fun _ => false

theorem Continuing.atBreakpoint {s : DebuggerState program.count} (h : Continuing program s) :
    s.atBreakpoint = false := by
  rw [DebuggerState.atBreakpoint, h.free]
  split <;> rfl

/-- The debugger comes by every machine that the run of the program comes by. -/
theorem continuing_of_reaches (h : ReachesIn instructionStep n program.initialVm vm) :
    ∃ s, Continuing program s ∧ s.vm = vm := by
  induction n generalizing vm with
  | zero =>
    cases h
    have henter : debuggerStep program (debuggerStart program ['c', '\n']) =
        .next (enterContinue (debuggerStart program ['c', '\n']) []) :=
      enter_step rfl (read_continue [])
    exact ⟨_, ⟨Machine.reaches_of_next henter, rfl, rfl⟩, rfl⟩
  | succ n ih =>
    obtain ⟨vm₁, hreach, hs⟩ := Machine.reachesIn_last h
    -- the debugger is in the loop with this machine, and its next round executes the instruction
    obtain ⟨s, hs₁, rfl⟩ := ih hreach
    obtain ⟨h0, hok, _⟩ := engineStep_next (engineStep_of_instructionStep hs)
    have hround : debuggerStep program s = .next { s with
        vm := vm
        out := s.out ++ printedBy s.vm vm
        executed := s.executed + 1 } :=
      (continue_executes hs₁.continuing h0 hs₁.atBreakpoint).trans (doStep_of_stepOk hok)
    exact ⟨_, ⟨Machine.reaches_step hs₁.reached hround, hs₁.continuing, hs₁.free⟩, rfl⟩

/-- `wai_vm_step` fails where the engine does. -/
theorem step_fails (hs : instructionStep vm = .done (.stopped status vm')) (hne : status ≠ .ok) :
    ∃ error vm₁, error ≠ .ok ∧ waiVmStep vm = .ok (error, vm₁) := by
  have h0 := not_halted_of_failed hs hne
  cases hc : vm.code with
  | none => exact ⟨.errParse, vm, nofun, step_null hc⟩
  | some code =>
    rw [instructionStep_eq hc] at hs
    rcases engineStep_stopped hs with ⟨_, hok, _⟩ | ⟨hstep, _⟩
    · exact absurd hok hne
    · exact ⟨status, vm', hne, hstep⟩

/-- On a single `continue` the debugger reports the index of the instruction that fails. -/
theorem debugger_reports (h : FailsAt regs program vm status) (ip : BitVec 64) :
    DebuggerReports program ['c', '\n'] ip ↔ ip = vm.ip := by
  obtain ⟨n, vm', _, hreach, hdone⟩ := fails_cases h
  obtain ⟨error, vm₁, hne, hstep⟩ := step_fails hdone h.1
  obtain ⟨s, hs, rfl⟩ := continuing_of_reaches hreach
  have hcalls : CallsStep s :=
    ⟨not_halted_of_failed hdone h.1, .inl ⟨hs.continuing, hs.atBreakpoint⟩⟩
  obtain ⟨out, hround⟩ := failed_round hcalls hstep hne
  have hends := Machine.ends_of_reaches hs.reached (Machine.ends_of_done hround)
  constructor
  · -- the debugger ends in one way, so the last line is the one of this round
    rintro ⟨status', out', error', hends'⟩
    have hlast := (DebuggerEnd.returned.inj (Machine.ends_unique hends hends')).2
    have hline := (List.append_inj' hlast rfl).2
    exact (DebuggerLine.runtimeError.inj (List.cons.inj hline).1).1.symm
  · rintro rfl
    exact ⟨_, out, error, hends⟩

/-! ## 3. What `command_run` reports -/

/-- The `ip` that `command_run` reports: that of the machine after the failure. -/
theorem reported_ip {c : AsmState} (h : FailsAt regs program vm status)
    (hends : Ends asmStep (asmEntry regs program.initialVm) (.returned c)) :
    (vm.ip = vm.codeCount ∧ c.mem.ip = vm.ip) ∨
      (vm.ip < vm.codeCount ∧ c.mem.ip = vm.ip + 1) := by
  obtain ⟨n, vm', hfinishes, hreach, hdone⟩ := fails_cases h
  obtain ⟨c', hends', _, hmem⟩ := finishes_ends hfinishes
  cases Machine.ends_unique hends hends'
  rw [hmem]
  exact failed_ip hreach hdone h.1

end Failures

/-- `command_run` names the instruction that failed, and the same as the debugger, exactly when
execution fell off the end of the code. -/
theorem names_failure_iff {alloc : LoadAlloc} {fs : FileSystem} {regs : Reg → Val Object}
    {path : Text} {program : OwnedProgram} {info : Option WaiBytecodeInfo} {report : RuntimeError}
    (hload : loadProgramAuto alloc fs path waiProgramInit (some zeroInfo) = (.ok, program, info))
    (hrun : CommandRun alloc fs regs path .err (some report)) :
    NamesFailure regs program report ↔
      ∃ vm, FailsAt regs program vm report.error ∧ vm.codeCount ≤ vm.ip := by
  cases hrun with
  | @failed program' info' c execution hload' hends hcode hne =>
    cases hload.symm.trans hload'
    constructor
    · rintro ⟨vm, hfails, hip, _⟩
      refine ⟨vm, hfails, ?_⟩
      rcases reported_ip hfails hends with ⟨heq, _⟩ | ⟨hlt, hnext⟩
      · exact BitVec.le_of_eq heq.symm
      · -- at an instruction the report is one too high
        rw [WaiVm.failingIndex, if_neg (BitVec.not_le.mpr hlt)] at hip
        exact absurd (hnext.symm.trans hip) (by simp)
    · rintro ⟨vm, hfails, hge⟩
      refine ⟨vm, hfails, ?_⟩
      rw [debugger_reports hfails, WaiVm.failingIndex, if_pos hge]
      rcases reported_ip hfails hends with ⟨heq, hsame⟩ | ⟨hlt, _⟩
      · exact ⟨hsame.trans heq, hsame⟩
      · exact absurd hge (BitVec.not_le.mpr hlt)

/-- The program that `run` loads from a source. -/
def loadedFrom (content : List Byte) : OwnedProgram :=
  (loadProgramAuto .unlimited (onlySource content) ['s'] waiProgramInit (some zeroInfo)).2.1

/-- What `run` reports about a source whose run fails in the machine `vm`. -/
theorem run_of_source {content : List Byte} {n : Nat} {vm vm' : WaiVm} {status : WaiErrorCode}
    (hload : (loadProgramAuto .unlimited (onlySource content) ['s'] waiProgramInit
      (some zeroInfo)).1 = .ok)
    (hreach : ReachesIn instructionStep n (loadedFrom content).initialVm vm)
    (hs : instructionStep vm = .done (.stopped status vm')) (hne : status ≠ .ok) :
    CommandRun .unlimited (onlySource content) (fun _ => .undef) ['s'] .err
        (some ⟨vm'.ip, status⟩) ∧
      FailsAt (fun _ => .undef) (loadedFrom content) vm status := by
  have hrunnable := initial_runnable (loadedFrom content)
  have hfinishes : Finishes (fun _ => .undef) (loadedFrom content).initialVm n status vm' :=
    (finishes_iff hrunnable).mpr ⟨vm, hreach, hs⟩
  obtain ⟨c, hends, hcode, rfl⟩ := finishes_ends hfinishes
  exact ⟨.failed (Prod.ext hload rfl) hends hcode hne,
    hne, n, c.mem, (executed_iff hrunnable).mpr hreach, hfinishes⟩

/-- The source `nop`. -/
def nopSource : List Byte := [0x6e, 0x6f, 0x70, 0x0a]

/-- The source `ret`. -/
def retSource : List Byte := [0x72, 0x65, 0x74, 0x0a]

/-- Execution falls off the end of `nop`, and `run` says so. -/
theorem names_failure_iff_nop :
    CommandRun .unlimited (onlySource nopSource) (fun _ => .undef) ['s'] .err
      (some ⟨1, .errIpOutOfBounds⟩) ∧
    NamesFailure (fun _ => .undef) (loadedFrom nopSource) ⟨1, .errIpOutOfBounds⟩ := by
  have hcode : (loadedFrom nopSource).code = some [⟨28, 0, 0, 0, 0⟩] := by decide +kernel
  have hreach : ReachesIn instructionStep 1 (loadedFrom nopSource).initialVm
      (waiVmInit (some [⟨28, 0, 0, 0, 0⟩]) 1).fetched := by
    rw [(loadedFrom nopSource).initialVm_eq hcode]
    rfl
  have hload : (loadProgramAuto .unlimited (onlySource nopSource) ['s'] waiProgramInit
      (some zeroInfo)).1 = .ok := by decide +kernel
  obtain ⟨hrun, hfails⟩ := run_of_source hload hreach rfl nofun
  exact ⟨hrun, (names_failure_iff (Prod.ext hload rfl) hrun).mpr ⟨_, hfails, by decide⟩⟩

/-- `ret` fails at index 0. The debugger says so, and `run` reports index 1. -/
theorem ret_reported_behind :
    CommandRun .unlimited (onlySource retSource) (fun _ => .undef) ['s'] .err
      (some ⟨1, .errStackUnderflow⟩) ∧
    FailsAt (fun _ => .undef) (loadedFrom retSource) (loadedFrom retSource).initialVm
      .errStackUnderflow ∧
    DebuggerReports (loadedFrom retSource) ['c', '\n'] 0 ∧
    ¬ NamesFailure (fun _ => .undef) (loadedFrom retSource) ⟨1, .errStackUnderflow⟩ := by
  have hcode : (loadedFrom retSource).code = some [⟨23, 0, 0, 0, 0⟩] := by decide +kernel
  have hload : (loadProgramAuto .unlimited (onlySource retSource) ['s'] waiProgramInit
      (some zeroInfo)).1 = .ok := by decide +kernel
  have hs : instructionStep (loadedFrom retSource).initialVm = .done (.stopped .errStackUnderflow
      ((loadedFrom retSource).initialVm.fetched.failed .errStackUnderflow)) := by
    rw [(loadedFrom retSource).initialVm_eq hcode]
    rfl
  obtain ⟨hrun, hfails⟩ := run_of_source hload (n := 0) rfl hs nofun
  have hreports := debugger_reports hfails
  refine ⟨hrun, hfails, (hreports 0).mpr rfl, ?_⟩
  rintro ⟨_, _, _, hreport⟩
  exact absurd ((hreports 1).mp hreport) (by decide)

end Waivm
