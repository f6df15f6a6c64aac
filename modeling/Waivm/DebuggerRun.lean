import Waivm.DebuggerRounds

/-!
# Runs of the debugger

Results:

1. `debugger_transparency`: whatever the commands are, the debugger only takes the machine
   along the run of the program, and each command takes it as far as it should.
2. `continue_progress_iff`: `continue` executes an instruction exactly when the machine does
   not stand at an active breakpoint; `breakpoint_is_stuck` shows what happens there.
-/

namespace Waivm

open CString
open X86 (Reg Val)
open Machine (Outcome Reaches ReachesIn Ends Segment Path)

/-! ## 1. Transparency -/

/-- The debugger is about to read a line. -/
def AtPrompt {count : Nat} (s : DebuggerState count) : Prop :=
  s.continuing = false

/-- `n` instructions lead from the machine of `s` to `vm`, and none of them but the first
stands at a breakpoint that is active in `s`. -/
def ContinuesTo {count : Nat} (s : DebuggerState count) (n : Nat) (vm : WaiVm) : Prop :=
  ∃ vms, vms.length = n ∧ Path StepOk vms s.vm vm ∧
    ∀ v ∈ vms.tail, ¬ ActiveBreakpoint count s.dispatched v.ip.toNat

/-- What has happened after a `continue` in the state `s`, when the rounds since then have
led to `o`: the instructions executed so far do not pass an active breakpoint, the debugger
is back at the prompt only when the machine is halted or stands at an active breakpoint, and
it ends only because an instruction fails. -/
def ContinueEffect {count : Nat} (s : DebuggerState count) :
    Outcome (DebuggerState count) DebuggerEnd → Prop
  | .next t => ∃ n, ContinuesTo s n t.vm ∧ t.executed = s.executed + n ∧
      (AtPrompt t → t.vm.halted ≠ 0 ∨ ActiveBreakpoint count s.dispatched t.vm.ip.toNat)
  | .done _ => ∃ n vm, ContinuesTo s n vm ∧ ¬ ∃ vm', StepOk vm vm'

/-- The debugger is back at the prompt, and has executed `n` instructions. -/
def BackAtPrompt {count : Nat} (s : DebuggerState count)
    (o : Outcome (DebuggerState count) DebuggerEnd) (n : Nat) : Prop :=
  ∃ t, o = .next t ∧ AtPrompt t ∧ t.executed = s.executed + n

/-- What has happened after the debugger read `command`, or a blank line, in the state `s`. `step` ends
the debugger only because the instruction fails; the other commands but `quit` do not end it. -/
def CommandEffect {count : Nat} (s : DebuggerState count)
    (o : Outcome (DebuggerState count) DebuggerEnd) : Option DebuggerCommand → Prop
  | some .doStep =>
    if s.vm.halted = 0 then
      BackAtPrompt s o 1 ∨ (∃ result, o = .done result) ∧ ¬ ∃ vm, StepOk s.vm vm
    else BackAtPrompt s o 0
  | some .doContinue => ContinueEffect s o
  | some .quit => ∃ out, o = .done (.returned .ok out)
  | _ => BackAtPrompt s o 0

section Transparency
variable {program : OwnedProgram} {s t : DebuggerState program.count} {input rest : Text}
  {o : Outcome (DebuggerState program.count) DebuggerEnd}

/-- The state in which a command that was read is dispatched. -/
def afterRead {count : Nat} (s : DebuggerState count) (command : DebuggerCommand) (rest : Text) :
    DebuggerState count :=
  { s.say [.prompt] with
    input := rest
    dispatched := s.dispatched ++ [command] }

theorem prompt_step (hs : AtPrompt s) {command : DebuggerCommand}
    (hread : readCommand s.input = some (some command, rest)) :
    debuggerStep program s = debuggerDispatch program (afterRead s command rest) command := by
  rw [debuggerStep, show s.continuing = false from hs, if_neg Bool.false_ne_true, promptRound, hread]
  rfl

theorem prompt_blank (hs : AtPrompt s) (hread : readCommand s.input = some (none, rest)) :
    debuggerStep program s = .next { s.say [.prompt] with input := rest } := by
  rw [debuggerStep, show s.continuing = false from hs, if_neg Bool.false_ne_true, promptRound, hread]

theorem continue_step (hs : s.continuing = true) :
    debuggerStep program s = continueRound program s := by
  rw [debuggerStep, if_pos hs]

/-- The loop of `continue` executes an instruction of a machine that runs and is at no
breakpoint. -/
theorem continue_executes (hs : s.continuing = true) (h0 : s.vm.halted = 0)
    (hfree : s.atBreakpoint = false) : debuggerStep program s = doStep program s := by
  rw [continue_step hs, continueRound, if_neg (not_not_intro h0), hfree, if_neg Bool.false_ne_true]

/-- Only `continue` leaves the prompt, and only `step` executes an instruction. -/
theorem Dispatch.prompt {command : DebuggerCommand} (hs : AtPrompt s)
    (hcommand : command ≠ .doContinue) (h : Dispatch s command t) :
    AtPrompt t ∧ t.input = s.input ∧
      t.executed = s.executed + if command = .doStep ∧ s.vm.halted = 0 then 1 else 0 := by
  cases h with
  | writes _ _ hhalted =>
    refine ⟨hs, rfl, ?_⟩
    rw [if_neg fun hstep => hhalted hstep.1 hstep.2]
    rfl
  | steps h0 =>
    refine ⟨hs, rfl, ?_⟩
    rw [if_pos ⟨rfl, h0⟩]
  | continues => exact absurd rfl hcommand
  | sets _ _ _ hstep =>
    refine ⟨hs, rfl, ?_⟩
    rw [if_neg fun h => hstep h.1]
    rfl

/-- The debugger prints nothing when it ends with a halted machine. -/
theorem printed_of_done {status : WaiErrorCode} {out : List DebuggerLine}
    (h1 : s.vm.halted ≠ 0) (h : debuggerStep program s = .done (.returned status out)) :
    printedValues out = printedValues s.out := by
  unfold debuggerStep at h
  split at h
  · rw [continueRound, if_pos h1] at h
    cases h
  · unfold promptRound at h
    split at h
    · cases h
      exact printed_quiet _ rfl
    · cases h
    · rcases dispatch_done h with ⟨_, hresult⟩ | ⟨_, h0, _⟩
      · cases hresult
        exact printed_quiet _ rfl
      · exact absurd h0 h1

/-- `do_step` ends the debugger only when the call of `wai_vm_step` fails. -/
theorem doStep_fails {result : DebuggerEnd} (h : doStep program s = .done result) :
    ¬ ∃ vm, StepOk s.vm vm := by
  rintro ⟨vm, hok⟩
  cases (doStep_of_stepOk hok).symm.trans h

/-- A run of rounds in the loop of `continue`: every instruction that it executes was tested
for a breakpoint before. -/
theorem continue_segment (hinv : DebuggerInvariant program s) (hs : s.continuing = true)
    (h : Segment (debuggerStep program) AtPrompt s o) :
    ∃ vms vm, Path StepOk vms s.vm vm ∧
      (∀ v ∈ vms, ¬ ActiveBreakpoint program.count s.dispatched v.ip.toNat) ∧
      match o with
      | .next t => t.vm = vm ∧ t.executed = s.executed + vms.length ∧
        (AtPrompt t → vm.halted ≠ 0 ∨ ActiveBreakpoint program.count s.dispatched vm.ip.toNat)
      | .done _ => ¬ ∃ vm', StepOk vm vm' := by
  induction h with
  | @last s o hlast =>
    -- the last round finds a halted machine, a breakpoint, or an instruction
    rw [continue_step hs] at hlast
    rcases continue_cases hlast with ⟨hhalted, rfl⟩ | ⟨_, hhit, rfl⟩ | ⟨_, hfree, hexecutes⟩
    · exact ⟨[], s.vm, .nil, nofun, rfl, rfl, fun _ => .inl hhalted⟩
    · exact ⟨[], s.vm, .nil, nofun, rfl, rfl, fun _ => .inr (hinv.atBreakpoint_iff.mp hhit)⟩
    · cases o with
      | done result => exact ⟨[], s.vm, .nil, nofun, doStep_fails hexecutes⟩
      | next t =>
        obtain ⟨vm, hok, rfl⟩ := doStep_next hexecutes
        refine ⟨[s.vm], vm, .cons hok .nil, ?_, rfl, rfl, fun hprompt => ?_⟩
        · rw [List.forall_mem_singleton, ← hinv.atBreakpoint_iff]
          exact ne_true_of_eq_false hfree
        · exact absurd (hprompt.symm.trans hs) Bool.false_ne_true
  | @cons s t o hstep hprompt hrest ih =>
    have hinv' := invariant_round hinv hstep
    rw [continue_step hs] at hstep
    rcases continue_cases hstep with ⟨_, hnext⟩ | ⟨_, _, hnext⟩ | ⟨_, hfree, hexecutes⟩
    · cases hnext
      exact absurd rfl hprompt
    · cases hnext
      exact absurd rfl hprompt
    · -- the round stays in the loop, so it executed the instruction in front of the others
      obtain ⟨vm, hok, rfl⟩ := doStep_next hexecutes
      obtain ⟨vms, vm', hpath, hall, heffect⟩ := ih hinv' hs
      refine ⟨s.vm :: vms, vm', .cons hok hpath, ?_, ?_⟩
      · rw [List.forall_mem_cons, ← hinv.atBreakpoint_iff]
        exact ⟨ne_true_of_eq_false hfree, hall⟩
      · cases o with
        | done result => exact heffect
        | next u =>
          obtain ⟨hvm, hexecuted, hstops⟩ := heffect
          refine ⟨hvm, ?_, hstops⟩
          rw [hexecuted, List.length_cons, Nat.add_assoc, Nat.add_comm 1]

/-- The breakpoints that are active after a `continue` are those that were active before. -/
theorem active_continue (commands : List DebuggerCommand) (ip : Nat) :
    ActiveBreakpoint program.count (commands ++ [.doContinue]) ip ↔
      ActiveBreakpoint program.count commands ip :=
  (active_append commands .doContinue ip).trans decide_eq_true_iff

/-- What a `continue` at the prompt does. -/
theorem continue_effect (hinv : DebuggerInvariant program s) (hs : AtPrompt s)
    (hread : readCommand s.input = some (some .doContinue, rest))
    (h : Segment (debuggerStep program) AtPrompt s o) : ContinueEffect s o := by
  have hfirst := prompt_step hs hread
  cases h with
  | last hlast =>
    -- the segment stops before the loop is entered, and there is no prompt yet
    cases hfirst.symm.trans hlast
    exact ⟨0, ⟨[], rfl, .nil, nofun⟩, rfl, fun hprompt => absurd hprompt nofun⟩
  | cons hstep _ hrest =>
    have hinv' := invariant_round hinv hstep
    cases hfirst.symm.trans hstep
    obtain ⟨vms, vm, hpath, hall, heffect⟩ := continue_segment hinv' rfl hrest
    have hcontinues : ContinuesTo s vms.length vm := by
      refine ⟨vms, rfl, hpath, fun v hv => ?_⟩
      rw [← active_continue]
      exact hall v (List.mem_of_mem_tail hv)
    cases o with
    | done result => exact ⟨vms.length, vm, hcontinues, heffect⟩
    | next t =>
      obtain ⟨rfl, hexecuted, hstops⟩ := heffect
      refine ⟨vms.length, hcontinues, hexecuted, fun hprompt => ?_⟩
      rw [← active_continue]
      exact hstops hprompt

/-- A command other than `continue` takes one round. -/
theorem dispatched_outcome {command : DebuggerCommand} (hs : AtPrompt s)
    (hread : readCommand s.input = some (some command, rest)) (hcommand : command ≠ .doContinue)
    (h : Segment (debuggerStep program) AtPrompt s o) :
    debuggerDispatch program (afterRead s command rest) command = o := by
  have hfirst := prompt_step hs hread
  cases h with
  | last hlast => exact hfirst.symm.trans hlast
  | cons hstep hprompt _ =>
    exact absurd (Dispatch.prompt (s := afterRead s command rest) hs hcommand
      (dispatch_cases (hfirst.symm.trans hstep))).1 hprompt

/-- What a command other than `continue` at the prompt does. -/
theorem command_effect {command : DebuggerCommand} (hs : AtPrompt s)
    (hread : readCommand s.input = some (some command, rest)) (hcommand : command ≠ .doContinue)
    (h : Segment (debuggerStep program) AtPrompt s o) : CommandEffect s o (some command) := by
  have hdispatch := dispatched_outcome hs hread hcommand h
  cases o with
  | next t =>
    obtain ⟨hprompt, _, hexecuted⟩ := Dispatch.prompt (s := afterRead s command rest) hs hcommand
      (dispatch_cases hdispatch)
    cases command with
    | doContinue => exact absurd rfl hcommand
    | quit => cases hdispatch
    | doStep =>
      by_cases h0 : s.vm.halted = 0
      · rw [if_pos ⟨rfl, h0⟩] at hexecuted
        exact (if_pos h0).mpr (.inl ⟨t, rfl, hprompt, hexecuted⟩)
      · rw [if_neg fun h => h0 h.2] at hexecuted
        exact (if_neg h0).mpr ⟨t, rfl, hprompt, hexecuted⟩
    | _ =>
      rw [if_neg (by simp)] at hexecuted
      exact ⟨t, rfl, hprompt, hexecuted⟩
  | done result =>
    rcases dispatch_done hdispatch with ⟨rfl, rfl⟩ | ⟨rfl, h0, hdone⟩
    · exact ⟨_, rfl⟩
    · have hfails := @doStep_fails _ (afterRead s .doStep rest) _ hdone
      exact (if_pos h0).mpr (.inr ⟨⟨result, rfl⟩, hfails⟩)

/-- What the debugger does with the line that it reads at the prompt. -/
theorem read_effect {command : Option DebuggerCommand} (hinv : DebuggerInvariant program s)
    (hs : AtPrompt s) (hread : readCommand s.input = some (command, rest))
    (h : Segment (debuggerStep program) AtPrompt s o) : CommandEffect s o command := by
  cases command with
  | none =>
    have hfirst := prompt_blank hs hread
    cases h with
    | last hlast =>
      cases hfirst.symm.trans hlast
      exact ⟨_, rfl, hs, rfl⟩
    | cons hstep hprompt _ =>
      cases hfirst.symm.trans hstep
      exact absurd hs hprompt
  | some command =>
    by_cases hcommand : command = .doContinue
    · subst hcommand
      exact continue_effect hinv hs hread h
    · exact command_effect hs hread hcommand h

/-- A run of the program that halts is what `wai_vm_execute` does, too. -/
theorem executes_of_halted {vm : WaiVm} {n : Nat}
    (h : ReachesIn stepUntilHalted n program.initialVm vm) (h1 : vm.halted ≠ 0)
    (regs : Reg → Val Object) :
    ∃ c, Ends asmStep (asmEntry regs program.initialVm) (.returned c) ∧
      waiVmExecute c = some .ok ∧ c.mem = vm := by
  have hends := Machine.ends_of_reaches ⟨n, h⟩ (ends_of_halted h1)
  cases hc : program.code with
  | none =>
    -- without an array the machine stays as it was initialised
    rw [reached_null hc h] at h1
    exact absurd rfl h1
  | some code =>
    have hlen : code.length ≤ maxInstructions := program.count_eq code hc ▸ program.count_le
    rw [program.initialVm_eq hc] at hends ⊢
    obtain ⟨⟨r, hr⟩, hsame⟩ :
        (∃ r, Ends asmStep (asmEntry regs (waiVmInit (some code) (BitVec.ofNat 64 code.length))) r) ∧
        _ :=
      ⟨(engine_ends hlen (.init code) regs).1.mpr ⟨_, hends⟩, (engine_ends hlen (.init code) regs).2⟩
    have hagree := hsame r _ hr hends
    cases r with
    | trapped t => cases t <;> exact absurd hagree id
    | returned c => exact ⟨c, hr, hagree.2.2, hagree.1⟩

end Transparency

/-- The debugger is transparent. In every state that it passes, the machine is the one after
as many calls of `wai_vm_step` as instructions were executed; every line that is read, and
the command in it, executes the instructions that it should and no others; and when the
debugger ends with a machine that has halted, it has printed what `wai_vm_execute` prints. -/
theorem debugger_transparency (program : OwnedProgram) (input : Text) :
    (∀ s, DebuggerReaches program input s →
      ReachesIn stepUntilHalted s.executed program.initialVm s.vm) ∧
    (∀ s o command rest, DebuggerReaches program input s → AtPrompt s →
      readCommand s.input = some (command, rest) →
      Segment (debuggerStep program) AtPrompt s o → CommandEffect s o command) ∧
    (∀ s out regs, DebuggerReaches program input s →
      debuggerStep program s = .done (.returned .ok out) → s.vm.halted ≠ 0 →
      ∃ c, Ends asmStep (asmEntry regs program.initialVm) (.returned c) ∧
        waiVmExecute c = some .ok ∧ printedValues out = c.mem.emitted) := by
  refine ⟨fun s hs => (debugger_invariant hs).reached, ?_, ?_⟩
  · intro s o command rest hs hprompt hread hsegment
    exact read_effect (debugger_invariant hs) hprompt hread hsegment
  · intro s out regs hs hdone h1
    have hinv := debugger_invariant hs
    obtain ⟨c, hends, hexecute, hmem⟩ := executes_of_halted hinv.reached h1 regs
    refine ⟨c, hends, hexecute, ?_⟩
    rw [hmem, ← hinv.printed]
    exact printed_of_done h1 hdone

/-- The program of `print r0`, `nop` and `halt`. -/
def printNopHalt : OwnedProgram :=
  .ofArray [⟨14, 0, 0, 0, 0⟩, ⟨28, 0, 0, 0, 0⟩, ⟨15, 0, 0, 0, 0⟩] (by decide)

/-- A `step` over the `print`, and a `continue` to the end. -/
theorem debugger_transparency_print : ∃ s out c,
    DebuggerReaches printNopHalt ['s', '\n', 'c', '\n'] s ∧ s.executed = 3 ∧
    ReachesIn stepUntilHalted 3 printNopHalt.initialVm s.vm ∧
    debuggerStep printNopHalt s = .done (.returned .ok out) ∧
    (∃ t, debuggerStep printNopHalt (debuggerStart printNopHalt ['s', '\n', 'c', '\n']) = .next t ∧
      AtPrompt t ∧ t.executed = 1) ∧
    Ends asmStep (asmEntry (fun _ => .undef) printNopHalt.initialVm) (.returned c) ∧
    waiVmExecute c = some .ok ∧ c.mem.emitted = [0] := by
  obtain ⟨hreached, hcommand, hhalted⟩ := debugger_transparency printNopHalt ['s', '\n', 'c', '\n']
  obtain ⟨s, hs, hexecuted, hvm, out, hdone, hprinted⟩ : ∃ s,
      DebuggerReaches printNopHalt ['s', '\n', 'c', '\n'] s ∧ s.executed = 3 ∧ s.vm.halted ≠ 0 ∧
      ∃ out, debuggerStep printNopHalt s = .done (.returned .ok out) ∧ printedValues out = [0] :=
    ⟨_, ⟨5, rfl⟩, rfl, by decide, _, rfl, rfl⟩
  obtain ⟨t, ht, hprompt, hone⟩ | ⟨_, hfails⟩ :=
    hcommand _ _ (some .doStep) _ (Machine.reaches_refl _) rfl rfl (.last rfl)
  · obtain ⟨c, hends, hexecute, hsame⟩ := hhalted s out (fun _ => .undef) hs hdone hvm
    exact ⟨s, out, c, hs, hexecuted, hexecuted ▸ hreached s hs, hdone, ⟨t, ht, hprompt, hone⟩, hends,
      hexecute, hsame.symm.trans hprinted⟩
  · exact absurd ⟨_, rfl⟩ hfails

/-! ## 2. Progress -/

/-- The command that is read at the prompt `s` executes an instruction before the debugger
is back at the prompt. -/
def MakesProgress (program : OwnedProgram) (s : DebuggerState program.count) : Prop :=
  ∃ t, Segment (debuggerStep program) AtPrompt s (.next t) ∧ s.executed < t.executed

section Progress
variable {program : OwnedProgram} {s t : DebuggerState program.count} {rest : Text}

/-- The state in the loop of `continue` before its first round. -/
def enterContinue {count : Nat} (s : DebuggerState count) (rest : Text) : DebuggerState count :=
  { afterRead s .doContinue rest with continuing := true }

theorem enter_step (hs : AtPrompt s) (hread : readCommand s.input = some (some .doContinue, rest)) :
    debuggerStep program s = .next (enterContinue s rest) :=
  (prompt_step hs hread).trans rfl

/-- The first round of a `continue` at an active breakpoint reports it and stops. -/
theorem hit_step (h0 : s.vm.halted = 0) (hhit : s.atBreakpoint = true) :
    debuggerStep program (enterContinue s rest) = .next { (enterContinue s rest).say
      (.breakpointHit s.vm.ip :: disAround program s.vm) with continuing := false } := by
  rw [continue_step rfl, continueRound, if_neg (not_not_intro (by exact h0)),
    if_pos (by exact hhit)]
  rfl

/-- A `continue` at an active breakpoint executes nothing. -/
theorem stuck_of_breakpoint (hs : AtPrompt s)
    (hread : readCommand s.input = some (some .doContinue, rest)) (h0 : s.vm.halted = 0)
    (hhit : s.atBreakpoint = true) : ¬ MakesProgress program s := by
  rintro ⟨t, hsegment, hlt⟩
  have hfirst := @enter_step program s _ hs hread
  have hsecond := @hit_step program s rest h0 hhit
  cases hsegment with
  | last hlast =>
    cases hfirst.symm.trans hlast
    exact Nat.lt_irrefl _ hlt
  | cons hstep _ hrest =>
    cases hfirst.symm.trans hstep
    cases hrest with
    | last hlast =>
      cases hsecond.symm.trans hlast
      exact Nat.lt_irrefl _ hlt
    | cons hstep hprompt _ =>
      cases hsecond.symm.trans hstep
      exact hprompt rfl

theorem read_continue (rest : Text) :
    readCommand ('c' :: '\n' :: rest) = some (some .doContinue, rest) :=
  rfl

/-- However often `continue` is repeated at an active breakpoint, nothing is executed. -/
theorem breakpoint_is_stuck (hs : AtPrompt s) (h0 : s.vm.halted = 0) (hhit : s.atBreakpoint = true)
    (n : Nat) (hinput : s.input = (List.replicate n ['c', '\n']).flatten ++ rest) :
    ∃ t, Reaches (debuggerStep program) s t ∧ AtPrompt t ∧ t.input = rest ∧ t.vm = s.vm ∧
      t.executed = s.executed := by
  induction n generalizing s with
  | zero => exact ⟨s, Machine.reaches_refl s, hs, hinput, rfl, rfl⟩
  | succ n ih =>
    have hread : readCommand s.input =
        some (some .doContinue, (List.replicate n ['c', '\n']).flatten ++ rest) := by
      rw [hinput]
      exact read_continue _
    -- one round enters the loop, and the next one is back at the prompt with the same machine
    have hfirst := Machine.reaches_of_next (@enter_step program s _ hs hread)
    have hsecond := Machine.reaches_of_next (@hit_step program s
      ((List.replicate n ['c', '\n']).flatten ++ rest) h0 hhit)
    obtain ⟨t, ht, hprompt, hrest, hvm, hexecuted⟩ :=
      @ih { (enterContinue s _).say (.breakpointHit s.vm.ip :: disAround program s.vm) with
        continuing := false } rfl h0 hhit rfl
    exact ⟨t, Machine.reaches_trans (Machine.reaches_trans hfirst hsecond) ht, hprompt, hrest, hvm,
      hexecuted⟩

/-- Where an instruction could be executed, `continue` executes one exactly when no
breakpoint is active at `ip`: the loop tests the breakpoint before its first instruction,
too, also when it stopped there the last time. -/
theorem continue_progress_iff (hs : AtPrompt s)
    (hread : readCommand s.input = some (some .doContinue, rest)) (h0 : s.vm.halted = 0)
    (hstep : ∃ vm, StepOk s.vm vm) : MakesProgress program s ↔ s.atBreakpoint = false := by
  constructor
  · intro hprogress
    by_contra hhit
    exact stuck_of_breakpoint hs hread h0 (Bool.not_eq_false _ ▸ hhit) hprogress
  · intro hfree
    obtain ⟨vm, hok⟩ := hstep
    -- the first round of the loop already executes the instruction
    have hsecond : debuggerStep program (enterContinue s rest) = .next { enterContinue s rest with
        vm := vm
        out := (enterContinue s rest).out ++ printedBy s.vm vm
        executed := s.executed + 1 } :=
      (continue_executes (s := enterContinue s rest) rfl h0 hfree).trans (doStep_of_stepOk hok)
    exact ⟨_, .cons (enter_step hs hread) nofun (.last hsecond), Nat.lt_succ_self _⟩

end Progress

/-- The program of `nop` and `halt`. -/
def nopHaltProgram : OwnedProgram :=
  .ofArray nopHalt (by decide)

/-- The state after `break 0`, with a `continue` next. -/
def breakAtZero : DebuggerState nopHaltProgram.count :=
  { debuggerStart nopHaltProgram ['c', '\n'] with
    breakpoints := Function.update (fun _ => false) ⟨0, by decide⟩ true
    out := [.banner, .prompt, .breakpointSet 0]
    dispatched := [.doBreak (some ['0'])] }

theorem continue_progress_iff_nopHalt :
    MakesProgress nopHaltProgram (debuggerStart nopHaltProgram ['c', '\n']) :=
  (@continue_progress_iff _ (debuggerStart nopHaltProgram ['c', '\n']) []
    rfl (read_continue []) rfl ⟨_, rfl⟩).mpr rfl

/-- A breakpoint at the first instruction is reached and never left. -/
theorem continue_stuck_at_zero :
    DebuggerReaches nopHaltProgram ['b', ' ', '0', '\n', 'c', '\n'] breakAtZero ∧
    AtPrompt breakAtZero ∧ readCommand breakAtZero.input = some (some .doContinue, []) ∧
    breakAtZero.vm.halted = 0 ∧ (∃ vm, StepOk breakAtZero.vm vm) ∧
    ¬ MakesProgress nopHaltProgram breakAtZero :=
  ⟨Machine.reaches_of_next rfl, rfl, rfl, rfl, ⟨_, rfl⟩,
    @stuck_of_breakpoint _ breakAtZero [] rfl (read_continue []) rfl rfl⟩

end Waivm
