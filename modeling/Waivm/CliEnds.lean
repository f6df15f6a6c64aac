import Waivm.CliMain

/-!
# Calls that end

The program that a call executes may run for ever. Nothing else does: the trace counts its rounds, and
the debugger reads a finite input and executes the program at most once.

Results:
1. `debuggerRun_ends`: where the run of a program ends, the debugger does, whatever its commands are.
2. `cli_ends`: every call of `waivm` ends, but for `run` and `debug` of a program that runs for ever; and
   there `run` does not.
-/

namespace Waivm

open CString
open X86 (Reg Val)
open Machine (Outcome ReachesIn Reaches Ends)

/-! ## 1. The debugger -/

/-- The engine comes to the end of the program. -/
def RunEnds (regs : Reg → Val Object) (program : OwnedProgram) : Prop :=
  ∃ e, Ends asmStep (asmEntry regs program.initialVm) e

/-- The rounds that the debugger has left at most, when the program has `n` instructions to execute:
each instruction and each line of input is good for two. -/
def roundsLeft {count : Nat} (n : Nat) (s : DebuggerState count) : Nat :=
  2 * (n - s.executed) + 2 * s.input.length + if s.continuing then 1 else 0

section Debugger
variable {program : OwnedProgram} {regs : Reg → Val Object} {s t : DebuggerState program.count}
  {input : Text} {n : Nat}

/-- A run of the engine that ends has a number of instructions. -/
theorem steps_of_runEnds (h : RunEnds regs program) :
    ∃ n vm r, ReachesIn stepUntilHalted n program.initialVm vm ∧ stepUntilHalted vm = .done r := by
  cases hc : program.code with
  | none =>
    have hnull : program.initialVm.code = none := hc
    have hstep : stepUntilHalted program.initialVm = .done (.stopped .errParse program.initialVm) := by
      rw [stepUntilHalted, step_null hnull]
      rfl
    exact ⟨0, _, _, rfl, hstep⟩
  | some code =>
    have hlen : code.length ≤ maxInstructions := program.count_eq code hc ▸ program.count_le
    unfold RunEnds at h
    rw [program.initialVm_eq hc] at h ⊢
    obtain ⟨r, k, hk⟩ := (engine_ends hlen (.init code) regs).1.mp h
    obtain ⟨m, vm, _, hreach, hdone⟩ := Machine.endsIn_cases hk
    exact ⟨m, vm, r, hreach, hdone⟩

/-- A line that is read is not empty. -/
theorem readCommand_shorter {rest : Text} {command : Option DebuggerCommand}
    (h : readCommand input = some (command, rest)) : rest.length < input.length := by
  obtain ⟨read, hread, heq⟩ := Option.map_eq_some_iff.mp h
  obtain rfl : read.2 = rest := congrArg Prod.snd heq
  unfold fgets at hread
  split at hread
  · cases hread
  · next hne =>
    cases hread
    obtain ⟨c, tail, rfl⟩ := List.exists_cons_of_ne_nil hne
    show (fgetsFrom (254 + 1) (c :: tail)).2.length < (c :: tail).length
    have htail : ∀ n l, (fgetsFrom n l).2.length ≤ l.length := by
      intro n l
      obtain ⟨_, _, hsplit, _⟩ := fgetsFrom_spec n l
      have hlength := congrArg List.length hsplit
      rw [List.length_append] at hlength
      omega
    rw [fgetsFrom]
    split
    · exact Nat.lt_succ_self _
    · exact Nat.lt_succ_of_le (htail 254 tail)

/-- A round that goes on uses up some of what is left. -/
theorem round_less (ht : t.executed ≤ n) (h : debuggerStep program s = .next t) :
    roundsLeft n t < roundsLeft n s := by
  unfold debuggerStep at h
  split at h
  · next hcontinuing =>
    have hs : roundsLeft n s = 2 * (n - s.executed) + 2 * s.input.length + 1 :=
      congrArg (_ + ·) (if_pos hcontinuing)
    rcases continue_cases h with ⟨_, hnext⟩ | ⟨_, _, hnext⟩ | ⟨_, _, hstep⟩
    · cases hnext
      exact hs ▸ Nat.lt_succ_self _
    · cases hnext
      exact hs ▸ Nat.lt_succ_self _
    · obtain ⟨vm, _, rfl⟩ := doStep_next hstep
      have hle : s.executed + 1 ≤ n := ht
      show 2 * (n - (s.executed + 1)) + 2 * s.input.length + (if s.continuing then 1 else 0) < _
      rw [hs, if_pos hcontinuing]
      omega
  · -- a line was read, and the loop of `continue` begins at most
    have hle : ∀ u : DebuggerState program.count, u.input.length < s.input.length →
        s.executed ≤ u.executed → roundsLeft n u < roundsLeft n s := by
      intro u hinput hexecuted
      unfold roundsLeft
      have hone : (if u.continuing = true then 1 else 0) ≤ 1 := by
        split
        · exact Nat.le_refl 1
        · exact Nat.zero_le 1
      omega
    unfold promptRound at h
    split at h
    · cases h
    · next hread =>
      cases h
      exact hle _ (readCommand_shorter hread) (Nat.le_refl _)
    · next hread =>
      have hshorter := readCommand_shorter hread
      cases dispatch_cases h with
      | writes => exact hle _ hshorter (Nat.le_refl _)
      | steps => exact hle _ hshorter (Nat.le_succ _)
      | continues => exact hle _ hshorter (Nat.le_refl _)
      | sets => exact hle _ hshorter (Nat.le_refl _)

/-- The debugger ends where the run of the program ends. -/
theorem debuggerRun_ends (alloc : Bool) (input : Text) (h : RunEnds regs program) :
    ∃ r, WaiDebuggerRun program alloc input r := by
  unfold WaiDebuggerRun
  cases alloc with
  | false => exact ⟨.returned .errOom [], by rw [if_neg Bool.false_ne_true]⟩
  | true =>
    simp only [if_true]
    obtain ⟨n, vm, r, hreach, hdone⟩ := steps_of_runEnds h
    refine Machine.ends_of_measure (I := DebuggerReaches program input) (roundsLeft n)
      (fun s t hs hstep => ?_) (Machine.reaches_refl _)
    have ht : DebuggerReaches program input t := Machine.reaches_step hs hstep
    exact ⟨ht, round_less (Machine.reachesIn_le_of_done hreach hdone (debugger_invariant ht).reached)
      hstep⟩

end Debugger

/-! ## 2. The command line -/

/-- The trace counts its rounds. -/
theorem trace_ends (program : OwnedProgram) :
    ∃ r, Ends (traceIteration program) (traceStart program) r := by
  refine Machine.ends_of_measure (I := fun _ => True) (fun s => waiTraceMaxSteps - s.steps)
    (fun s t _ hstep => ⟨trivial, ?_⟩) trivial
  unfold traceIteration at hstep
  split at hstep
  · cases hstep
  split at hstep
  · cases hstep
  next hlimit =>
  split at hstep
  · cases hstep
  split at hstep
  · cases hstep
  split at hstep
  · cases hstep
  · cases hstep
    have hlt := Nat.not_le.mp hlimit
    show waiTraceMaxSteps - (s.steps + 1) < waiTraceMaxSteps - s.steps
    omega
  · cases hstep

/-- The call executes a program that runs for ever. -/
def RunsForever (host : Host) (argv : List Text) : Prop :=
  ∃ name command path program info, argv = [name, command, path] ∧
    (command = ['r', 'u', 'n'] ∨ command = ['d', 'e', 'b', 'u', 'g']) ∧
    loadProgramAuto host.load host.files path waiProgramInit (some zeroInfo) = (.ok, program, info) ∧
    ¬ RunEnds host.regs program

section Calls
variable {host : Host} {path : Text} {argv : List Text} {program : OwnedProgram}

theorem oneFile_ends {arguments : List Text} {complaint : Text} {command : Text → ProcessEnd → Prop}
    (h : ∀ path, arguments = [path] → ∃ e, command path e) :
    ∃ e, oneFile host arguments complaint command e := by
  unfold oneFile
  split
  · exact h _ rfl
  · exact ⟨_, rfl⟩

theorem withProgram_ends {command : OwnedProgram → ProcessEnd → Prop}
    (h : ∀ program info, loadProgramAuto host.load host.files path waiProgramInit (some zeroInfo) =
      (.ok, program, info) → ∃ e, command program e) :
    ∃ e, withProgram host path command e := by
  unfold withProgram
  split
  · next program info hload => exact h program info hload
  · exact ⟨_, rfl⟩

/-- `wai_vm_execute` makes something of every return of the engine. -/
theorem runEnd_of_ends {r : AsmEnd} (h : Ends asmStep (asmEntry host.regs program.initialVm) r) :
    ∃ e, runEnd host r = some e := by
  cases r with
  | trapped t => cases t <;> exact ⟨_, rfl⟩
  | returned c =>
    obtain ⟨n, vm, status, hreach, hdone⟩ := returned_cases (initial_runnable program) h
    have hfinishes : Finishes host.regs program.initialVm n status c.mem :=
      (finishes_iff (initial_runnable program)).mpr ⟨vm, hreach, hdone⟩
    obtain ⟨c', hends, hcode, _⟩ := finishes_ends hfinishes
    cases Machine.ends_unique h hends
    exact ⟨_, congrArg (Option.map _) hcode⟩

/-- A call of a command ends, when it does not execute a program that runs for ever. -/
theorem command_ends {name command : Text} {arguments : List Text}
    (hruns : ¬ RunsForever host (name :: command :: arguments)) :
    ∃ e, waiCliMain host (name :: command :: arguments) e := by
  have hexecuted : (command = ['r', 'u', 'n'] ∨ command = ['d', 'e', 'b', 'u', 'g']) →
      ∀ path, arguments = [path] → ∀ program info,
        loadProgramAuto host.load host.files path waiProgramInit (some zeroInfo) =
          (.ok, program, info) → RunEnds host.regs program := by
    rintro hcommand path rfl program info hload
    by_contra hforever
    exact hruns ⟨_, _, _, program, info, rfl, hcommand, hload, hforever⟩
  simp only [waiCliMain]
  by_cases hhelp : command = ['h', 'e', 'l', 'p'] ∨ command = ['-', '-', 'h', 'e', 'l', 'p'] ∨
      command = ['-', 'h']
  · simp only [if_pos hhelp]
    exact ⟨_, rfl⟩
  simp only [if_neg hhelp]
  by_cases hrun : command = ['r', 'u', 'n']
  · simp only [if_pos hrun]
    refine oneFile_ends fun path hpath => withProgram_ends fun program info hload => ?_
    obtain ⟨r, hr⟩ := hexecuted (.inl hrun) path hpath program info hload
    obtain ⟨e, he⟩ := runEnd_of_ends hr
    exact ⟨e, r, hr, he⟩
  simp only [if_neg hrun]
  by_cases hasm : command = ['a', 's', 'm']
  · simp only [if_pos hasm]
    exact ⟨_, rfl⟩
  simp only [if_neg hasm]
  by_cases hdis : command = ['d', 'i', 's']
  · simp only [if_pos hdis]
    exact oneFile_ends fun path _ => withProgram_ends fun program info _ => ⟨_, rfl⟩
  simp only [if_neg hdis]
  by_cases hdebug : command = ['d', 'e', 'b', 'u', 'g']
  · simp only [if_pos hdebug]
    refine oneFile_ends fun path hpath => withProgram_ends fun program info hload => ?_
    obtain ⟨r, hr⟩ := debuggerRun_ends host.breakpoints host.stdin
      (hexecuted (.inr hdebug) path hpath program info hload)
    exact ⟨_, r, hr, rfl⟩
  simp only [if_neg hdebug]
  by_cases htrace : command = ['t', 'r', 'a', 'c', 'e']
  · simp only [if_pos htrace]
    refine oneFile_ends fun path hpath => withProgram_ends fun program info hload => ?_
    obtain ⟨r, hr⟩ := trace_ends program
    exact ⟨_, r, hr, rfl⟩
  simp only [if_neg htrace]
  by_cases hverify : command = ['v', 'e', 'r', 'i', 'f', 'y']
  · simp only [if_pos hverify]
    exact oneFile_ends fun path _ => withProgram_ends fun program info _ => ⟨_, rfl⟩
  simp only [if_neg hverify]
  by_cases hinfo : command = ['i', 'n', 'f', 'o']
  · simp only [if_pos hinfo]
    exact oneFile_ends fun path _ => ⟨_, rfl⟩
  simp only [if_neg hinfo]
  exact ⟨_, rfl⟩

/-- A call ends, or it executes a program that runs for ever; and of such a program `run` does not
end. -/
theorem cli_ends (host : Host) (argv : List Text) :
    ((∃ e, waiCliMain host argv e) ∨ RunsForever host argv) ∧
    ∀ name path program info, argv = [name, ['r', 'u', 'n'], path] →
      loadProgramAuto host.load host.files path waiProgramInit (some zeroInfo) =
        (.ok, program, info) →
      ((∃ e, waiCliMain host argv e) ↔ RunEnds host.regs program) := by
  constructor
  · rw [or_iff_not_imp_right]
    intro hruns
    match argv with
    | [] | [_] => exact ⟨_, rfl⟩
    | name :: command :: arguments => exact command_ends hruns
  · rintro name path program info rfl hload
    show (∃ e, commandRun host path e) ↔ _
    unfold commandRun withProgram
    rw [hload]
    constructor
    · rintro ⟨_, r, hr, _⟩
      exact ⟨r, hr⟩
    · rintro ⟨r, hr⟩
      obtain ⟨e, he⟩ := runEnd_of_ends hr
      exact ⟨e, r, hr, he⟩

end Calls

end Waivm
