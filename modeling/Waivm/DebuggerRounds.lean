import Waivm.DebuggerDumps
import Waivm.EngineRun
import Waivm.Trace

/-!
# Rounds of the debugger

What one round of `wai_debugger_run` does. A round that goes on either leaves the machine
and the printed values alone, or executes one instruction (`RoundEffect`); a round that ends
in an error has executed a failing call of `wai_vm_step`.

Results:

1. `dumpMemory_ok`, `dumpStack_ok`: the inspection commands read nothing out of bounds.
2. `round_effect`: what a round does to the machine.
3. `debugger_invariant`: in every state that is reached the machine is the one after
   `executed` calls of `wai_vm_step`, the table holds the active breakpoints, and the
   output holds the emitted values.
-/

namespace Waivm

open CString
open LittleEndian (Byte)
open Machine (Outcome Reaches ReachesIn)

/-! ## 1. Inspection -/

/-- The value in a line that a `PRINT` wrote. -/
def DebuggerLine.value? : DebuggerLine → Option WaiValue
  | .printed value => some value
  | _ => none

/-- The values that were printed. -/
def printedValues (out : List DebuggerLine) : List WaiValue :=
  out.filterMap DebuggerLine.value?

theorem printedValues_append (out lines : List DebuggerLine) :
    printedValues (out ++ lines) = printedValues out ++ printedValues lines :=
  List.filterMap_append

theorem printedValues_printedBy (before after : WaiVm) :
    printedValues (printedBy before after) = after.emitted.drop before.emitted.length := by
  rw [printedValues, printedBy, List.filterMap_map]
  exact List.filterMap_some

section Dumps
variable (vm : WaiVm)

theorem dumpMemory_ok (arg : Option Text) :
    ∃ lines, dumpMemory vm arg = .ok lines ∧ printedValues lines = [] := by
  rw [dumpMemory_eq]
  rcases memArguments arg with _ | ⟨address, count⟩
  · exact ⟨_, rfl, rfl⟩
  · have hclamp : (if 256 < count then 256 else count).toNat ≤ 256 :=
      (toNat_clamp 256 count).le.trans (Nat.min_le_right _ _)
    simp only
    rcases Nat.lt_or_ge address.toNat waiMemorySize with hlt | hge
    · rw [dumpRange_eq vm hlt hclamp]
      refine ⟨_, rfl, ?_⟩
      rw [printedValues, List.filterMap_map]
      exact List.filterMap_eq_nil_iff.mpr fun _ _ => rfl
    · rw [dumpRange, if_pos hge]
      exact ⟨_, rfl, rfl⟩

theorem dumpStack_ok (arg : Option Text) :
    ∃ lines, dumpStack vm arg = .ok lines ∧ printedValues lines = [] := by
  rw [dumpStack_eq]
  rcases stackArguments arg with _ | count
  · exact ⟨_, rfl, rfl⟩
  · simp only [dumpQwords_eq]
    split
    · exact ⟨_, rfl, rfl⟩
    · refine ⟨_, rfl, ?_⟩
      rw [printedValues, List.filterMap_map]
      exact List.filterMap_eq_nil_iff.mpr fun _ _ => rfl

theorem printedValues_disAround (program : OwnedProgram) : printedValues (disAround program vm) = [] := by
  refine List.filterMap_eq_nil_iff.mpr fun line hline => ?_
  obtain ⟨i, _, hi⟩ := List.mem_filterMap.mp hline
  obtain ⟨ins, _, rfl⟩ := Option.map_eq_some_iff.mp hi
  rfl

end Dumps

/-! ## 2. One round -/

/-- What a round that goes on from `s` to `t` does to the machine and to the printed values. -/
inductive RoundEffect {count : Nat} (s t : DebuggerState count) : Prop
  | quiet : t.vm = s.vm → t.executed = s.executed → printedValues t.out = printedValues s.out →
      RoundEffect s t
  | executes : s.vm.halted = 0 → StepOk s.vm t.vm → t.executed = s.executed + 1 →
      printedValues t.out = printedValues s.out ++ t.vm.emitted.drop s.vm.emitted.length →
      RoundEffect s t

section Rounds
variable {program : OwnedProgram} {s t : DebuggerState program.count} {result : DebuggerEnd}

theorem printed_quiet (out : List DebuggerLine) {lines : List DebuggerLine}
    (h : printedValues lines = []) : printedValues (out ++ lines) = printedValues out := by
  rw [printedValues_append, h, List.append_nil]

/-- The state after a successful `do_step`. -/
theorem doStep_next (h : doStep program s = .next t) :
    ∃ vm, StepOk s.vm vm ∧ t = { s with
      vm := vm
      out := s.out ++ printedBy s.vm vm
      executed := s.executed + 1 } := by
  unfold doStep at h
  split at h
  · cases h
  · next vm hs =>
    cases h
    exact ⟨vm, hs, rfl⟩
  · cases h

theorem doStep_of_stepOk {vm : WaiVm} (h : StepOk s.vm vm) :
    doStep program s = .next { s with
      vm := vm
      out := s.out ++ printedBy s.vm vm
      executed := s.executed + 1 } := by
  unfold doStep
  rw [show waiVmStep s.vm = .ok (.ok, vm) from h]

theorem doStep_of_failed {status : WaiErrorCode} {vm : WaiVm}
    (h : waiVmStep s.vm = .ok (status, vm)) (hne : status ≠ .ok) :
    doStep program s = .done (.returned vm.error
      (s.out ++ printedBy s.vm vm ++ [.runtimeError s.vm.ip status])) := by
  unfold doStep
  rw [h]
  cases status <;> first | rfl | exact absurd rfl hne

/-- What a command does to the breakpoint at `ip`: it sets it, clears it, or leaves it alone. -/
def breakpointChange (count ip : Nat) : DebuggerCommand → Option Bool
  | .doBreak arg => if (parseIndex arg count).map Fin.val = some ip then some true else none
  | .doClear arg => if (parseIndex arg count).map Fin.val = some ip then some false else none
  | _ => none

/-- Everything that the branch of a command can do when the debugger goes on. -/
inductive Dispatch (s : DebuggerState program.count) :
    DebuggerCommand → DebuggerState program.count → Prop
  | writes {command : DebuggerCommand} {lines : List DebuggerLine} :
      printedValues lines = [] → (∀ ip, breakpointChange program.count ip command = none) →
      (command = .doStep → s.vm.halted ≠ 0) → command ≠ .doContinue →
      Dispatch s command (s.say lines)
  | steps {vm : WaiVm} {lines : List DebuggerLine} :
      s.vm.halted = 0 → StepOk s.vm vm → printedValues lines = [] →
      Dispatch s .doStep { s with
        vm := vm
        out := s.out ++ printedBy s.vm vm ++ lines
        executed := s.executed + 1 }
  | continues : Dispatch s .doContinue { s with continuing := true }
  | sets {command : DebuggerCommand} {line : DebuggerLine} (value : Bool)
      (index : Fin program.count) :
      printedValues [line] = [] → command ≠ .doStep → command ≠ .doContinue →
      (∀ ip, breakpointChange program.count ip command =
        if index.val = ip then some value else none) →
      Dispatch s command { s.say [line] with
        breakpoints := Function.update s.breakpoints index value }

theorem inspect_dispatch {command : DebuggerCommand} {lines : Except Fault (List DebuggerLine)}
    (hlines : ∃ l, lines = .ok l ∧ printedValues l = [])
    (hchange : ∀ ip, breakpointChange program.count ip command = none)
    (hstep : command ≠ .doStep) (hcontinue : command ≠ .doContinue)
    (h : inspect program s lines = .next t) : Dispatch s command t := by
  obtain ⟨l, rfl, hl⟩ := hlines
  cases h
  exact .writes hl hchange (fun h => absurd h hstep) hcontinue

theorem setBreakpoint_dispatch {command : DebuggerCommand} {arg : Option Text} {value : Bool}
    {line : Nat → DebuggerLine} (hline : ∀ n, printedValues [line n] = [])
    (hstep : command ≠ .doStep) (hcontinue : command ≠ .doContinue)
    (hchange : ∀ ip, breakpointChange program.count ip command =
      if (parseIndex arg program.count).map Fin.val = some ip then some value else none) :
    Dispatch s command (setBreakpoint program s arg value line) := by
  unfold setBreakpoint
  split
  · next hparse =>
    refine .writes rfl (fun ip => ?_) (fun h => absurd h hstep) hcontinue
    rw [hchange, hparse]
    rfl
  · next index hparse =>
    refine .sets value index (hline _) hstep hcontinue fun ip => ?_
    rw [hchange, hparse, Option.map_some]
    simp only [Option.some.injEq]

/-- The list of what a branch does is complete. -/
theorem dispatch_cases {command : DebuggerCommand}
    (h : debuggerDispatch program s command = .next t) : Dispatch s command t := by
  cases command with
  -- these branches only write
  | help | regs | ip | unknown _ =>
    cases h
    exact .writes rfl (fun _ => rfl) nofun nofun
  | dis =>
    cases h
    exact .writes (printedValues_disAround _ _) (fun _ => rfl) nofun nofun
  | mem arg => exact inspect_dispatch (dumpMemory_ok s.vm arg) (fun _ => rfl) nofun nofun h
  | stack arg => exact inspect_dispatch (dumpStack_ok s.vm arg) (fun _ => rfl) nofun nofun h
  | doStep =>
    rw [debuggerDispatch] at h
    split at h
    · -- on a halted machine `step` says so and calls nothing
      next hhalted =>
      cases h
      exact .writes rfl (fun _ => rfl) (fun _ => hhalted) nofun
    · next h0 =>
      split at h
      · cases h
      · next hs =>
        cases h
        obtain ⟨vm, hok, rfl⟩ := doStep_next hs
        exact .steps (not_not.mp h0) hok (printedValues_disAround _ _)
  | doContinue =>
    cases h
    exact .continues
  | doBreak arg | doClear arg =>
    cases h
    exact setBreakpoint_dispatch (fun _ => rfl) nofun nofun fun _ => rfl
  | quit => cases h

/-- The debugger ends in the branch of a command only for `quit` and for a failed `step`. -/
theorem dispatch_done {command : DebuggerCommand}
    (h : debuggerDispatch program s command = .done result) :
    (command = .quit ∧ result = .returned .ok s.out) ∨
    (command = .doStep ∧ s.vm.halted = 0 ∧ doStep program s = .done result) := by
  -- `mem` and `stack` read within their bounds, so they do not fault
  have hinspect : ∀ {lines}, (∃ l, lines = .ok l ∧ printedValues l = []) →
      inspect program s lines ≠ .done result := by
    rintro lines ⟨l, rfl, _⟩
    exact nofun
  cases command with
  | help | regs | ip | dis | unknown _ | doContinue | doBreak _ | doClear _ => cases h
  | mem arg => exact absurd h (hinspect (dumpMemory_ok s.vm arg))
  | stack arg => exact absurd h (hinspect (dumpStack_ok s.vm arg))
  | doStep =>
    rw [debuggerDispatch] at h
    split at h
    · cases h
    · next h0 =>
      split at h
      · next hstep =>
        cases h
        exact .inr ⟨rfl, not_not.mp h0, hstep⟩
      · cases h
  | quit =>
    cases h
    exact .inl ⟨rfl, rfl⟩

theorem Dispatch.effect {command : DebuggerCommand} (h : Dispatch s command t) :
    RoundEffect s t := by
  cases h with
  | writes hquiet => exact .quiet rfl rfl (printed_quiet _ hquiet)
  | steps h0 hok hquiet =>
    refine .executes h0 hok rfl ((printed_quiet _ hquiet).trans ?_)
    rw [printedValues_append, printedValues_printedBy]
  | continues => exact .quiet rfl rfl rfl
  | sets _ _ hquiet => exact .quiet rfl rfl (printed_quiet _ hquiet)

theorem RoundEffect.of_say {lines : List DebuggerLine} {input : Text}
    {dispatched : List DebuggerCommand} (hlines : printedValues lines = [])
    (h : RoundEffect { s.say lines with input := input, dispatched := dispatched } t) :
    RoundEffect s t := by
  have hout : printedValues (s.out ++ lines) = printedValues s.out := printed_quiet _ hlines
  cases h with
  | quiet hvm hexecuted hprinted => exact .quiet hvm hexecuted (hprinted.trans hout)
  | executes h0 hok hexecuted hprinted =>
    refine .executes h0 hok hexecuted (hprinted.trans ?_)
    exact congrArg (· ++ _) hout

/-- The loop of `continue` stops on a halted machine and at a breakpoint, or executes. -/
theorem continue_cases {o : Outcome (DebuggerState program.count) DebuggerEnd}
    (h : continueRound program s = o) :
    (s.vm.halted ≠ 0 ∧ o = .next { s.say [.halted] with continuing := false }) ∨
    (s.vm.halted = 0 ∧ s.atBreakpoint = true ∧
      o = .next { s.say (.breakpointHit s.vm.ip :: disAround program s.vm) with
        continuing := false }) ∨
    (s.vm.halted = 0 ∧ s.atBreakpoint = false ∧ doStep program s = o) := by
  unfold continueRound at h
  split at h
  · next h1 => exact .inl ⟨h1, h.symm⟩
  · next h0 =>
    split at h
    · next hhit => exact .inr (.inl ⟨not_not.mp h0, hhit, h.symm⟩)
    · next hfree => exact .inr (.inr ⟨not_not.mp h0, Bool.eq_false_of_not_eq_true hfree, h⟩)

/-- What a round that goes on does. -/
theorem round_effect (h : debuggerStep program s = .next t) : RoundEffect s t := by
  unfold debuggerStep at h
  split at h
  · rcases continue_cases h with ⟨_, hnext⟩ | ⟨_, _, hnext⟩ | ⟨h0, _, hstep⟩
    · cases hnext
      exact .quiet rfl rfl (printed_quiet _ rfl)
    · cases hnext
      exact .quiet rfl rfl (printed_quiet _ (printedValues_disAround _ _))
    · obtain ⟨vm, hok, rfl⟩ := doStep_next hstep
      refine .executes h0 hok rfl ?_
      rw [printedValues_append, printedValues_printedBy]
  · unfold promptRound at h
    split at h
    · cases h
    · cases h
      exact .quiet rfl rfl (printed_quiet _ rfl)
    · exact (dispatch_cases h).effect.of_say rfl

end Rounds

/-! ## 3. The invariant -/

/-- The breakpoint at `ip` is active: the last `break` or `clear` of it was a `break`. -/
def ActiveBreakpoint (count : Nat) (commands : List DebuggerCommand) (ip : Nat) : Prop :=
  (commands.filterMap (breakpointChange count ip)).getLast? = some true

instance (count : Nat) (commands : List DebuggerCommand) (ip : Nat) :
    Decidable (ActiveBreakpoint count commands ip) :=
  inferInstanceAs (Decidable (_ = _))

/-- The state of the debugger against the run of the program. -/
structure DebuggerInvariant (program : OwnedProgram) (s : DebuggerState program.count) : Prop where
  reached : ReachesIn stepUntilHalted s.executed program.initialVm s.vm
  breakpoints : ∀ ip, s.breakpoints ip = true ↔ ActiveBreakpoint program.count s.dispatched ip
  printed : printedValues s.out = s.vm.emitted

section Invariant
variable {program : OwnedProgram} {s t : DebuggerState program.count} {input : Text}

/-- The table after one more command. -/
theorem active_append (commands : List DebuggerCommand) (command : DebuggerCommand) (ip : Nat) :
    ActiveBreakpoint program.count (commands ++ [command]) ip ↔
      (breakpointChange program.count ip command).getD
        (decide (ActiveBreakpoint program.count commands ip)) = true := by
  unfold ActiveBreakpoint
  rw [List.filterMap_append, List.filterMap_cons]
  cases breakpointChange program.count ip command with
  | none => simp
  | some value => simp

theorem lt_of_active {commands : List DebuggerCommand} {ip : Nat}
    (h : ActiveBreakpoint program.count commands ip) : ip < program.count := by
  have hmem := List.mem_of_getLast? h
  obtain ⟨command, _, hchange⟩ := List.mem_filterMap.mp hmem
  cases command with
  | doBreak arg =>
    rw [breakpointChange] at hchange
    split at hchange
    · next hparse =>
      obtain ⟨index, _, rfl⟩ := Option.map_eq_some_iff.mp hparse
      exact index.isLt
    · cases hchange
  | doClear arg =>
    rw [breakpointChange] at hchange
    split at hchange <;> cases hchange
  | _ => cases hchange

theorem DebuggerInvariant.atBreakpoint_iff (h : DebuggerInvariant program s) :
    s.atBreakpoint = true ↔ ActiveBreakpoint program.count s.dispatched s.vm.ip.toNat := by
  unfold DebuggerState.atBreakpoint
  split
  · exact h.breakpoints _
  · next hlt => exact ⟨nofun, fun hactive => absurd (lt_of_active hactive) hlt⟩

/-- The table and the commands after the branch of a command. -/
theorem Dispatch.table {command : DebuggerCommand} (h : Dispatch s command t) :
    t.dispatched = s.dispatched ∧ ∀ ip, t.breakpoints ip =
      (breakpointChange program.count ip command).getD (s.breakpoints ip) := by
  cases h with
  | writes _ hchange =>
    refine ⟨rfl, fun ip => ?_⟩
    rw [hchange]
    rfl
  | steps => exact ⟨rfl, fun _ => rfl⟩
  | continues => exact ⟨rfl, fun _ => rfl⟩
  | sets value index _ _ _ hchange =>
    refine ⟨rfl, fun ip => ?_⟩
    simp only [hchange, Function.update_apply, @eq_comm _ ip, ← Fin.val_inj]
    split <;> rfl

/-- A round of the loop of `continue` changes neither. -/
theorem continue_table (h : continueRound program s = .next t) :
    t.dispatched = s.dispatched ∧ t.breakpoints = s.breakpoints := by
  rcases continue_cases h with ⟨_, hnext⟩ | ⟨_, _, hnext⟩ | ⟨_, _, hstep⟩
  · cases hnext
    exact ⟨rfl, rfl⟩
  · cases hnext
    exact ⟨rfl, rfl⟩
  · obtain ⟨vm, _, rfl⟩ := doStep_next hstep
    exact ⟨rfl, rfl⟩

/-- A machine that the iteration reaches is under the invariant of the program's code. -/
theorem reached_machine {vm : WaiVm} {n : Nat} {code : List WaiInstruction}
    (hc : program.code = some code) (h : ReachesIn stepUntilHalted n program.initialVm vm) :
    ∃ d, MachineInvariant code vm d := by
  have hreach := stepReach_of_reaches ⟨n, h⟩
  rw [program.initialVm_eq hc] at hreach
  exact invariant_reach (program.length_lt hc) hreach

/-- Without an array no instruction is executed. -/
theorem reached_null {vm : WaiVm} {n : Nat} (hc : program.code = none)
    (h : ReachesIn stepUntilHalted n program.initialVm vm) : vm = program.initialVm := by
  rcases Relation.ReflTransGen.cases_head (stepReach_of_reaches ⟨n, h⟩) with rfl | ⟨_, hs, _⟩
  · rfl
  · obtain ⟨code, hcode⟩ := code_of_stepOk hs
    cases hc.symm.trans hcode

/-- A step of a machine that the iteration reaches only adds to what was emitted. -/
theorem reached_emitted {vm vm' : WaiVm} {n : Nat}
    (h : ReachesIn stepUntilHalted n program.initialVm vm) (hok : StepOk vm vm') :
    vm.emitted <+: vm'.emitted := by
  cases hc : program.code with
  | none =>
    -- a machine without an array makes no step
    rw [reached_null hc h] at hok
    obtain ⟨code, hcode⟩ := code_of_stepOk hok
    cases hc.symm.trans hcode
  | some code =>
    obtain ⟨d, hinv⟩ := reached_machine hc h
    exact step_emitted (program.length_lt hc) hinv hok

theorem invariant_start (input : Text) : DebuggerInvariant program (debuggerStart program input) where
  reached := rfl
  breakpoints := fun _ => ⟨nofun, nofun⟩
  printed := rfl

/-- Every round keeps the invariant. -/
theorem invariant_round (h : DebuggerInvariant program s)
    (hs : debuggerStep program s = .next t) : DebuggerInvariant program t := by
  -- only a dispatched command changes the table, and it is the last one that counts
  have htable : ∀ ip, t.breakpoints ip = true ↔
      ActiveBreakpoint program.count t.dispatched ip := by
    unfold debuggerStep at hs
    split at hs
    · obtain ⟨hdispatched, hbreakpoints⟩ := continue_table hs
      rw [hdispatched, hbreakpoints]
      exact h.breakpoints
    · unfold promptRound at hs
      split at hs
      · cases hs
      · cases hs
        exact h.breakpoints
      · next command _ _ =>
        obtain ⟨hdispatched, hbreakpoints⟩ := (dispatch_cases hs).table
        intro ip
        have hold : s.breakpoints ip =
            decide (ActiveBreakpoint program.count s.dispatched ip) := by
          rw [Bool.eq_iff_iff, h.breakpoints, decide_eq_true_iff]
        rw [hdispatched, hbreakpoints, active_append]
        exact iff_of_eq (congrArg (fun old => (_ : Option Bool).getD old = true) hold)
  -- the machine and what is printed change together, as the effect of the round says
  cases round_effect hs with
  | quiet hvm hexecuted hprinted =>
    refine ⟨?_, htable, ?_⟩
    · rw [hvm, hexecuted]
      exact h.reached
    · rw [hprinted, hvm]
      exact h.printed
  | executes h0 hok hexecuted hprinted =>
    refine ⟨?_, htable, ?_⟩
    · rw [hexecuted]
      refine Machine.reachesIn_succ h.reached ?_
      rw [stepUntilHalted, if_neg (not_not_intro h0), show waiVmStep s.vm = .ok (.ok, t.vm) from hok]
    · obtain ⟨rest, hrest⟩ := reached_emitted h.reached hok
      rw [hprinted, h.printed, ← hrest, List.drop_left]

/-- `wai_debugger_run` on `input` passes the state `s`. -/
def DebuggerReaches (program : OwnedProgram) (input : Text) (s : DebuggerState program.count) : Prop :=
  Reaches (debuggerStep program) (debuggerStart program input) s

/-- The invariant holds in every state that the debugger passes. -/
theorem debugger_invariant (h : DebuggerReaches program input s) : DebuggerInvariant program s :=
  Machine.reaches_invariant (fun _ _ hs hstep => invariant_round hs hstep) h (invariant_start input)

end Invariant

end Waivm
