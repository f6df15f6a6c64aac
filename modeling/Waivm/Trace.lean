import Waivm.Division
import Waivm.EngineRun
import Waivm.PrintStream

/-!
# Tracing a program (`trace.h`, `trace.c`)

`wai_trace_program` runs the C stepper in a loop of its own: it tests `ip`
before the step, stops after `WAI_TRACE_MAX_STEPS` steps, and writes a row for
each instruction. The model keeps the output as a list of lines; `render` gives
their text.

Results:
1. `trace_run`: from a state of the loop the trace ends, and what it has written
   then agrees with the run of the program.
2. `trace_agrees`: the trace of a program against `wai_vm_exec_asm` on it.
-/

namespace Waivm

open LittleEndian (Byte)
open X86 (Reg Val)
open Machine (Outcome ReachesIn Ends)

/-- `WAI_TRACE_MAX_STEPS` -/
def waiTraceMaxSteps : Nat := 1000000

/-! ## 1. The output -/

/-- What a row of the trace shows: the instruction and the `ip` before it, and
the machine after it. -/
structure TraceRow where
  beforeIp : BitVec 64
  instruction : WaiInstruction
  ip : BitVec 64
  zf : Byte
  sp : BitVec 64
  regs : Fin waiRegisterCount → WaiValue
  print : Option WaiValue

/-- The lines of the trace. -/
inductive TraceLine
  | start (count : Nat)
  | row (row : TraceRow)
  | stepLimit
  | outOfBounds (steps : Nat) (ip : BitVec 64)
  | stepError (steps : Nat) (status : WaiErrorCode)
  | finished (steps : Nat) (printCount : BitVec 64)

/-- `%04llu` -/
def zeroPadded (n : Nat) : String :=
  "".pushn '0' (4 - (toString n).length) ++ toString n

/-- `%-8s` -/
def leftJustified (s : String) : String :=
  s.pushn ' ' (8 - s.length)

/-- `print_register_summary` -/
def printRegisterSummary (row : TraceRow) : String :=
  "ip=" ++ toString row.ip.toNat ++ " zf=" ++ toString row.zf.toNat ++
    " sp=" ++ toString row.sp.toNat ++
    String.join ((List.finRange waiRegisterCount).map fun r =>
      " r" ++ toString r.val ++ "=" ++ toString (row.regs r).toInt)

/-- The text of a row. -/
def TraceRow.render (row : TraceRow) : String :=
  zeroPadded row.beforeIp.toNat ++ "  " ++ leftJustified (waiOpcodeName row.instruction.opcode) ++
    " a=" ++ toString row.instruction.a.toNat ++ " b=" ++ toString row.instruction.b.toNat ++
    " imm=" ++ toString row.instruction.imm.toInt ++ "\n      => " ++ printRegisterSummary row ++
    (match row.print with
      | some value => " print=" ++ toString value.toInt
      | none => "") ++ "\n"

/-- The text of a line. -/
def TraceLine.render : TraceLine → String
  | .start count => "trace start: " ++ toString count ++ " instructions\n"
  | .row r => r.render
  | .stepLimit => "trace stopped: step limit " ++ toString waiTraceMaxSteps ++ " reached\n"
  | .outOfBounds steps ip => "trace error before step " ++ toString steps ++ ": ip " ++
      toString ip.toNat ++ " out of bounds\n"
  | .stepError steps status => "trace error after step " ++ toString steps ++ ": " ++
      waiErrorString status ++ "\n"
  | .finished steps printCount => "trace end: " ++ toString steps ++ " steps, " ++
      toString printCount.toNat ++ " prints\n"

/-- The rows among the lines. -/
def rowsOf (lines : List TraceLine) : List TraceRow :=
  lines.filterMap fun
    | .row row => some row
    | _ => none

/-- The values of the `print=` annotations. -/
def printsOf (lines : List TraceLine) : List WaiValue :=
  (rowsOf lines).filterMap (·.print)

/-! ## 2. The loop -/

/-- The state at the head of the loop: the machine, the number of steps and the
lines written so far. -/
structure TraceState where
  vm : WaiVm
  steps : Nat
  lines : List TraceLine

/-- How `wai_trace_program` ends. -/
inductive TraceEnd
  | returned (status : WaiErrorCode) (lines : List TraceLine)
  | fault (f : Fault)

/-- The row that is written for an instruction. -/
def traceRow (before : WaiVm) (ins : WaiInstruction) (after : WaiVm) : TraceRow where
  beforeIp := before.ip
  instruction := ins
  ip := after.ip
  zf := after.zf
  sp := after.sp
  regs := after.regs
  print := if after.printCount ≠ before.printCount then some after.lastPrint else none

/-- One round of the loop of `wai_trace_program`. -/
def traceIteration (program : OwnedProgram) (s : TraceState) : Outcome TraceState TraceEnd :=
  if s.vm.halted ≠ 0 then
    .done (.returned .ok (s.lines ++ [.finished s.steps s.vm.printCount]))
  else if waiTraceMaxSteps ≤ s.steps then
    .done (.returned .errUnsupported (s.lines ++ [.stepLimit]))
  else if s.vm.codeCount ≤ s.vm.ip then
    .done (.returned .errIpOutOfBounds (s.lines ++ [.outOfBounds s.steps s.vm.ip]))
  else
    match program.instructions[s.vm.ip.toNat]? with
    | none => .done (.fault .access)
    | some ins =>
      match waiVmStep s.vm with
      | .error f => .done (.fault f)
      | .ok (.ok, vm) => .next ⟨vm, s.steps + 1, s.lines ++ [.row (traceRow s.vm ins vm)]⟩
      | .ok (status, vm) =>
        .done (.returned status
          (s.lines ++ [.row (traceRow s.vm ins vm), .stepError s.steps status]))

/-- The state in which `wai_trace_program` enters its loop. -/
def traceStart (program : OwnedProgram) : TraceState where
  vm := waiVmSetPrintStream program.initialVm false
  steps := 0
  lines := [.start program.count]

/-! ## 3. One round -/

/-- The row of an instruction shows what the instruction did. -/
structure RowShows (row : TraceRow) (before after : WaiVm) : Prop where
  before_ip : row.beforeIp = before.ip
  instruction : before.current = some row.instruction
  ip : row.ip = after.ip
  zf : row.zf = after.zf
  sp : row.sp = after.sp
  regs : row.regs = after.regs
  prints : after.emitted = before.emitted ++ row.print.toList

section Round
variable {vm vm' : WaiVm} {ins : WaiInstruction} {status : WaiErrorCode}

theorem prints_nothing (hcount : vm'.printCount = vm.printCount)
    (hemitted : vm'.emitted = vm.emitted) :
    vm'.emitted = vm.emitted ++
      (if vm'.printCount ≠ vm.printCount then some vm'.lastPrint else none).toList := by
  rw [if_neg (not_not_intro hcount), hemitted]
  exact (List.append_nil _).symm

/-- An effect prints the value that the trace annotates, or nothing. -/
theorem effect_prints (h : Effect vm ins status vm') :
    vm'.emitted = vm.emitted ++
      (if vm'.printCount ≠ vm.printCount then some vm'.lastPrint else none).toList := by
  cases h with
  | print _ =>
    have hne : vm.printCount + 1 ≠ vm.printCount := by
      intro he
      have h1 := congrArg BitVec.toNat he
      rw [BitVec.toNat_add, show (1 : BitVec 64).toNat = 1 from rfl] at h1
      have hlt := vm.printCount.isLt
      omega
    show _ = _ ++ (if vm.printCount + 1 ≠ vm.printCount then some _ else none).toList
    rw [if_pos hne]
    rfl
  | _ => exact prints_nothing rfl rfl

/-- What a call on a machine that is not halted and has code left shows in its row. -/
theorem row_shows {code : List WaiInstruction} {d : Nat} (hlen : code.length < 2 ^ 64)
    (h : MachineInvariant code vm d) (hcur : vm.current = some ins)
    (hs : waiVmStep vm = .ok (status, vm')) :
    RowShows (traceRow (waiVmSetPrintStream vm false) ins (waiVmSetPrintStream vm' false))
      vm vm' := by
  obtain ⟨hlt, hstep⟩ := current_step hlen h hcur
  have heffect : Effect vm.fetched ins status vm' :=
    switch_effect (invariant_fetched h hlt).sp_le (hstep.symm.trans hs)
  have hprints := effect_prints heffect
  exact ⟨rfl, hcur, rfl, rfl, rfl, rfl, hprints⟩

theorem step_ne_unsupported {code : List WaiInstruction} {d : Nat} (hlen : code.length < 2 ^ 64)
    (h : MachineInvariant code vm d) : waiVmStep vm ≠ .ok (.errUnsupported, vm') := by
  intro hs
  rcases step_cases h hlen with ⟨_, _, he⟩ | ⟨_, _, _, he⟩ | ⟨ins, _, hlt, _, _, he⟩
  · cases he.symm.trans hs
  · cases he.symm.trans hs
  · cases switch_effect (invariant_fetched h hlt).sp_le (he.symm.trans hs)

end Round

/-! ## 4. The whole trace -/

section Trace
variable {program : OwnedProgram} {vm vm' : WaiVm} {ins : WaiInstruction} {n : Nat}
  {status : WaiErrorCode}

/-- The rows show the first instructions of the run of the program. -/
def RowsShow (program : OwnedProgram) (rows : List TraceRow) : Prop :=
  ∀ k row, rows[k]? = some row → ∃ before after,
    ReachesIn instructionStep k program.initialVm before ∧
    (ReachesIn instructionStep (k + 1) program.initialVm after ∨
      ∃ status, instructionStep before = .done (.stopped status after)) ∧
    RowShows row before after

/-- The loop of the trace is at the machine after `n` instructions, and has
written what they did. -/
structure TraceAt (program : OwnedProgram) (s : TraceState) (n : Nat) (vm : WaiVm) : Prop where
  machine : s.vm = waiVmSetPrintStream vm false
  steps : s.steps = n
  reached : ReachesIn instructionStep n program.initialVm vm
  running : vm.halted = 0
  rows_length : (rowsOf s.lines).length = n
  rows_show : RowsShow program (rowsOf s.lines)
  prints : printsOf s.lines = vm.emitted

/-- Every instruction of the run up to the step limit has a row. -/
def RowsComplete (program : OwnedProgram) (rows : List TraceRow) : Prop :=
  ∀ k < waiTraceMaxSteps, ∀ vm, ReachesIn instructionStep k program.initialVm vm →
    vm.current ≠ none → k < rows.length

/-- What the trace of a program returns and has written: the run ends with the
status within the step limit, or the limit was reached. -/
def TraceResult (program : OwnedProgram) (status : WaiErrorCode) (lines : List TraceLine) : Prop :=
  RowsShow program (rowsOf lines) ∧ RowsComplete program (rowsOf lines) ∧
  ((status ≠ .errUnsupported ∧ ∃ n < waiTraceMaxSteps, ∃ vm vm',
      ReachesIn instructionStep n program.initialVm vm ∧
      instructionStep vm = .done (.stopped status vm') ∧ printsOf lines = vm'.emitted) ∨
    (status = .errUnsupported ∧ ∃ vm,
      ReachesIn instructionStep waiTraceMaxSteps program.initialVm vm ∧
      printsOf lines = vm.emitted))

theorem rowsOf_append (lines lines' : List TraceLine) :
    rowsOf (lines ++ lines') = rowsOf lines ++ rowsOf lines' :=
  List.filterMap_append

theorem printsOf_append (lines lines' : List TraceLine) :
    printsOf (lines ++ lines') = printsOf lines ++ printsOf lines' := by
  rw [printsOf, rowsOf_append, List.filterMap_append]
  rfl

/-- One more row behind those of the first `n` instructions. -/
theorem rowsShow_append {rows : List TraceRow} {row : TraceRow} (h : RowsShow program rows)
    (hlen : rows.length = n) (hreach : ReachesIn instructionStep n program.initialVm vm)
    (hafter : ReachesIn instructionStep (n + 1) program.initialVm vm' ∨
      ∃ status, instructionStep vm = .done (.stopped status vm'))
    (hrow : RowShows row vm vm') : RowsShow program (rows ++ [row]) := by
  intro k r hk
  rcases Nat.lt_trichotomy k rows.length with hlt | heq | hgt
  · rw [List.getElem?_append_left hlt] at hk
    exact h k r hk
  · rw [heq, List.getElem?_concat_length] at hk
    cases hk
    rw [heq, hlen]
    exact ⟨vm, vm', hreach, hafter, hrow⟩
  · rw [List.getElem?_eq_none (by rw [List.length_append]; exact hgt)] at hk
    cases hk

/-- When the run ends in an instruction that has a row, every instruction has one. -/
theorem rowsComplete_append {rows : List TraceRow} {row : TraceRow} (hlen : rows.length = n)
    (hreach : ReachesIn instructionStep n program.initialVm vm)
    (hdone : instructionStep vm = .done (.stopped status vm')) :
    RowsComplete program (rows ++ [row]) := by
  intro k _ vm₁ hk _
  rw [List.length_append, hlen]
  exact Nat.lt_succ_of_le (Machine.reachesIn_le_of_done hreach hdone hk)

/-- A row adds what its instruction printed. -/
theorem prints_append {lines : List TraceLine} {row : TraceRow} (h : printsOf lines = vm.emitted)
    (hrow : RowShows row vm vm') : printsOf (lines ++ [.row row]) = vm'.emitted := by
  rw [printsOf_append, h, hrow.prints]
  cases hp : row.print <;> simp [printsOf, rowsOf, hp]

/-- A line that is no row changes neither the rows nor the values. -/
theorem lines_append {lines tail : List TraceLine} (htail : rowsOf tail = []) :
    rowsOf (lines ++ tail) = rowsOf lines ∧ printsOf (lines ++ tail) = printsOf lines := by
  have hprints : printsOf tail = [] := by
    rw [printsOf, htail]
    rfl
  exact ⟨by rw [rowsOf_append, htail, List.append_nil],
    by rw [printsOf_append, hprints, List.append_nil]⟩

/-- The trace is complete when the run ends in an instruction whose row is the last one. -/
theorem traceResult_of_row {s : TraceState} (h : TraceAt program s n vm) (hn : n < waiTraceMaxSteps)
    (hne : status ≠ .errUnsupported) (hdone : instructionStep vm = .done (.stopped status vm'))
    {row : TraceRow} (hrow : RowShows row vm vm') {tail : List TraceLine} (htail : rowsOf tail = []) :
    TraceResult program status ((s.lines ++ [.row row]) ++ tail) := by
  obtain ⟨hrows, hprints⟩ := @lines_append (s.lines ++ [.row row]) tail htail
  refine ⟨?_, ?_, .inl ⟨hne, n, hn, vm, vm', h.reached, hdone, ?_⟩⟩
  · rw [hrows, rowsOf_append]
    exact rowsShow_append h.rows_show h.rows_length h.reached (.inr ⟨_, hdone⟩) hrow
  · rw [hrows, rowsOf_append]
    exact rowsComplete_append h.rows_length h.reached hdone
  · rw [hprints]
    exact prints_append h.prints hrow

/-- Behind the last instruction the run and the trace end. -/
theorem trace_past_end {s : TraceState} (h : TraceAt program s n vm) (hn : n < waiTraceMaxSteps)
    (hip : vm.codeCount ≤ vm.ip) (hnone : vm.current = none) :
    ∃ lines, Ends (traceIteration program) s (.returned .errIpOutOfBounds lines) ∧
      TraceResult program .errIpOutOfBounds lines := by
  have hround : traceIteration program s =
      .done (.returned .errIpOutOfBounds (s.lines ++ [.outOfBounds s.steps s.vm.ip])) := by
    unfold traceIteration
    rw [if_neg (h.machine ▸ not_not_intro h.running),
      if_neg (h.steps.symm ▸ Nat.not_le.mpr hn)]
    exact if_pos (h.machine ▸ hip)
  have hdone := instructionStep_past_end h.running hip
  obtain ⟨hrows, hprints⟩ := @lines_append s.lines [.outOfBounds s.steps s.vm.ip] rfl
  refine ⟨_, Machine.ends_of_done hround, ?_, ?_,
    .inl ⟨by decide, n, hn, vm, _, h.reached, hdone, ?_⟩⟩
  · rw [hrows]
    exact h.rows_show
  · -- there is a row for every instruction, and none stands here
    intro k _ vm₁ hk hcur
    have hle := Machine.reachesIn_le_of_done h.reached hdone hk
    rw [hrows, h.rows_length]
    refine Nat.lt_of_le_of_ne hle ?_
    rintro rfl
    cases hk.symm.trans h.reached
    exact hcur hnone
  · rw [hprints]
    exact h.prints

/-- A round at an instruction calls `wai_vm_step` and writes a row. -/
theorem trace_fetch {s : TraceState} (h : TraceAt program s n vm) (hn : n < waiTraceMaxSteps)
    (hlt : vm.ip < vm.codeCount) (hget : program.instructions[vm.ip.toNat]? = some ins) :
    traceIteration program s =
      match waiVmStep s.vm with
      | .error f => .done (.fault f)
      | .ok (.ok, vm') => .next ⟨vm', s.steps + 1, s.lines ++ [.row (traceRow s.vm ins vm')]⟩
      | .ok (status, vm') => .done (.returned status
        (s.lines ++ [.row (traceRow s.vm ins vm'), .stepError s.steps status])) := by
  have hip : s.vm.ip = vm.ip := by
    rw [h.machine]
    rfl
  unfold traceIteration
  rw [if_neg (h.machine ▸ not_not_intro h.running), if_neg (h.steps.symm ▸ Nat.not_le.mpr hn),
    if_neg (h.machine ▸ BitVec.not_le.mpr hlt), hip, hget]

/-- One round of the trace, below the step limit: it executes the next
instruction of the run and writes its row, or the run and the trace end. -/
theorem trace_round (hdiv : ∀ vm, StepReach program.initialVm vm → ¬ DividesMinByMinusOne vm)
    {s : TraceState} (h : TraceAt program s n vm) (hn : n < waiTraceMaxSteps) :
    (∃ s' vm', traceIteration program s = .next s' ∧ TraceAt program s' (n + 1) vm') ∨
    (∃ status lines, Ends (traceIteration program) s (.returned status lines) ∧
      TraceResult program status lines) := by
  rcases reached_cases h.reached h.running with ⟨hip, hnone⟩ | ⟨d, ins, hinv, hget, hcur, hlt⟩
  · obtain ⟨lines, hends, hresult⟩ := trace_past_end h hn hip hnone
    exact .inr ⟨_, lines, hends, hresult⟩
  have hlen : program.instructions.length < 2 ^ 64 :=
    Nat.lt_of_le_of_lt program.length_le maxInstructions_lt
  have hfetch := trace_fetch h hn hlt hget
  have hnext : instructionStep vm = resultOutcome (waiVmStep vm) := by
    rw [instructionStep_eq hinv.code_eq]
    exact if_neg (not_not_intro h.running)
  rw [h.machine, step_setPrintStream] at hfetch
  cases hs : waiVmStep vm with
  | error f =>
    obtain ⟨_, hins, hover, ho⟩ := (step_fault_iff hlen hinv f).mp hs
    exact absurd ⟨hins, hover, ho⟩ (hdiv vm (stepReach_of_reachesIn h.reached))
  | ok result =>
    obtain ⟨status, vm'⟩ := result
    have hrow := row_shows hlen hinv hcur hs
    rw [hs] at hfetch hnext
    by_cases hok : status = .ok
    · subst hok
      by_cases h1 : vm'.halted = 0
      · rw [resultOutcome_next h1] at hnext
        have hreach' := Machine.reachesIn_succ h.reached hnext
        refine .inl ⟨_, vm', hfetch, rfl, congrArg (· + 1) h.steps, hreach', h1, ?_, ?_,
          prints_append h.prints hrow⟩
        · rw [rowsOf_append, List.length_append, h.rows_length]
          rfl
        · rw [rowsOf_append]
          exact rowsShow_append h.rows_show h.rows_length h.reached (.inl hreach') hrow
      · -- the `HALT` has been executed, and the next round leaves the loop
        have hdone : instructionStep vm = .done (.stopped .ok vm') := hnext.trans (if_pos h1)
        have hlast : traceIteration program ⟨waiVmSetPrintStream vm' false, s.steps + 1, s.lines ++
            [.row (traceRow (waiVmSetPrintStream vm false) ins (waiVmSetPrintStream vm' false))]⟩ =
            .done (.returned .ok _) := if_pos h1
        exact .inr ⟨_, _, Machine.ends_of_reaches (Machine.reaches_of_next hfetch)
          (Machine.ends_of_done hlast), traceResult_of_row h hn (by decide) hdone hrow rfl⟩
    · rw [resultOutcome_error hok] at hnext
      have hround : traceIteration program s =
          .done (.returned status ((s.lines ++ [.row (traceRow (waiVmSetPrintStream vm false) ins
            (waiVmSetPrintStream vm' false))]) ++ [.stepError s.steps status])) := by
        rw [hfetch, List.append_assoc]
        cases status <;> first | rfl | exact absurd rfl hok
      have hne : status ≠ .errUnsupported := by
        rintro rfl
        exact step_ne_unsupported hlen hinv hs
      exact .inr ⟨_, _, Machine.ends_of_done hround, traceResult_of_row h hn hne hnext hrow rfl⟩

/-- From a state of the loop the trace ends. The induction is on the number of
steps that are left to the limit. -/
theorem trace_run (hdiv : ∀ vm, StepReach program.initialVm vm → ¬ DividesMinByMinusOne vm)
    {s : TraceState} {left : Nat} (hleft : n + left = waiTraceMaxSteps)
    (h : TraceAt program s n vm) :
    ∃ status lines, Ends (traceIteration program) s (.returned status lines) ∧
      TraceResult program status lines := by
  induction left generalizing s n vm with
  | zero =>
    rw [Nat.add_zero] at hleft
    have hround : traceIteration program s =
        .done (.returned .errUnsupported (s.lines ++ [.stepLimit])) := by
      unfold traceIteration
      rw [if_neg (h.machine ▸ not_not_intro h.running)]
      exact if_pos (Nat.le_of_eq (hleft.symm.trans h.steps.symm))
    obtain ⟨hrows, hprints⟩ := @lines_append s.lines [.stepLimit] rfl
    refine ⟨_, _, Machine.ends_of_done hround, ?_, ?_, .inr ⟨rfl, vm, hleft ▸ h.reached, ?_⟩⟩
    · rw [hrows]
      exact h.rows_show
    · intro k hk _ _ _
      rw [hrows, h.rows_length, hleft]
      exact hk
    · rw [hprints]
      exact h.prints
  | succ left ih =>
    have hn : n < waiTraceMaxSteps := by
      rw [← hleft]
      exact Nat.lt_add_of_pos_right (Nat.succ_pos left)
    rcases trace_round hdiv h hn with ⟨s', vm', hnext, h'⟩ | hend
    · obtain ⟨status, lines, hends, hresult⟩ := ih (by rw [← hleft, Nat.add_right_comm]; rfl) h'
      exact ⟨status, lines, Machine.ends_of_reaches (Machine.reaches_of_next hnext) hends, hresult⟩
    · exact hend

theorem traceStart_at (program : OwnedProgram) :
    TraceAt program (traceStart program) 0 program.initialVm :=
  ⟨rfl, rfl, rfl, rfl, rfl, fun _ _ h => (nomatch h), rfl⟩

end Trace

/-! ## 5. What a run prints -/

section Prints
variable {vm vm' : WaiVm} {status : WaiErrorCode}

theorem step_emitted {code : List WaiInstruction} {d : Nat} (hlen : code.length < 2 ^ 64)
    (h : MachineInvariant code vm d) (hs : waiVmStep vm = .ok (status, vm')) :
    vm.emitted <+: vm'.emitted := by
  rcases step_cases h hlen with ⟨_, _, he⟩ | ⟨_, _, _, he⟩ | ⟨ins, _, hlt, _, _, he⟩
  · cases he.symm.trans hs
    exact List.prefix_rfl
  · cases he.symm.trans hs
    exact List.prefix_rfl
  · have heffect := switch_effect (invariant_fetched h hlt).sp_le (he.symm.trans hs)
    exact ⟨_, (effect_prints heffect).symm⟩

/-- An instruction only adds to what has been printed. -/
theorem instructionStep_emitted (h : Runnable vm) :
    (∀ vm', instructionStep vm = .next vm' → Runnable vm' ∧ vm.emitted <+: vm'.emitted) ∧
    ∀ status vm', instructionStep vm = .done (.stopped status vm') →
      vm.emitted <+: vm'.emitted := by
  rcases h with ⟨code, d, hlen, hinv⟩ | ⟨h0, hip⟩
  · have hlt : code.length < 2 ^ 64 := Nat.lt_of_le_of_lt hlen maxInstructions_lt
    rw [instructionStep_eq hinv.code_eq]
    constructor
    · intro vm' hs
      have hok := (engineStep_next hs).2.1
      obtain ⟨d', hinv', _⟩ := invariant_step hlt hinv hok
      exact ⟨.inl ⟨code, d', hlen, hinv'⟩, step_emitted hlt hinv hok⟩
    · intro status vm' hs
      rcases engineStep_stopped hs with ⟨rfl, _, _⟩ | ⟨hs', _⟩
      · exact List.prefix_rfl
      · exact step_emitted hlt hinv hs'
  · rw [instructionStep_past_end h0 hip]
    constructor
    · intro vm' hs
      cases hs
    · intro status vm' hs
      cases hs
      exact List.prefix_rfl

/-- What has been printed after `m` instructions is the beginning of what a run
prints that ends after `n` or more. -/
theorem emitted_prefix {m n : Nat} {vm₁ vm₂ : WaiVm} (h : Runnable vm)
    (hm : ReachesIn instructionStep m vm vm₁) (hn : ReachesIn instructionStep n vm vm₂)
    (hdone : instructionStep vm₂ = .done (.stopped status vm')) :
    vm₁.emitted <+: vm'.emitted := by
  have hle : m ≤ n := Machine.reachesIn_le_of_done hn hdone hm
  have hrest : Machine.Reaches instructionStep vm₁ vm₂ := by
    refine ⟨n - m, (Machine.run_add hm (n - m)).symm.trans ?_⟩
    rw [Nat.add_sub_cancel' hle]
    exact hn
  have hrun : Runnable vm₁ := Machine.reaches_invariant
    (fun _ _ hr hs => ((instructionStep_emitted hr).1 _ hs).1) ⟨m, hm⟩ h
  obtain ⟨hrun₂, hprefix⟩ : Runnable vm₂ ∧ vm₁.emitted <+: vm₂.emitted :=
    Machine.reaches_invariant (I := fun vm => Runnable vm ∧ vm₁.emitted <+: vm.emitted)
      (fun _ _ ⟨hr, hp⟩ hs =>
        have ⟨hr', hp'⟩ := (instructionStep_emitted hr).1 _ hs
        ⟨hr', hp.trans hp'⟩) hrest ⟨hrun, List.prefix_rfl⟩
  exact hprefix.trans ((instructionStep_emitted hrun₂).2 _ _ hdone)

end Prints

/-! ## 6. Tracing and running -/

/-- Tracing agrees with running. The trace of a program always ends. It returns
`WAI_OK` exactly when the run reaches `HALT` within the step limit, an error
exactly when the run fails with it after fewer successful instructions than the
limit, and `WAI_ERR_UNSUPPORTED` otherwise. Row `k` shows what instruction `k`
of the run did, there is a row for every instruction up to the limit, and the
annotated values are what the run prints, or what it has printed when the limit
is reached. -/
theorem trace_agrees (program : OwnedProgram)
    (hdiv : ∀ vm, StepReach program.initialVm vm → ¬ DividesMinByMinusOne vm)
    (regs : Reg → Val Object) :
    ∃ status lines, Ends (traceIteration program) (traceStart program) (.returned status lines) ∧
      (status = .ok ↔ ∃ n < waiTraceMaxSteps, ∃ vm, Finishes regs program.initialVm n .ok vm) ∧
      (∀ e, e ≠ .ok → e ≠ .errUnsupported →
        (status = e ↔ ∃ n < waiTraceMaxSteps, ∃ vm, Finishes regs program.initialVm n e vm)) ∧
      ((¬ ∃ n < waiTraceMaxSteps, ∃ e vm, e ≠ .errUnsupported ∧
        Finishes regs program.initialVm n e vm) → status = .errUnsupported) ∧
      (∀ k row, (rowsOf lines)[k]? = some row → ∃ before after,
        Executed regs program.initialVm k before ∧
        (Executed regs program.initialVm (k + 1) after ∨
          ∃ e, Finishes regs program.initialVm k e after) ∧
        RowShows row before after) ∧
      (∀ k < waiTraceMaxSteps, ∀ vm, Executed regs program.initialVm k vm →
        vm.current ≠ none → k < (rowsOf lines).length) ∧
      (status ≠ .errUnsupported → ∀ c, Ends asmStep (asmEntry regs program.initialVm) (.returned c) →
        printsOf lines = c.mem.emitted) ∧
      (status = .errUnsupported →
        (∃ vm, Executed regs program.initialVm waiTraceMaxSteps vm ∧ printsOf lines = vm.emitted) ∧
        ∀ c, Ends asmStep (asmEntry regs program.initialVm) (.returned c) →
          printsOf lines <+: c.mem.emitted) := by
  have hrun := initial_runnable program
  obtain ⟨status, lines, hends, hrows, hcomplete, hresult⟩ :=
    trace_run hdiv (Nat.zero_add waiTraceMaxSteps) (traceStart_at program)
  -- a run that ends within the limit ends with the status of the trace
  have hstatus : ∀ n e vm, n < waiTraceMaxSteps → Finishes regs program.initialVm n e vm →
      status = e := by
    intro n e vm hn hfinish
    obtain ⟨vm₁, hreach, hdone⟩ := (finishes_iff hrun).mp hfinish
    rcases hresult with ⟨_, m, _, vm₂, vm₃, hreach', hdone', _⟩ | ⟨_, vm₂, hlimit, _⟩
    · obtain ⟨_, _, he⟩ := Machine.endsIn_unique hreach hdone hreach' hdone'
      cases he
      rfl
    · have hle := Machine.reachesIn_le_of_done hreach hdone hlimit
      exact absurd hn (Nat.not_lt.mpr hle)
  -- and a status other than that of the limit is the result of such a run
  have hfinish : status ≠ .errUnsupported →
      ∃ n < waiTraceMaxSteps, ∃ vm, Finishes regs program.initialVm n status vm ∧
        printsOf lines = vm.emitted := by
    intro hne
    rcases hresult with ⟨_, n, hn, vm₁, vm₂, hreach, hdone, hprints⟩ | ⟨he, _⟩
    · exact ⟨n, hn, vm₂, (finishes_iff hrun).mpr ⟨vm₁, hreach, hdone⟩, hprints⟩
    · exact absurd he hne
  refine ⟨status, lines, hends, ?_, ?_, ?_, ?_, ?_, ?_, ?_⟩
  · constructor
    · rintro rfl
      obtain ⟨n, hn, vm, hf, _⟩ := hfinish (by decide)
      exact ⟨n, hn, vm, hf⟩
    · rintro ⟨n, hn, vm, hf⟩
      exact hstatus n .ok vm hn hf
  · intro e _ hne
    constructor
    · rintro rfl
      obtain ⟨n, hn, vm, hf, _⟩ := hfinish hne
      exact ⟨n, hn, vm, hf⟩
    · rintro ⟨n, hn, vm, hf⟩
      exact hstatus n e vm hn hf
  · intro hno
    by_contra hne
    obtain ⟨n, hn, vm, hf, _⟩ := hfinish hne
    exact hno ⟨n, hn, status, vm, hne, hf⟩
  · intro k row hk
    obtain ⟨before, after, hbefore, hafter, hrow⟩ := hrows k row hk
    refine ⟨before, after, (executed_iff hrun).mpr hbefore, ?_, hrow⟩
    rcases hafter with hnext | ⟨e, hdone⟩
    · exact .inl ((executed_iff hrun).mpr hnext)
    · exact .inr ⟨e, (finishes_iff hrun).mpr ⟨before, hbefore, hdone⟩⟩
  · intro k hk vm hvm hcur
    exact hcomplete k hk vm ((executed_iff hrun).mp hvm) hcur
  · intro hne c hc
    rcases hresult with ⟨_, n, _, vm₁, vm₂, hreach, hdone, hprints⟩ | ⟨he, _⟩
    · obtain ⟨m, vm₃, e, hreach', hdone'⟩ := returned_cases hrun hc
      obtain ⟨_, _, he⟩ := Machine.endsIn_unique hreach hdone hreach' hdone'
      cases he
      exact hprints
    · exact absurd he hne
  · rintro he
    rcases hresult with ⟨hne, _⟩ | ⟨_, vm, hlimit, hprints⟩
    · exact absurd he hne
    · refine ⟨⟨vm, (executed_iff hrun).mpr hlimit, hprints⟩, fun c hc => ?_⟩
      obtain ⟨m, vm₃, e, hreach', hdone'⟩ := returned_cases hrun hc
      rw [hprints]
      exact emitted_prefix hrun hlimit hreach' hdone'

/-- `print r0` and `halt`. -/
def printHalt : OwnedProgram :=
  .ofArray [⟨14, 0, 0, 0, 0⟩, ⟨15, 0, 0, 0, 0⟩] (by decide)

theorem printHalt_divides_nothing {vm : WaiVm} (hr : StepReach printHalt.initialVm vm) :
    ¬ DividesMinByMinusOne vm := by
  rintro ⟨ins, hcur, hop, _⟩
  obtain ⟨d, hinv⟩ : ∃ d, MachineInvariant printHalt.instructions vm d :=
    invariant_reach (by decide) hr
  have hmem : ∀ ins ∈ printHalt.instructions, ins.op ∉ WaiOpcode.divides := by decide
  exact hmem ins (current_mem hinv hcur) hop

/-- The trace of `print r0` and `halt`. -/
theorem trace_agrees_printHalt :
    (∀ vm, StepReach printHalt.initialVm vm → ¬ DividesMinByMinusOne vm) ∧
    ∃ status lines,
      Ends (traceIteration printHalt) (traceStart printHalt) (.returned status lines) ∧
      (status = .ok ↔ ∃ n < waiTraceMaxSteps, ∃ vm,
        Finishes (fun _ => .undef) printHalt.initialVm n .ok vm) := by
  have hdiv := fun vm hr => @printHalt_divides_nothing vm hr
  obtain ⟨status, lines, hends, hok, _⟩ := trace_agrees printHalt hdiv fun _ => .undef
  exact ⟨hdiv, status, lines, hends, hok⟩

end Waivm
