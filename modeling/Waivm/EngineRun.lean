import Waivm.EngineAgreement

/-!
# Runs of the engine on a program, counted in instructions

`Executed` and `Finishes` say what `wai_vm_exec_asm` does on a program in terms
of its loop heads: each segment between two of them executes one instruction.
`instructionStep` is the abstract machine behind them. It also covers the empty
program, whose array is `NULL`: the engine tests `ip` before it touches the
array, where `wai_vm_step` reports a parse error.

Results: `executed_iff` and `finishes_iff`, which reduce both to runs of
`instructionStep`.
-/

namespace Waivm

open X86 (Reg Val)
open Machine (Outcome Simulation Segment Between Path ReachesIn Ends)

/-- One instruction of the engine. -/
def instructionStep (vm : WaiVm) : Outcome WaiVm StepEnd :=
  if vm.halted = 0 ∧ vm.codeCount ≤ vm.ip then
    .done (.stopped .errIpOutOfBounds (vm.failed .errIpOutOfBounds))
  else engineStep vm

/-- The engine entered with `vm` is at a loop head after `n` instructions. -/
def HeadAfter (regs : Reg → Val Object) (vm : WaiVm) (n : Nat) (c : AsmState) : Prop :=
  ∃ heads, heads.length = n ∧
    Path (Between asmStep LoopHead) (asmEntry regs vm :: heads) (asmEntry regs vm) c

/-- The engine entered with `vm` executes `n` instructions and has the machine `vm'` then. -/
def Executed (regs : Reg → Val Object) (vm : WaiVm) (n : Nat) (vm' : WaiVm) : Prop :=
  ∃ c, HeadAfter regs vm n c ∧ c.mem = vm'

/-- The engine entered with `vm` executes `n` instructions, and in the next one
it returns, with `wai_vm_execute` reporting `status` and the machine `vm'`. -/
def Finishes (regs : Reg → Val Object) (vm : WaiVm) (n : Nat) (status : WaiErrorCode)
    (vm' : WaiVm) : Prop :=
  ∃ c c', HeadAfter regs vm n c ∧ Segment asmStep LoopHead c (.done (.returned c')) ∧
    waiVmExecute c' = some status ∧ c'.mem = vm'

/-- A machine the engine can run: it has code and satisfies the invariant, or it
stands behind the last instruction. -/
def Runnable (vm : WaiVm) : Prop :=
  (∃ code d, code.length ≤ maxInstructions ∧ MachineInvariant code vm d) ∨
    (vm.halted = 0 ∧ vm.codeCount ≤ vm.ip)

section Runs
variable {entry regs : Reg → Val Object} {vm vm' : WaiVm} {n : Nat} {status : WaiErrorCode}

theorem instructionStep_eq {code : List WaiInstruction} (hc : vm.code = some code) :
    instructionStep vm = engineStep vm := by
  unfold instructionStep
  split
  · next h =>
    rw [engineStep, if_neg (not_not_intro h.1), step_past_end hc (not_not_intro h.1) h.2]
    rfl
  · rfl

/-- The instruction of a runnable machine that stands behind the code. -/
theorem instructionStep_past_end (h0 : vm.halted = 0) (hip : vm.codeCount ≤ vm.ip) :
    instructionStep vm = .done (.stopped .errIpOutOfBounds (vm.failed .errIpOutOfBounds)) :=
  if_pos ⟨h0, hip⟩

/-- The relation between loop heads and machines. -/
def RunRelation (entry : Reg → Val Object) (c : AsmState) (vm : WaiVm) : Prop :=
  AtLoop entry c vm ∧ Runnable vm

/-- The engine simulates `instructionStep` on every runnable machine. -/
theorem instruction_simulation (entry : Reg → Val Object) :
    Simulation asmStep instructionStep LoopHead (RunRelation entry) (EndRelation entry) where
  head := by
    rintro c vm ⟨hc, _⟩
    unfold LoopHead X86.AtLabel
    rw [hc.code]
    rfl
  next := by
    rintro c vm vm' ⟨hc, ⟨code, d, hlen, hinv⟩ | ⟨h0, hip⟩⟩ hs
    · rw [instructionStep_eq hinv.code_eq] at hs
      obtain ⟨c', ⟨hc', d', hinv'⟩, hseg⟩ := (engine_simulation entry hlen).next ⟨hc, d, hinv⟩ hs
      exact ⟨c', ⟨hc', .inl ⟨code, d', hlen, hinv'⟩⟩, hseg⟩
    · rw [instructionStep_past_end h0 hip] at hs
      cases hs
  done := by
    rintro c vm r' ⟨hc, ⟨code, d, hlen, hinv⟩ | ⟨h0, hip⟩⟩ hs
    · rw [instructionStep_eq hinv.code_eq] at hs
      exact (engine_simulation entry hlen).done ⟨hc, d, hinv⟩ hs
    · rw [instructionStep_past_end h0 hip] at hs
      cases hs
      obtain ⟨c', hseg, hret⟩ := past_end_segment hc h0 hip
      exact ⟨.returned c', hret, hseg⟩

/-- The error that a machine records when the engine fails. -/
theorem instructionStep_error (h : Runnable vm)
    (hs : instructionStep vm = .done (.stopped status vm')) (hne : status ≠ .ok) :
    vm'.error = status := by
  rcases h with ⟨code, d, hlen, hinv⟩ | ⟨h0, hip⟩
  · rw [instructionStep_eq hinv.code_eq] at hs
    rcases engineStep_done (Nat.lt_of_le_of_lt hlen maxInstructions_lt) hinv hs with
      ⟨rfl, _⟩ | ⟨_, herr, _⟩
    · exact absurd rfl hne
    · exact herr
  · rw [instructionStep_past_end h0 hip] at hs
    cases hs
    rfl

/-- A loop head after `n` instructions, in terms of the abstract machine. -/
theorem headAfter_iff (h : Runnable vm) :
    (∀ c, HeadAfter regs vm n c → RunRelation (X86.set regs .rdi (.ptr .vm 0)) c c.mem ∧
      ReachesIn instructionStep n vm c.mem) ∧
    (∀ vm', ReachesIn instructionStep n vm vm' → ∃ c, HeadAfter regs vm n c ∧ c.mem = vm') := by
  obtain ⟨c₀, hc₀, hentry⟩ := entry_between regs vm
  have sim := instruction_simulation (X86.set regs .rdi (.ptr .vm 0))
  have hR : RunRelation (X86.set regs .rdi (.ptr .vm 0)) c₀ vm := ⟨hc₀, h⟩
  constructor
  · rintro c ⟨heads, rfl, hpath⟩
    cases hpath with
    | cons hfirst hrest =>
      cases hfirst.1.unique hfirst.2 hentry.1 hentry.2
      obtain ⟨vm', vms, hR', hsteps, hall⟩ := hrest.simulate (fun hR h => sim.backward hR h) hR
      cases hR'.1.mem
      have hreach := Machine.reachesIn_of_path hsteps
      rw [← hall.length_eq] at hreach
      exact ⟨hR', hreach⟩
  · intro vm' hreach
    obtain ⟨vms, hlen, hsteps⟩ := Machine.path_of_reachesIn hreach
    obtain ⟨c, heads, hR', hpath, hall⟩ := hsteps.simulate (fun hR h => sim.forward hR h) hR
    exact ⟨c, ⟨heads, hall.length_eq.symm.trans hlen, .cons hentry hpath⟩, hR'.1.mem⟩

/-- The engine has executed `n` instructions exactly when the abstract machine has. -/
theorem executed_iff (h : Runnable vm) :
    Executed regs vm n vm' ↔ ReachesIn instructionStep n vm vm' := by
  obtain ⟨hhead, hback⟩ := @headAfter_iff regs vm n h
  constructor
  · rintro ⟨c, hc, rfl⟩
    exact (hhead c hc).2
  · exact hback vm'

/-- The engine returns in the instruction after the `n`-th exactly when the
abstract machine ends there. -/
theorem finishes_iff (h : Runnable vm) :
    Finishes regs vm n status vm' ↔ ∃ vm₁, ReachesIn instructionStep n vm vm₁ ∧
      instructionStep vm₁ = .done (.stopped status vm') := by
  obtain ⟨hhead, hback⟩ := @headAfter_iff regs vm n h
  have sim := instruction_simulation (X86.set regs .rdi (.ptr .vm 0))
  constructor
  · rintro ⟨c, c', hc, hseg, hcode, rfl⟩
    obtain ⟨hR, hreach⟩ := hhead c hc
    obtain ⟨r', hQ, hdone⟩ := sim.backward_done hR hseg
    cases r' with
    | fault f => cases f <;> exact absurd hQ id
    | stopped status' vm₁ =>
      obtain ⟨hmem, hexec⟩ := execute_of_returned hQ (instructionStep_error hR.2 hdone)
      cases hexec.symm.trans hcode
      exact ⟨c.mem, hreach, hmem.symm ▸ hdone⟩
  · rintro ⟨vm₁, hreach, hdone⟩
    obtain ⟨c, hc, rfl⟩ := hback vm₁ hreach
    obtain ⟨hR, _⟩ := hhead c hc
    obtain ⟨r, hQ, hseg⟩ := sim.done hR hdone
    cases r with
    | trapped t => cases t <;> exact absurd hQ id
    | returned c' =>
      obtain ⟨hmem, hexec⟩ := execute_of_returned hQ (instructionStep_error hR.2 hdone)
      exact ⟨c, c', hc, hseg, hexec, hmem⟩

theorem engineStep_of_instructionStep (h : instructionStep vm = .next vm') :
    engineStep vm = .next vm' := by
  unfold instructionStep at h
  split at h
  · cases h
  · exact h

theorem stepReach_of_reachesIn (h : ReachesIn instructionStep n vm vm') : StepReach vm vm' := by
  obtain ⟨l, _, hl⟩ := Machine.path_of_reachesIn h
  exact (hl.mono fun hs =>
    (engineStep_next (engineStep_of_instructionStep hs)).2.1).reflTransGen

/-- Where the abstract machine ends when the engine returns. -/
theorem returned_cases {c : AsmState} (h : Runnable vm)
    (hc : Ends asmStep (asmEntry regs vm) (.returned c)) :
    ∃ n vm₁ status, ReachesIn instructionStep n vm vm₁ ∧
      instructionStep vm₁ = .done (.stopped status c.mem) := by
  obtain ⟨c₀, hc₀, hentry⟩ := entry_between regs vm
  have sim := instruction_simulation (X86.set regs .rdi (.ptr .vm 0))
  obtain ⟨r', hQ, m, hm⟩ := sim.ends_reflect ⟨hc₀, h⟩
    (Machine.ends_from_reaches hentry.reaches hc)
  obtain ⟨n, vm₁, _, hreach, hdone⟩ := Machine.endsIn_cases hm
  cases r' with
  | fault f => cases f <;> exact absurd hQ id
  | stopped status vm' =>
    have hret : ReturnedWith _ _ vm' c := hQ
    exact ⟨n, vm₁, status, hreach, hret.mem ▸ hdone⟩

end Runs

/-! ## Runs of a program -/

section Program
variable {program : OwnedProgram} {vm : WaiVm} {n : Nat}

theorem past_end_of_null (hc : program.code = none) :
    program.initialVm.codeCount ≤ program.initialVm.ip := by
  show BitVec.ofNat 64 program.count ≤ 0
  rw [program.count_eq_zero hc]
  exact Nat.le_refl _

/-- The engine can run every program from its initial state. -/
theorem initial_runnable (program : OwnedProgram) : Runnable program.initialVm := by
  cases hc : program.code with
  | none => exact .inr ⟨rfl, past_end_of_null hc⟩
  | some code =>
    rw [program.initialVm_eq hc]
    exact .inl ⟨code, 0, program.count_eq code hc ▸ program.count_le, .init code⟩

/-- Where a run of a program can be that has not halted: behind the code, or at an
instruction. -/
theorem reached_cases (h : ReachesIn instructionStep n program.initialVm vm)
    (h0 : vm.halted = 0) :
    (vm.codeCount ≤ vm.ip ∧ vm.current = none) ∨
      ∃ d ins, MachineInvariant program.instructions vm d ∧
        program.instructions[vm.ip.toNat]? = some ins ∧ vm.current = some ins ∧
        vm.ip < vm.codeCount := by
  cases hc : program.code with
  | none =>
    refine .inl ?_
    cases n with
    | zero =>
      cases h
      refine ⟨past_end_of_null hc, ?_⟩
      unfold WaiVm.current
      rw [show program.initialVm.code = none from hc]
      split <;> rfl
    | succ n =>
      unfold ReachesIn at h
      rw [Machine.run_done (instructionStep_past_end rfl (past_end_of_null hc))] at h
      cases h
  | some code =>
    have hcode : program.instructions = code := by
      rw [WaiProgram.instructions, hc]
      rfl
    have hlen := program.length_lt hc
    have hreach := stepReach_of_reachesIn h
    rw [program.initialVm_eq hc] at hreach
    obtain ⟨d, hinv⟩ := invariant_reach hlen hreach
    rcases step_cases hinv hlen with ⟨h1, _, _⟩ | ⟨_, hip, hn, _⟩ | ⟨ins, _, hlt, hget, hcur, _⟩
    · rw [h1] at h0
      exact absurd h0 (by decide)
    · refine .inl ⟨?_, hn⟩
      show vm.codeCount.toNat ≤ vm.ip.toNat
      rw [hip, hinv.codeCount_toNat hlen]
    · rw [hcode]
      exact .inr ⟨d, ins, hinv, hget, hcur, hlt⟩

end Program

end Waivm
