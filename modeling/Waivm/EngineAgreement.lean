import Waivm.AsmLoop

/-!
# The two engines agree

What the simulation of the stepper by the assembly loop gives for whole runs.

Results:
1. `engines_agree`: both engines end, or neither does, with the same state, the
   same printed values and the same error code.
2. `machine_invariant`: the invariant of the machine at every state of the
   stepper and at every loop head, the exact points of stack overflow and
   underflow, and accesses in bounds.
-/

namespace Waivm

open X86 (Reg Val)
open Machine (Outcome Reaches Ends Segment Path Between)

/-! ## 1. Agreement -/

/-- What a result of the engine has to be, given the result of the C iteration. -/
def SameResult : AsmEnd → StepEnd → Prop
  | .returned c, .stopped status vm =>
    c.mem = vm ∧ (returnCode c = some 0 ↔ vm.halted ≠ 0) ∧ waiVmExecute c = some status
  | .trapped .divide, .fault .divide => True
  | _, _ => False

section Agree
variable {code : List WaiInstruction} {vm vm' : WaiVm} {d : Nat}

/-- An effect that fails records the error and does not halt. -/
theorem effect_failed {ins : WaiInstruction} {status : WaiErrorCode}
    (he : Effect vm ins status vm') (hs : status ≠ .ok) :
    vm'.error = status ∧ vm'.halted = vm.halted := by
  cases he <;> first | exact absurd rfl hs | exact ⟨rfl, rfl⟩

/-- A call that fails records the error in a machine that is not halted. -/
theorem step_failed {status : WaiErrorCode} (hlen : code.length < 2 ^ 64)
    (h : MachineInvariant code vm d) (hs : waiVmStep vm = .ok (status, vm'))
    (hne : status ≠ .ok) : vm'.error = status ∧ vm'.halted = 0 := by
  rcases step_cases h hlen with ⟨_, _, he⟩ | ⟨h0, _, _, he⟩ | ⟨ins, h0, hlt, _, _, he⟩
  · cases he.symm.trans hs
    exact absurd rfl hne
  · cases he.symm.trans hs
    exact ⟨rfl, h0⟩
  · have hf := invariant_fetched h hlt
    obtain ⟨herr, hhalt⟩ := effect_failed (switch_effect hf.sp_le (he.symm.trans hs)) hne
    exact ⟨herr, hhalt.trans h0⟩

/-- A round of the engine ends because the machine was halted, or as its call ends. -/
theorem engineStep_stopped {status : WaiErrorCode}
    (h : engineStep vm = .done (.stopped status vm')) :
    (vm' = vm ∧ status = .ok ∧ vm.halted ≠ 0) ∨
    (waiVmStep vm = .ok (status, vm') ∧ (status = .ok → vm'.halted ≠ 0)) := by
  unfold engineStep at h
  split at h
  · next hne =>
    cases h
    exact .inl ⟨rfl, rfl, hne⟩
  · cases hs : waiVmStep vm with
    | error f => rw [hs] at h; cases h
    | ok result =>
      obtain ⟨status', vm''⟩ := result
      rw [hs] at h
      by_cases hok : status' = .ok
      · subst hok
        by_cases h1 : vm''.halted = 0
        · rw [resultOutcome_next h1] at h
          cases h
        · rw [resultOutcome, if_pos h1] at h
          cases h
          exact .inr ⟨rfl, fun _ => h1⟩
      · rw [resultOutcome_error hok] at h
        cases h
        exact .inr ⟨rfl, fun he => absurd he hok⟩

/-- How a round of the engine can end. -/
theorem engineStep_done {status : WaiErrorCode} (hlen : code.length < 2 ^ 64)
    (h : MachineInvariant code vm d) (hr : engineStep vm = .done (.stopped status vm')) :
    (status = .ok ∧ vm'.halted ≠ 0) ∨
    (status ≠ .ok ∧ vm'.error = status ∧ vm'.halted = 0 ∧ waiVmStep vm = .ok (status, vm')) := by
  rcases engineStep_stopped hr with ⟨rfl, rfl, hne⟩ | ⟨hs, hhalt⟩
  · exact .inl ⟨rfl, hne⟩
  · by_cases hok : status = .ok
    · exact .inl ⟨hok, hhalt hok⟩
    · obtain ⟨herr, h0⟩ := step_failed hlen h hs hok
      exact .inr ⟨hok, herr, h0, hs⟩

/-- What the engine returns next to a C result. -/
theorem execute_of_returned {entry : Reg → Val Object} {status : WaiErrorCode} {c : AsmState}
    (h : EndRelation entry (.returned c) (.stopped status vm'))
    (herr : status ≠ .ok → vm'.error = status) :
    c.mem = vm' ∧ waiVmExecute c = some status := by
  have hret : ReturnedWith entry (if status = .ok then 0 else 1) vm' c := h
  refine ⟨hret.mem, ?_⟩
  by_cases hok : status = .ok
  · rw [waiVmExecute, returnCode, hret.result, if_pos hok, hok]
    rfl
  · rw [waiVmExecute, returnCode, hret.result, if_neg hok, hret.mem]
    exact congrArg some (herr hok)

/-- The simulation relates results as the statement of agreement asks. -/
theorem sameResult_of_done {entry : Reg → Val Object} (hlen : code.length < 2 ^ 64)
    (h : MachineInvariant code vm d) {r : AsmEnd} {r' : StepEnd}
    (hr : engineStep vm = .done r') (hQ : EndRelation entry r r') : SameResult r r' := by
  cases r' with
  | fault f =>
    cases f with
    | access => cases r <;> exact absurd hQ id
    | divide =>
      cases r with
      | returned c => exact absurd hQ id
      | trapped t => cases t <;> first | exact trivial | exact absurd hQ id
  | stopped status vm' =>
    cases r with
    | trapped t => exact absurd hQ id
    | returned c =>
      have hret : ReturnedWith entry (if status = .ok then 0 else 1) vm' c := hQ
      rcases engineStep_done hlen h hr with ⟨rfl, hne⟩ | ⟨hstatus, herr, h0, _⟩
      · have hcode : returnCode c = some 0 := by
          rw [returnCode, hret.result]
          rfl
        exact ⟨hret.mem, ⟨fun _ => hne, fun _ => hcode⟩,
          (execute_of_returned hQ fun h => absurd rfl h).2⟩
      · have hcode : returnCode c = some 1 := by
          rw [returnCode, hret.result, if_neg hstatus]
          rfl
        refine ⟨hret.mem, ?_, (execute_of_returned hQ fun _ => herr).2⟩
        rw [hcode, h0]
        decide

/-- An iteration that leaves a halted machine ends in the next one. -/
theorem ends_of_halted {vm : WaiVm} (h : vm.halted ≠ 0) :
    Ends stepUntilHalted vm (.stopped .ok vm) :=
  Machine.ends_of_done (if_pos h)

/-- One round of the engine is one iteration, or one and the test of a halted machine. -/
theorem ends_engineStep (vm : WaiVm) :
    (∃ vm', engineStep vm = .next vm' ∧ stepUntilHalted vm = .next vm') ∨
    (∃ r, engineStep vm = .done r ∧ Ends stepUntilHalted vm r) := by
  unfold engineStep
  split
  · next hne => exact .inr ⟨_, rfl, ends_of_halted hne⟩
  · next h0 =>
    have hiter : stepUntilHalted vm = _ := if_neg h0
    cases hs : waiVmStep vm with
    | error f =>
      rw [hs] at hiter
      exact .inr ⟨_, rfl, Machine.ends_of_done hiter⟩
    | ok result =>
      obtain ⟨status, vm'⟩ := result
      rw [hs] at hiter
      by_cases hok : status = .ok
      · subst hok
        by_cases h1 : vm'.halted = 0
        · exact .inl ⟨vm', resultOutcome_next h1, hiter⟩
        · -- the iteration needs one more round to see that the machine has halted
          exact .inr ⟨_, if_pos h1, Machine.ends_of_reaches (Machine.reaches_of_next hiter)
            (ends_of_halted h1)⟩
      · refine .inr ⟨_, resultOutcome_error hok, Machine.ends_of_done ?_⟩
        rw [hiter]
        cases status <;> first | rfl | exact absurd rfl hok

/-- Not looking at a halted machine again does not change how the iteration ends. -/
theorem ends_engineStep_iff (vm : WaiVm) (r : StepEnd) :
    Ends engineStep vm r ↔ Ends stepUntilHalted vm r := by
  constructor
  · rintro ⟨n, hn⟩
    induction n generalizing vm with
    | zero => cases hn
    | succ n ih =>
      rcases ends_engineStep vm with ⟨vm', he, hc⟩ | ⟨r', he, hc⟩
      · have hn' : Machine.EndsIn engineStep n vm' r := (Machine.run_next he n).symm.trans hn
        exact Machine.ends_of_reaches (Machine.reaches_of_next hc) (ih vm' hn')
      · cases Machine.ends_unique (Machine.ends_of_done he) ⟨n + 1, hn⟩
        exact hc
  · rintro ⟨n, hn⟩
    induction n generalizing vm with
    | zero => cases hn
    | succ n ih =>
      rcases ends_engineStep vm with ⟨vm', he, hc⟩ | ⟨r', he, hc⟩
      · have hn' : Machine.EndsIn stepUntilHalted n vm' r := (Machine.run_next hc n).symm.trans hn
        exact Machine.ends_of_reaches (Machine.reaches_of_next he) (ih vm' hn')
      · cases Machine.ends_unique hc ⟨n + 1, hn⟩
        exact Machine.ends_of_done he

end Agree

/-- The engine entered with a machine under the invariant ends exactly when the
iteration of the stepper does, with the same result. -/
theorem engine_ends {code : List WaiInstruction} {vm : WaiVm} {d : Nat}
    (hlen : code.length ≤ maxInstructions) (h : MachineInvariant code vm d)
    (regs : Reg → Val Object) :
    ((∃ r, Ends asmStep (asmEntry regs vm) r) ↔ ∃ r', Ends stepUntilHalted vm r') ∧
    ∀ r r', Ends asmStep (asmEntry regs vm) r → Ends stepUntilHalted vm r' → SameResult r r' := by
  obtain ⟨c, hc, hentry⟩ := entry_between regs vm
  have sim := engine_simulation (X86.set regs .rdi (.ptr .vm 0)) hlen
  have hR : LoopRelation (X86.set regs .rdi (.ptr .vm 0)) code c vm := ⟨hc, d, h⟩
  -- the prologue does not change how the engine ends
  have hstart : ∀ r, Ends asmStep (asmEntry regs vm) r ↔ Ends asmStep c r := fun r =>
    ⟨Machine.ends_from_reaches hentry.reaches, Machine.ends_of_reaches hentry.reaches⟩
  constructor
  · simp only [hstart, ← ends_engineStep_iff]
    exact sim.ends_iff hR
  · intro r r' hr hr'
    obtain ⟨r₁, hQ, hr₁⟩ := sim.ends hR ((ends_engineStep_iff vm r').mpr hr')
    cases Machine.ends_unique hr₁ ((hstart r).mp hr)
    obtain ⟨n, hn⟩ := (ends_engineStep_iff vm r').mpr hr'
    obtain ⟨m, vm', _, hreach, hdone⟩ := Machine.endsIn_cases hn
    have hlt : code.length < 2 ^ 64 := Nat.lt_of_le_of_lt hlen maxInstructions_lt
    obtain ⟨d', hinv⟩ : ∃ d, MachineInvariant code vm' d :=
      Machine.reaches_invariant (I := fun vm => ∃ d, MachineInvariant code vm d)
        (fun _ _ ⟨_, hd⟩ hs =>
          have ⟨d', hd', _⟩ := invariant_step hlt hd (engineStep_next hs).2.1
          ⟨d', hd'⟩) ⟨m, hreach⟩ ⟨d, h⟩
    exact sameResult_of_done hlt hinv hdone hQ

/-- At a loop head behind the last instruction, whether there is an array or not,
the engine reports `WAI_ERR_IP_OUT_OF_BOUNDS`. -/
theorem past_end_segment {entry : Reg → Val Object} {c : AsmState} {vm : WaiVm}
    (hc : AtLoop entry c vm) (h0 : vm.halted = 0) (hip : vm.codeCount ≤ vm.ip) :
    ∃ c', Segment asmStep LoopHead c (.done (.returned c')) ∧
      ReturnedWith entry 1 (vm.failed .errIpOutOfBounds) c' := by
  obtain ⟨ccode, cregs, flags, stack, mem⟩ := c
  obtain ⟨rfl, h12, rfl, rfl⟩ := hc
  obtain ⟨o, hseg, c, rfl, hret⟩ : X86.Goes vmObjects block Label.loop
      (fun o => ∃ c, o = .done (.returned c) ∧
        ReturnedWith entry 1 (mem.failed .errIpOutOfBounds) c)
      ⟨[.label .loop], cregs, flags, frame entry, mem⟩ :=
    loop_head_goes h12 (fun hne => absurd h0 hne) (fun _ _ c hr => ⟨c, rfl, hr⟩)
      fun _ hlt => absurd hip (BitVec.not_le.mpr hlt)
  exact ⟨c, hseg, hret⟩

/-- The same from the entry of the engine. -/
theorem asm_past_end {vm : WaiVm} (h0 : vm.halted = 0) (hip : vm.codeCount ≤ vm.ip)
    (regs : Reg → Val Object) :
    ∃ c, Ends asmStep (asmEntry regs vm) (.returned c) ∧
      ReturnedWith (X86.set regs .rdi (.ptr .vm 0)) 1 (vm.failed .errIpOutOfBounds) c := by
  obtain ⟨c, hc, hentry⟩ := entry_between regs vm
  obtain ⟨c', hseg, hret⟩ := past_end_segment hc h0 hip
  exact ⟨c', Machine.ends_of_reaches hentry.reaches hseg.ends, hret⟩

/-- Engine agreement: `wai_vm_exec_asm` and the iteration of `wai_vm_step`, both
from a state that successful calls of `wai_vm_step` reach, end together and with
the same result. -/
theorem engines_agree {code : List WaiInstruction}
    (hlen : code.length ≤ maxInstructions) {vm : WaiVm}
    (hr : StepReach (waiVmInit (some code) (BitVec.ofNat 64 code.length)) vm)
    (regs : Reg → Val Object) :
    ((∃ r, Ends asmStep (asmEntry regs vm) r) ↔ ∃ r', Ends stepUntilHalted vm r') ∧
    ∀ r r', Ends asmStep (asmEntry regs vm) r → Ends stepUntilHalted vm r' → SameResult r r' := by
  obtain ⟨d, hinv⟩ := invariant_reach (Nat.lt_of_le_of_lt hlen maxInstructions_lt) hr
  exact engine_ends hlen hinv regs

/-- `nop` and `halt`. -/
def nopHalt : List WaiInstruction := [⟨28, 0, 0, 0, 0⟩, ⟨15, 0, 0, 0, 0⟩]

theorem nopHalt_reach :
    StepOk (waiVmInit (some nopHalt) (BitVec.ofNat 64 nopHalt.length))
      (waiVmInit (some nopHalt) (BitVec.ofNat 64 nopHalt.length)).fetched :=
  rfl

/-- Agreement from the state after the first instruction of a program. -/
theorem engines_agree_nopHalt :
    nopHalt.length ≤ maxInstructions ∧
    StepReach (waiVmInit (some nopHalt) (BitVec.ofNat 64 nopHalt.length))
      (waiVmInit (some nopHalt) (BitVec.ofNat 64 nopHalt.length)).fetched ∧
    ((∃ r, Ends asmStep (asmEntry (fun _ => .undef)
        (waiVmInit (some nopHalt) (BitVec.ofNat 64 nopHalt.length)).fetched) r) ↔
      ∃ r', Ends stepUntilHalted
        (waiVmInit (some nopHalt) (BitVec.ofNat 64 nopHalt.length)).fetched r') :=
  ⟨by decide, .single nopHalt_reach,
    (engines_agree (by decide) (.single nopHalt_reach) fun _ => .undef).1⟩

/-! ## 2. The invariant in both engines -/

section Heads
variable {code : List WaiInstruction} {vm : WaiVm} {d : Nat}

/-- The states of the stepper at the loop heads of a run are the machines in memory there. -/
theorem map_mem_of_relation {entry : Reg → Val Object} {heads : List AsmState} {vms : List WaiVm}
    (h : List.Forall₂ (LoopRelation entry code) heads vms) : heads.map (·.mem) = vms := by
  induction h with
  | nil => rfl
  | cons hR _ ih =>
    obtain ⟨hc, _⟩ := hR
    rw [List.map_cons, ih, hc.mem]

/-- What a run of the engine does up to a loop head: it has passed the heads
`heads`, and the machines there are the states of a run of the stepper. -/
theorem run_heads (hlen : code.length ≤ maxInstructions) (h : MachineInvariant code vm d)
    {regs : Reg → Val Object} {c : AsmState} (hr : Reaches asmStep (asmEntry regs vm) c)
    (hh : LoopHead c) :
    ∃ heads, Path (Between asmStep LoopHead) (asmEntry regs vm :: heads) (asmEntry regs vm) c ∧
      LoopRelation (X86.set regs .rdi (.ptr .vm 0)) code c c.mem ∧
      Path (fun vm vm' => engineStep vm = .next vm') (heads.map (·.mem)) vm c.mem := by
  obtain ⟨c₀, hc₀, hentry⟩ := entry_between regs vm
  have sim := engine_simulation (X86.set regs .rdi (.ptr .vm 0)) hlen
  obtain ⟨l, hl⟩ := Machine.path_of_reaches hr hh
  cases hl with
  | nil => exact absurd hh (X86.not_atLabel_of_ne rfl (by decide))
  | @cons _ c₁ _ heads hfirst hrest =>
    cases hfirst.1.unique hfirst.2 hentry.1 hentry.2
    obtain ⟨vm', vms, hR, hpath, hall⟩ :=
      hrest.simulate (fun hR h => sim.backward hR h) (⟨hc₀, d, h⟩ : LoopRelation _ code _ vm)
    cases hR.1.mem
    rw [← map_mem_of_relation hall] at hpath
    exact ⟨heads, .cons hentry hrest, hR, hpath⟩

/-- The engine returns `error` before the next loop head. -/
def AsmFailsWith (c : AsmState) (error : WaiErrorCode) : Prop :=
  ∃ c', Segment asmStep LoopHead c (.done (.returned c')) ∧ waiVmExecute c' = some error

/-- At a loop head the engine fails as the next call of the stepper does. -/
theorem asm_fails_iff {entry : Reg → Val Object} {c : AsmState} {error : WaiErrorCode}
    (hlen : code.length ≤ maxInstructions) (hc : AtLoop entry c vm)
    (h : MachineInvariant code vm d) (h0 : vm.halted = 0) (hne : error ≠ .ok) :
    AsmFailsWith c error ↔ FailsWith vm error := by
  have sim := engine_simulation entry hlen
  have hlt : code.length < 2 ^ 64 := Nat.lt_of_le_of_lt hlen maxInstructions_lt
  have hstep : engineStep vm = resultOutcome (waiVmStep vm) := if_neg (not_not_intro h0)
  constructor
  · rintro ⟨c', hseg, hcode⟩
    obtain ⟨r', hQ, hdone⟩ := sim.backward_done ⟨hc, d, h⟩ hseg
    have hsame := sameResult_of_done hlt h hdone hQ
    cases r' with
    | fault f => cases f <;> exact absurd hsame id
    | stopped status vm' =>
      cases hsame.2.2.symm.trans hcode
      rcases engineStep_done hlt h hdone with ⟨rfl, _⟩ | ⟨_, _, _, hs⟩
      · exact absurd rfl hne
      · exact ⟨vm', hs⟩
  · rintro ⟨vm', hs⟩
    have hdone : engineStep vm = .done (.stopped error vm') := by
      rw [hstep, hs, resultOutcome_error hne]
    obtain ⟨r, hQ, hseg⟩ := sim.done ⟨hc, d, h⟩ hdone
    have hsame := sameResult_of_done hlt h hdone hQ
    cases r with
    | returned c' => exact ⟨c', hseg, hsame.2.2⟩
    | trapped t => cases t <;> exact absurd hsame id

theorem code_of_stepOk {vm' : WaiVm} (h : StepOk vm vm') : ∃ code, vm.code = some code := by
  unfold StepOk waiVmStep at h
  cases hc : vm.code with
  | none => rw [hc] at h; cases h
  | some code => exact ⟨code, rfl⟩

/-- On the way to a machine that is not halted no machine is, so the calls are
iterations. -/
theorem reaches_of_stepReach {vm' : WaiVm} (h : StepReach vm vm') (h0 : vm'.halted = 0) :
    Reaches stepUntilHalted vm vm' := by
  suffices hall : Reaches stepUntilHalted vm vm' ∧ vm.halted = 0 from hall.1
  induction h using Relation.ReflTransGen.head_induction_on with
  | refl => exact ⟨Machine.reaches_refl _, h0⟩
  | @head vm vm₁ hs _ ih =>
    obtain ⟨hreach, h1⟩ := ih
    obtain ⟨code, hc⟩ := code_of_stepOk hs
    have hvm : vm.halted = 0 := by
      by_contra hne
      cases (step_halted hc hne).symm.trans hs
      exact hne h1
    have hiter : stepUntilHalted vm = .next vm₁ := by
      unfold stepUntilHalted
      rw [if_neg (not_not_intro hvm), show waiVmStep vm = .ok (.ok, vm₁) from hs]
    exact ⟨Machine.reaches_trans (Machine.reaches_of_next hiter) hreach, hvm⟩

/-- An iteration that goes on is a successful call. -/
theorem stepOk_of_iteration {vm' : WaiVm} (h : stepUntilHalted vm = .next vm') :
    StepOk vm vm' := by
  unfold stepUntilHalted at h
  split at h
  · cases h
  · split at h
    · cases h
    · next hs => cases h; exact hs
    · cases h

theorem step_of_iteration_fault {f : Fault} (h : stepUntilHalted vm = .done (.fault f)) :
    waiVmStep vm = .error f := by
  unfold stepUntilHalted at h
  split at h
  · cases h
  · split at h
    · next hs => cases h; exact hs
    · cases h
    · cases h

theorem stepReach_of_reaches {vm' : WaiVm} (h : Reaches stepUntilHalted vm vm') :
    StepReach vm vm' := by
  obtain ⟨n, hn⟩ := h
  obtain ⟨l, _, hl⟩ := Machine.path_of_reachesIn hn
  exact (hl.mono stepOk_of_iteration).reflTransGen

theorem halted_of_current {ins : WaiInstruction} (hcur : vm.current = some ins) :
    vm.halted = 0 := by
  unfold WaiVm.current at hcur
  split at hcur
  · cases hcur
  · next h0 => exact Classical.not_not.mp h0

/-- With `d` values on the stack and valid operands, `PUSH` and `CALL` overflow
exactly when `d` is the capacity, `POP` and `RET` underflow exactly when it is `0`. -/
def StackErrorsExact (vm : WaiVm) (d : Nat) (fails : WaiErrorCode → Prop) : Prop :=
  ∀ ins, vm.current = some ins → ValidStackOperand vm ins →
    (ins.op = .push ∨ ins.op = .call → (fails .errStackOverflow ↔ d = stackCapacity)) ∧
    (ins.op = .pop ∨ ins.op = .ret → (fails .errStackUnderflow ↔ d = 0))

theorem stackErrorsExact (hlen : code.length < 2 ^ 64) (h : MachineInvariant code vm d) :
    StackErrorsExact vm d (FailsWith vm) :=
  fun _ hcur hv => ⟨fun hop => push_overflow_iff hlen h hcur hop hv,
    fun hop => pop_underflow_iff hlen h hcur hop hv⟩

theorem asm_stackErrorsExact {entry : Reg → Val Object} {c : AsmState}
    (hlen : code.length ≤ maxInstructions) (hc : AtLoop entry c vm)
    (h : MachineInvariant code vm d) : StackErrorsExact vm d (AsmFailsWith c) := by
  intro ins hcur hv
  have h0 := halted_of_current hcur
  have hexact := stackErrorsExact (Nat.lt_of_le_of_lt hlen maxInstructions_lt) h ins hcur hv
  rw [asm_fails_iff hlen hc h h0 (by decide), asm_fails_iff hlen hc h h0 (by decide)]
  exact hexact

theorem fault_of_trapped {t : X86.Trap} {r' : StepEnd} (h : SameResult (.trapped t) r') :
    t = .divide ∧ r' = .fault .divide := by
  cases r' with
  | stopped status vm' => cases t <;> exact absurd h id
  | fault f => cases f <;> cases t <;> first | exact ⟨rfl, rfl⟩ | exact absurd h id

/-- The engine traps in a division only. -/
theorem asm_trap (hlen : code.length ≤ maxInstructions) (h : MachineInvariant code vm d)
    {regs : Reg → Val Object} {t : X86.Trap}
    (ht : Ends asmStep (asmEntry regs vm) (.trapped t)) : t = .divide := by
  obtain ⟨r', hr'⟩ := (engine_ends hlen h regs).1.mp ⟨_, ht⟩
  exact (fault_of_trapped ((engine_ends hlen h regs).2 _ r' ht hr')).1

end Heads

/-- The invariant of the machine. In every state that successful calls of
`wai_vm_step` reach, and at every loop head of `wai_vm_exec_asm` entered there,
`MachineInvariant` holds with the number of pushes less the number of pops as
the depth; the stack errors are raised exactly at depth 8192 and 0; no access is
out of bounds; and the accesses inside `push_i64` and `pop_i64` succeed. -/
theorem machine_invariant {code : List WaiInstruction} (hlen : code.length ≤ maxInstructions)
    {vms : List WaiVm} {vm : WaiVm}
    (hrun : Path StepOk vms (waiVmInit (some code) (BitVec.ofNat 64 code.length)) vm) :
    (∃ d, d + popCount vms = pushCount vms ∧ MachineInvariant code vm d ∧
      StackErrorsExact vm d (FailsWith vm)) ∧
    waiVmStep vm ≠ .error .access ∧
    (8 ≤ vm.sp.toNat → ∀ value, ∃ vm', waiVmMemoryStoreI64 { vm.fetched with sp := vm.sp - 8 }
      (vm.sp - 8) value = .ok (.ok, vm')) ∧
    (vm.sp.toNat ≤ maxAddress →
      ∃ value, waiVmMemoryLoadI64 vm.fetched vm.sp = .ok (.ok value)) ∧
    ∀ regs,
      (∀ t, Ends asmStep (asmEntry regs vm) (.trapped t) → t = .divide) ∧
      ∀ c, Reaches asmStep (asmEntry regs vm) c → LoopHead c → ∃ heads d,
        Path (Between asmStep LoopHead) (asmEntry regs vm :: heads) (asmEntry regs vm) c ∧
        d + popCount (vms ++ heads.map (·.mem)) = pushCount (vms ++ heads.map (·.mem)) ∧
        MachineInvariant code c.mem d ∧ StackErrorsExact c.mem d (AsmFailsWith c) := by
  have hlt : code.length < 2 ^ 64 := Nat.lt_of_le_of_lt hlen maxInstructions_lt
  obtain ⟨d, hinv, hd⟩ := invariant_run hlt hrun (.init code)
  rw [Nat.zero_add] at hd
  refine ⟨⟨d, hd, hinv, stackErrorsExact hlt hinv⟩, step_ne_access hlt hinv, ?_, ?_, ?_⟩
  · exact fun hsp value => ⟨_, store_spec { vm.fetched with sp := vm.sp - 8 }
      (sub_sp_le hinv.sp_le hsp) value⟩
  · exact fun hsp => ⟨_, load_spec vm.fetched hsp⟩
  · refine fun regs => ⟨fun t => asm_trap hlen hinv, fun c hr hh => ?_⟩
    obtain ⟨heads, hpath, ⟨hc, _⟩, hsteps⟩ := run_heads hlen hinv hr hh
    have hall := hrun.append (hsteps.mono fun h => (engineStep_next h).2.1)
    obtain ⟨d', hinv', hd'⟩ := invariant_run hlt hall (.init code)
    rw [Nat.zero_add] at hd'
    exact ⟨heads, d', hpath, hd', hinv', asm_stackErrorsExact hlen hc hinv'⟩

/-- `push r0` and `halt`. -/
def pushHalt : List WaiInstruction := [⟨20, 0, 0, 0, 0⟩, ⟨15, 0, 0, 0, 0⟩]

theorem pushHalt_reach :
    StepOk (waiVmInit (some pushHalt) (BitVec.ofNat 64 pushHalt.length))
      ((waiVmInit (some pushHalt) (BitVec.ofNat 64 pushHalt.length)).fetched.pushed 0) :=
  push_spec (waiVmInit (some pushHalt) (BitVec.ofNat 64 pushHalt.length)).fetched 0
    (by decide) (by decide)

/-- After the `push` one value is on the stack. -/
theorem machine_invariant_pushHalt :
    pushHalt.length ≤ maxInstructions ∧
    ∃ d, d + popCount [waiVmInit (some pushHalt) (BitVec.ofNat 64 pushHalt.length)] =
        pushCount [waiVmInit (some pushHalt) (BitVec.ofNat 64 pushHalt.length)] ∧
      MachineInvariant pushHalt
        ((waiVmInit (some pushHalt) (BitVec.ofNat 64 pushHalt.length)).fetched.pushed 0) d :=
  have hinv := machine_invariant (by decide) (.cons pushHalt_reach .nil)
  have ⟨d, hd, h, _⟩ := hinv.1
  ⟨by decide, d, hd, h⟩

end Waivm
