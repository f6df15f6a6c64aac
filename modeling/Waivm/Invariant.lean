import Waivm.StepCases

/-!
# The invariant of the machine

`MachineInvariant code vm d`: the machine runs `code`, `ip` is at most the
number of instructions, the flags are `0` or `1`, no error is recorded, and the
stack holds `d` values, `sp = 65536 - 8 * d`.

Results:
1. `step_cases`: what one call of `wai_vm_step` does under the invariant.
2. `invariant_step`, `invariant_run`: every successful call keeps it, and `d`
   counts the successful `PUSH` and `CALL` minus the `POP` and `RET`.
3. `push_overflow_iff` … `ret_underflow_iff`: where the stack errors are raised.
4. `step_ne_access`: no call accesses an array outside its bounds.
-/

namespace Waivm

/-- The instruction that the next call of `wai_vm_step` executes. -/
def WaiVm.current (vm : WaiVm) : Option WaiInstruction :=
  if vm.halted ≠ 0 then none else vm.code.bind (·[vm.ip.toNat]?)

/-- The next call executes one of the opcodes `ops`. -/
def WaiVm.executes (vm : WaiVm) (ops : List WaiOpcode) : Bool :=
  match vm.current with
  | some ins => decide (ins.op ∈ ops)
  | none => false

/-- The state in which the switch runs: `vm->ip += 1`. -/
def WaiVm.fetched (vm : WaiVm) : WaiVm :=
  { vm with ip := vm.ip + 1 }

/-- How many of the states `vms` push a value in their next step. -/
def pushCount (vms : List WaiVm) : Nat :=
  vms.countP (·.executes [.push, .call])

/-- How many of the states `vms` pop a value in their next step. -/
def popCount (vms : List WaiVm) : Nat :=
  vms.countP (·.executes [.pop, .ret])

/-- The greatest number of values on the stack. -/
def stackCapacity : Nat := waiMemorySize / sizeofWaiValue

/-- `sp` with `d` values on the stack. -/
def spAt (d : Nat) : BitVec 64 :=
  BitVec.ofNat 64 (waiMemorySize - sizeofWaiValue * d)

/-- The invariant of a machine with `d` values on its stack. -/
structure MachineInvariant (code : List WaiInstruction) (vm : WaiVm) (d : Nat) : Prop where
  code_eq : vm.code = some code
  count_eq : vm.codeCount = BitVec.ofNat 64 code.length
  ip_le : vm.ip ≤ vm.codeCount
  zf_bit : vm.zf = 0 ∨ vm.zf = 1
  halted_bit : vm.halted = 0 ∨ vm.halted = 1
  error_ok : vm.error = .ok
  depth_le : d ≤ stackCapacity
  sp_eq : vm.sp = spAt d

theorem toNat_spAt (d : Nat) : (spAt d).toNat = waiMemorySize - 8 * d := by
  rw [spAt, BitVec.toNat_ofNat]
  refine Nat.mod_eq_of_lt (Nat.lt_of_le_of_lt (Nat.sub_le _ _) ?_)
  decide

theorem spAt_push {d : Nat} (h : d < stackCapacity) : spAt d - 8 = spAt (d + 1) := by
  have hcap : stackCapacity = 8192 := rfl
  have h1 := toNat_spAt d
  have h2 := toNat_spAt (d + 1)
  apply BitVec.eq_of_toNat_eq
  rw [BitVec.toNat_sub, h1, h2, show (8 : BitVec 64).toNat = 8 from rfl]
  simp only [waiMemorySize]
  omega

theorem spAt_pop {d : Nat} (h : d + 1 ≤ stackCapacity) : spAt (d + 1) + 8 = spAt d := by
  have hp := spAt_push (Nat.lt_of_succ_le h)
  rw [← hp]
  exact BitVec.sub_add_cancel _ _

namespace MachineInvariant
variable {code : List WaiInstruction} {vm : WaiVm} {d : Nat}

theorem init (code : List WaiInstruction) :
    MachineInvariant code (waiVmInit (some code) (BitVec.ofNat 64 code.length)) 0 where
  code_eq := rfl
  count_eq := rfl
  ip_le := Nat.zero_le _
  zf_bit := .inl rfl
  halted_bit := .inl rfl
  error_ok := rfl
  depth_le := Nat.zero_le _
  sp_eq := rfl

theorem sp_toNat (h : MachineInvariant code vm d) : vm.sp.toNat = waiMemorySize - 8 * d := by
  rw [h.sp_eq, toNat_spAt]

theorem sp_le (h : MachineInvariant code vm d) : vm.sp.toNat ≤ waiMemorySize := by
  rw [h.sp_toNat]
  exact Nat.sub_le _ _

/-- There is no room for another value exactly on a full stack. -/
theorem sp_lt_iff (h : MachineInvariant code vm d) : vm.sp.toNat < 8 ↔ d = stackCapacity := by
  have hd := h.depth_le
  have hcap : stackCapacity = 8192 := rfl
  rw [h.sp_toNat]
  simp only [waiMemorySize]
  omega

/-- There is no value to pop exactly on an empty stack. -/
theorem lt_sp_iff (h : MachineInvariant code vm d) : maxAddress < vm.sp.toNat ↔ d = 0 := by
  have hd := h.depth_le
  have hcap : stackCapacity = 8192 := rfl
  rw [h.sp_toNat]
  simp only [maxAddress, sizeofWaiValue, waiMemorySize]
  omega

theorem codeCount_toNat (h : MachineInvariant code vm d) (hlen : code.length < 2 ^ 64) :
    vm.codeCount.toNat = code.length := by
  rw [h.count_eq, BitVec.toNat_ofNat, Nat.mod_eq_of_lt hlen]

end MachineInvariant

/-! ## 1. One call -/

section Step
variable {code : List WaiInstruction} {vm vm' : WaiVm} {d : Nat}

theorem step_null (hc : vm.code = none) : waiVmStep vm = .ok (.errParse, vm) := by
  unfold waiVmStep
  split
  · rfl
  · next hsome => cases hsome.symm.trans hc

/-- A call on a machine that has code. -/
theorem step_eq (hc : vm.code = some code) :
    waiVmStep vm =
      if vm.halted ≠ 0 then .ok (.ok, vm)
      else if vm.codeCount ≤ vm.ip then .ok (setError vm .errIpOutOfBounds)
      else
        match code[vm.ip.toNat]? with
        | none => .error .access
        | some ins => stepSwitch vm.fetched ins := by
  unfold waiVmStep
  split
  · next hn => cases hn.symm.trans hc
  · next code' hc' =>
    cases hc'.symm.trans hc
    rfl

theorem step_halted (hc : vm.code = some code) (h : vm.halted ≠ 0) :
    waiVmStep vm = .ok (.ok, vm) := by
  rw [step_eq hc, if_pos h]

theorem step_past_end (hc : vm.code = some code) (h : ¬ vm.halted ≠ 0)
    (hip : vm.codeCount ≤ vm.ip) :
    waiVmStep vm = .ok (.errIpOutOfBounds, vm.failed .errIpOutOfBounds) := by
  rw [step_eq hc, if_neg h, if_pos hip]
  rfl

theorem step_fetch (hc : vm.code = some code) (h : ¬ vm.halted ≠ 0)
    (hip : ¬ vm.codeCount ≤ vm.ip) {ins : WaiInstruction}
    (hget : code[vm.ip.toNat]? = some ins) : waiVmStep vm = stepSwitch vm.fetched ins := by
  rw [step_eq hc, if_neg h, if_neg hip, hget]

/-- What a call does: nothing when halted, an error at the end of the code, and
otherwise the switch on the current instruction. -/
theorem step_cases (h : MachineInvariant code vm d) (hlen : code.length < 2 ^ 64) :
    (vm.halted = 1 ∧ vm.current = none ∧ waiVmStep vm = .ok (.ok, vm)) ∨
    (vm.halted = 0 ∧ vm.ip.toNat = code.length ∧ vm.current = none ∧
      waiVmStep vm = .ok (.errIpOutOfBounds, vm.failed .errIpOutOfBounds)) ∨
    (∃ ins, vm.halted = 0 ∧ vm.ip < vm.codeCount ∧ code[vm.ip.toNat]? = some ins ∧
      vm.current = some ins ∧ waiVmStep vm = stepSwitch vm.fetched ins) := by
  have hcount := h.codeCount_toNat hlen
  rcases h.halted_bit with h0 | h1
  · refine .inr ?_
    have hn : ¬ vm.halted ≠ 0 := fun hne => hne h0
    have hcur : vm.current = code[vm.ip.toNat]? := by
      simp only [WaiVm.current, if_neg hn, h.code_eq, Option.bind_some]
    by_cases hlt : vm.ip < vm.codeCount
    · have hin : vm.ip.toNat < code.length := hcount ▸ hlt
      have hget : code[vm.ip.toNat]? = some code[vm.ip.toNat] := List.getElem?_eq_getElem hin
      exact .inr ⟨code[vm.ip.toNat], h0, hlt, hget, hcur.trans hget,
        step_fetch h.code_eq hn (BitVec.not_le.mpr hlt) hget⟩
    · have hge : vm.codeCount ≤ vm.ip := BitVec.not_lt.mp hlt
      have heq : vm.ip.toNat = code.length := by
        rw [← hcount]
        exact Nat.le_antisymm h.ip_le hge
      refine .inl ⟨h0, heq, ?_, step_past_end h.code_eq hn hge⟩
      rw [hcur]
      exact List.getElem?_eq_none (Nat.le_of_eq heq.symm)
  · have hne : vm.halted ≠ 0 := by
      rw [h1]
      decide
    refine .inl ⟨h1, ?_, step_halted h.code_eq hne⟩
    simp only [WaiVm.current, if_pos hne]

theorem fetched_ip_le (h : vm.ip < vm.codeCount) : vm.fetched.ip ≤ vm.fetched.codeCount := by
  have h1 : vm.ip.toNat < vm.codeCount.toNat := h
  have h2 := vm.codeCount.isLt
  show (vm.ip + 1).toNat ≤ vm.codeCount.toNat
  rw [BitVec.toNat_add, show (1 : BitVec 64).toNat = 1 from rfl]
  omega

theorem invariant_fetched (h : MachineInvariant code vm d) (hlt : vm.ip < vm.codeCount) :
    MachineInvariant code vm.fetched d :=
  { h with ip_le := fetched_ip_le hlt }

theorem zf_bit_of (p : Prop) [Decidable p] :
    (if p then (1 : LittleEndian.Byte) else 0) = 0 ∨ (if p then (1 : LittleEndian.Byte) else 0) = 1 := by
  by_cases hp : p
  · exact .inr (if_pos hp)
  · exact .inl (if_neg hp)

theorem executes_of_current {ops : List WaiOpcode} {ins : WaiInstruction}
    (h : vm.current = some ins) : vm.executes ops = decide (ins.op ∈ ops) := by
  simp only [WaiVm.executes, h]

/-- A successful effect keeps the invariant; the depth changes by what the
opcode pushes and pops. -/
theorem invariant_effect {ins : WaiInstruction} (h : MachineInvariant code vm d)
    (he : Effect vm ins .ok vm') :
    ∃ d', MachineInvariant code vm' d' ∧
      d' + [ins.op].countP (· ∈ [.pop, .ret]) = d + [ins.op].countP (· ∈ [.push, .call]) := by
  cases he with
  | assign value hop _ =>
    refine ⟨d, { h with zf_bit := zf_bit_of _ }, ?_⟩
    revert hop
    cases ins.op <;> simp [WaiOpcode.assigns]
  | compare equal hop =>
    refine ⟨d, { h with zf_bit := zf_bit_of _ }, ?_⟩
    rcases hop with hop | hop <;> rw [hop] <;> rfl
  | jump hop hc ht =>
    refine ⟨d, { h with ip_le := BitVec.le_of_lt ht.2 }, ?_⟩
    revert hop hc
    cases ins.op <;> simp [WaiOpcode.jumps]
  | stay hop =>
    refine ⟨d, h, ?_⟩
    revert hop
    cases ins.op <;> simp
  | print hop => exact ⟨d, { h with }, by rw [hop]; rfl⟩
  | halt hop => exact ⟨d, { h with halted_bit := .inr rfl }, by rw [hop]; rfl⟩
  | store hop _ =>
    refine ⟨d, { h with }, ?_⟩
    rcases hop with hop | hop <;> rw [hop] <;> rfl
  | push hop hsp =>
    have hd : d < stackCapacity :=
      Nat.lt_of_le_of_ne h.depth_le fun he => absurd (h.sp_lt_iff.mpr he) (Nat.not_lt.mpr hsp)
    refine ⟨d + 1, { h with depth_le := hd, sp_eq := ?_ }, by rw [hop]; rfl⟩
    exact (congrArg (· - 8) h.sp_eq).trans (spAt_push hd)
  | pop hop hsp =>
    cases d with
    | zero => exact absurd (h.lt_sp_iff.mpr rfl) (Nat.not_lt.mpr hsp)
    | succ d =>
      refine ⟨d, { h with
        zf_bit := zf_bit_of _, depth_le := Nat.le_of_succ_le h.depth_le, sp_eq := ?_ },
        by rw [hop]; rfl⟩
      exact (congrArg (· + 8) h.sp_eq).trans (spAt_pop h.depth_le)
  -- a call pushes one value, and its target is in the code
  | call hop ht hsp =>
    have hd : d < stackCapacity :=
      Nat.lt_of_le_of_ne h.depth_le fun he => absurd (h.sp_lt_iff.mpr he) (Nat.not_lt.mpr hsp)
    refine ⟨d + 1, { h with
      ip_le := BitVec.le_of_lt ht.2, depth_le := hd, sp_eq := ?_ }, by rw [hop]; rfl⟩
    exact (congrArg (· - 8) h.sp_eq).trans (spAt_push hd)
  | ret hop hsp ht =>
    -- an empty stack is an underflow, so there is a value to pop
    cases d with
    | zero => exact absurd (h.lt_sp_iff.mpr rfl) (Nat.not_lt.mpr hsp)
    | succ d =>
      refine ⟨d, { h with
        ip_le := BitVec.le_of_lt ht.2, depth_le := Nat.le_of_succ_le h.depth_le, sp_eq := ?_ },
        by rw [hop]; rfl⟩
      exact (congrArg (· + 8) h.sp_eq).trans (spAt_pop h.depth_le)

/-! ## 2. Runs -/

/-- A successful call keeps the invariant. -/
theorem invariant_step (hlen : code.length < 2 ^ 64) (h : MachineInvariant code vm d)
    (hs : StepOk vm vm') :
    ∃ d', MachineInvariant code vm' d' ∧ d' + popCount [vm] = d + pushCount [vm] := by
  unfold StepOk at hs
  rcases step_cases h hlen with ⟨_, hcur, he⟩ | ⟨_, _, _, he⟩ | ⟨ins, _, hlt, _, hcur, he⟩
  · cases he.symm.trans hs
    exact ⟨d, h, by simp [popCount, pushCount, WaiVm.executes, hcur]⟩
  · cases he.symm.trans hs
  · have hf := invariant_fetched h hlt
    obtain ⟨d', hinv, hd⟩ := invariant_effect hf (switch_effect hf.sp_le (he.symm.trans hs))
    refine ⟨d', hinv, ?_⟩
    simpa [popCount, pushCount, List.countP_cons, executes_of_current hcur] using hd

/-- The invariant along a run, with the depth as the difference of the counts. -/
theorem invariant_run (hlen : code.length < 2 ^ 64) {vms : List WaiVm}
    (hrun : Machine.Path StepOk vms vm vm') (h : MachineInvariant code vm d) :
    ∃ d', MachineInvariant code vm' d' ∧ d' + popCount vms = d + pushCount vms := by
  induction hrun generalizing d with
  | nil => exact ⟨d, h, rfl⟩
  | @cons vm _ _ vms hs _ ih =>
    obtain ⟨d₁, h₁, hd₁⟩ := invariant_step hlen h hs
    obtain ⟨d₂, h₂, hd₂⟩ := ih h₁
    refine ⟨d₂, h₂, ?_⟩
    have hpop : popCount (vm :: vms) = popCount [vm] + popCount vms :=
      @List.countP_append _ _ [vm] vms
    have hpush : pushCount (vm :: vms) = pushCount [vm] + pushCount vms :=
      @List.countP_append _ _ [vm] vms
    omega

/-- The invariant holds in every reachable state. -/
theorem invariant_reach (hlen : code.length < 2 ^ 64)
    (hr : StepReach (waiVmInit (some code) (BitVec.ofNat 64 code.length)) vm) :
    ∃ d, MachineInvariant code vm d := by
  obtain ⟨vms, hvms⟩ := Machine.exists_path hr
  obtain ⟨d, hd, _⟩ := invariant_run hlen hvms (.init code)
  exact ⟨d, hd⟩

/-! ## 3. Where the stack errors are raised -/

/-- The call on `vm` returns `error`. -/
def FailsWith (vm : WaiVm) (error : WaiErrorCode) : Prop :=
  ∃ vm', waiVmStep vm = .ok (error, vm')

theorem current_step {ins : WaiInstruction} (hlen : code.length < 2 ^ 64)
    (h : MachineInvariant code vm d) (hcur : vm.current = some ins) :
    vm.ip < vm.codeCount ∧ waiVmStep vm = stepSwitch vm.fetched ins := by
  rcases step_cases h hlen with ⟨_, hn, _⟩ | ⟨_, _, hn, _⟩ | ⟨ins', _, hlt, _, hcur', he⟩
  · cases hn.symm.trans hcur
  · cases hn.symm.trans hcur
  · cases hcur'.symm.trans hcur
    exact ⟨hlt, he⟩

theorem current_mem {ins : WaiInstruction} (h : MachineInvariant code vm d)
    (hcur : vm.current = some ins) : ins ∈ code := by
  unfold WaiVm.current at hcur
  split at hcur
  · cases hcur
  · rw [h.code_eq, Option.bind_some] at hcur
    exact List.mem_of_getElem? hcur

/-- A stack overflow is raised on a full stack only. -/
theorem overflow_full {ins : WaiInstruction} (hlen : code.length < 2 ^ 64)
    (h : MachineInvariant code vm d) (hcur : vm.current = some ins)
    (hf : FailsWith vm .errStackOverflow) : d = stackCapacity := by
  obtain ⟨hlt, he⟩ := current_step hlen h hcur
  obtain ⟨vm', hs⟩ := hf
  have hinv := invariant_fetched h hlt
  cases switch_effect hinv.sp_le (he.symm.trans hs) with
  | stackOverflow _ hsp => exact hinv.sp_lt_iff.mp hsp

/-- A stack underflow is raised on an empty stack only. -/
theorem underflow_empty {ins : WaiInstruction} (hlen : code.length < 2 ^ 64)
    (h : MachineInvariant code vm d) (hcur : vm.current = some ins)
    (hf : FailsWith vm .errStackUnderflow) : d = 0 := by
  obtain ⟨hlt, he⟩ := current_step hlen h hcur
  obtain ⟨vm', hs⟩ := hf
  have hinv := invariant_fetched h hlt
  cases switch_effect hinv.sp_le (he.symm.trans hs) with
  | stackUnderflow _ hsp => exact hinv.lt_sp_iff.mp hsp

/-- The operands of a `PUSH`, `CALL`, `POP` or `RET` are valid. -/
def ValidStackOperand (vm : WaiVm) (ins : WaiInstruction) : Prop :=
  (ins.op ∈ WaiOpcode.usesA → validReg ins.a = true) ∧ (ins.op = .call → ValidTarget vm ins.imm)

/-- `PUSH` and `CALL` overflow exactly on a full stack. -/
theorem push_overflow_iff {ins : WaiInstruction} (hlen : code.length < 2 ^ 64)
    (h : MachineInvariant code vm d) (hcur : vm.current = some ins)
    (hop : ins.op = .push ∨ ins.op = .call) (hv : ValidStackOperand vm ins) :
    FailsWith vm .errStackOverflow ↔ d = stackCapacity := by
  refine ⟨overflow_full hlen h hcur, fun hd => ?_⟩
  obtain ⟨hlt, he⟩ := current_step hlen h hcur
  have hsp : vm.fetched.sp.toNat < 8 := h.sp_lt_iff.mpr hd
  refine ⟨vm.fetched.failed .errStackOverflow, he.trans ?_⟩
  unfold stepSwitch
  rw [show WaiOpcode.ofByte ins.opcode = ins.op from rfl]
  rcases hop with hop | hop
  · have ha : validReg ins.a = true := hv.1 (by rw [hop]; decide)
    simp only [hop, ha, reg_spec _ ha, bind, Except.bind]
    exact push_overflow _ _ hsp
  · have ht : ValidTarget vm.fetched ins.imm := hv.2 hop
    simp only [hop, checkJump_of_valid ht, push_overflow _ _ hsp]
    rfl

/-- `POP` and `RET` underflow exactly on an empty stack. -/
theorem pop_underflow_iff {ins : WaiInstruction} (hlen : code.length < 2 ^ 64)
    (h : MachineInvariant code vm d) (hcur : vm.current = some ins)
    (hop : ins.op = .pop ∨ ins.op = .ret) (hv : ValidStackOperand vm ins) :
    FailsWith vm .errStackUnderflow ↔ d = 0 := by
  refine ⟨underflow_empty hlen h hcur, fun hd => ?_⟩
  obtain ⟨hlt, he⟩ := current_step hlen h hcur
  have hsp : maxAddress < vm.fetched.sp.toNat := h.lt_sp_iff.mpr hd
  refine ⟨vm.fetched.failed .errStackUnderflow, he.trans ?_⟩
  unfold stepSwitch
  rw [show WaiOpcode.ofByte ins.opcode = ins.op from rfl]
  rcases hop with hop | hop
  · have ha : validReg ins.a = true := hv.1 (by rw [hop]; decide)
    simp only [hop, ha, pop_underflow _ hsp]
    rfl
  · simp only [hop, pop_underflow _ hsp]
    rfl

/-! ## 4. Accesses in bounds -/

/-- The only fault of a call under the invariant is the quotient that does not
exist: every `regs`, `memory` and `code` index is in range. -/
theorem step_fault_iff (hlen : code.length < 2 ^ 64) (h : MachineInvariant code vm d) (f : Fault) :
    waiVmStep vm = .error f ↔
      f = .divide ∧ ∃ ins, vm.current = some ins ∧ DivOverflow vm.fetched ins := by
  rcases step_cases h hlen with ⟨_, hn, he⟩ | ⟨_, _, hn, he⟩ | ⟨ins, _, hlt, _, hcur, he⟩
  · rw [he, hn]
    exact ⟨fun e => (nomatch e), fun ⟨_, _, e, _⟩ => (nomatch e)⟩
  · rw [he, hn]
    exact ⟨fun e => (nomatch e), fun ⟨_, _, e, _⟩ => (nomatch e)⟩
  · rw [he, switch_fault_iff (invariant_fetched h hlt).sp_le, hcur]
    constructor
    · rintro ⟨rfl, ho⟩
      exact ⟨rfl, ins, rfl, ho⟩
    · rintro ⟨rfl, _, e, ho⟩
      cases e
      exact ⟨rfl, ho⟩

theorem step_ne_access (hlen : code.length < 2 ^ 64) (h : MachineInvariant code vm d) :
    waiVmStep vm ≠ .error .access := by
  rw [Ne, step_fault_iff hlen h]
  exact fun e => nomatch e.1

end Step

end Waivm
