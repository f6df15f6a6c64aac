import Waivm.Asm
import Waivm.StepCases

/-!
# Running the assembly engine

What the listing does from each of its labels, as rules for `X86.Goes`: from the
state at a label control gets to the next `.loop` head or to the end of the run.
Each rule for an instruction body is stated next to the case of the C `switch`
it has to agree with.
-/

namespace Waivm

open LittleEndian (Byte)
open X86 (Reg Val MemRef Instr Slot Goes set address startsLabel cmpFlags testFlags)
open Machine (Outcome)

/-- What the iteration of `wai_vm_step` makes of the result of one call. -/
def resultOutcome : VmResult → Outcome WaiVm StepEnd
  | .error f => .done (.fault f)
  | .ok (.ok, vm) => if vm.halted ≠ 0 then .done (.stopped .ok vm) else .next vm
  | .ok (status, vm) => .done (.stopped status vm)

/-- The stack after the prologue of `wai_vm_exec_asm`, entered with `entry`. -/
def frame (entry : Reg → Val Object) : List (Slot Object Label Extern) :=
  [.val (entry .r15), .val (entry .r14), .val (entry .r13), .val (entry .r12), .val (entry .rbx),
    .val (entry .rbp), .caller]

/-- The engine is at `.loop` with the machine `vm`. -/
structure AtLoop (entry : Reg → Val Object) (c : AsmState) (vm : WaiVm) : Prop where
  code : c.code = [.label .loop]
  vm_pointer : c.regs .r12 = .ptr .vm 0
  stack : c.stack = frame entry
  mem : c.mem = vm

/-- The engine has returned `rc` with the machine `vm`, the stack as it was on
entry and the registers that a call preserves restored. -/
structure ReturnedWith (entry : Reg → Val Object) (rc : BitVec 64) (vm : WaiVm)
    (c : AsmState) : Prop where
  result : c.regs .rax = .int rc
  mem : c.mem = vm
  stack : c.stack = []
  preserved : ∀ r ∉ X86.callerSaved, c.regs r = entry r

/-- The outcome of a segment of the engine agrees with that of one C iteration. -/
def Matches (entry : Reg → Val Object) :
    Outcome WaiVm StepEnd → Outcome AsmState AsmEnd → Prop
  | .next vm, .next c => AtLoop entry c vm
  | .done (.stopped status vm), .done (.returned c) =>
    ReturnedWith entry (if status = .ok then 0 else 1) vm c
  | .done (.fault .divide), .done (.trapped .divide) => True
  | _, _ => False

/-- `Runs entry result c`: from `c` the engine does what the C call did that
gave `result`. -/
abbrev Runs (entry : Reg → Val Object) (result : VmResult) : AsmState → Prop :=
  Goes vmObjects block Label.loop (Matches entry (resultOutcome result))

/-! ## Operands -/

section Operands
variable {regs : Reg → Val Object} {vm : WaiVm}

theorem address_vm (h : regs .r12 = .ptr .vm 0) (disp : Nat) :
    address regs (vmField disp) = .ok (.vm, 0, 0) := by
  simp only [address, h]

theorem address_ins {offset : BitVec 64} (h : regs .r13 = .ptr .code offset) (disp : Nat) :
    address regs (ins disp) = .ok (.code, offset, 0) := by
  simp only [address, h]

theorem address_reg {r : Reg} {i : BitVec 64} (h : regs .r12 = .ptr .vm 0) (hr : regs r = .int i) :
    address regs (vmReg r) = .ok (.vm, 0, i * 8) := by
  simp only [address, h, hr, Val.toInt, Except.map]
  rfl

theorem address_memory {r : Reg} {i : BitVec 64} (h : regs .r12 = .ptr .vm 0)
    (hr : regs r = .int i) : address regs (vmMemoryAt r) = .ok (.vm, 0, i) := by
  simp only [address, h, hr, Val.toInt, Except.map]
  rw [show BitVec.ofNat 64 1 = 1#64 from rfl, BitVec.mul_one]

theorem registerAt_of_valid {r : Byte} (h : validReg r = true) :
    registerAt (r.setWidth 64 * 8) = some ⟨r.toNat, (validReg_iff r).mp h⟩ := by
  have hr := (validReg_iff r).mp h
  have hn : (r.setWidth 64 * 8).toNat = r.toNat * 8 := by
    rw [BitVec.toNat_mul, BitVec.toNat_setWidth, show (8 : BitVec 64).toNat = 8 from rfl]
    omega
  unfold registerAt
  simp only [hn, Nat.mul_mod_left, if_true, Nat.mul_div_cancel _ (show 0 < 8 by decide)]
  exact dif_pos hr

theorem read_reg {r : Byte} (h : validReg r = true) :
    vmObjects.read vm .vm 0 vmRegs (r.setWidth 64 * 8) = some (.int (vm.regD r)) := by
  show (registerAt (r.setWidth 64 * 8)).map (fun r => Val.int (vm.regs r)) = _
  rw [registerAt_of_valid h, regD_eq vm ((validReg_iff r).mp h)]
  rfl

theorem write_reg {r : Byte} (h : validReg r = true) (value : WaiValue) :
    vmObjects.write vm .vm 0 vmRegs (r.setWidth 64 * 8) value = some (vm.withReg r value) := by
  show (registerAt (r.setWidth 64 * 8)).map (fun r =>
    { vm with regs := fun i => if i.val = r.val then value else vm.regs i }) = _
  rw [registerAt_of_valid h]
  rfl

theorem read_memory {address : BitVec 64} (h : address.toNat ≤ maxAddress) :
    vmObjects.read vm .vm 0 vmMemory address = some (.int (readQword vm.memory address.toNat)) := by
  simp only [vmObjects, ne_eq, not_true_eq_false, if_false, h, if_true]

theorem write_memory {address : BitVec 64} (h : address.toNat ≤ maxAddress) (value : WaiValue) :
    vmObjects.write vm .vm 0 vmMemory address value =
      some { vm with memory := writeQword vm.memory address.toNat value } := by
  simp only [vmObjects, ne_eq, not_true_eq_false, if_false, h, if_true]

/-- The call of the print hook, with the machine in `rdi` and the value in `rsi`. -/
theorem call_print {value : WaiValue} (hrdi : regs .rdi = .ptr .vm 0)
    (hrsi : regs .rsi = .int value) :
    vmObjects.call .waiVmEmitPrint regs vm = some (waiVmEmitPrint vm value) := by
  simp only [vmObjects, hrdi, hrsi]
  rfl

end Operands

/-! ## Leaving the engine -/

section Exits
variable {entry regs : Reg → Val Object} {flags : Option X86.Flags} {vm : WaiVm}
  {status : WaiErrorCode}

/-- `.finish` restores the saved registers and returns. -/
theorem finish_goes {P : Outcome AsmState AsmEnd → Prop} {rc : BitVec 64}
    (hrax : regs .rax = .int rc)
    (hP : ∀ c, ReturnedWith entry rc vm c → P (.done (.returned c))) :
    Goes vmObjects block Label.loop P ⟨[.label .finish], regs, flags, frame entry, vm⟩ := by
  refine .label rfl ?_
  refine .next rfl rfl (.next rfl rfl (.next rfl rfl ?_))
  refine .next rfl rfl (.next rfl rfl (.next rfl rfl ?_))
  refine .done rfl (hP _ ⟨hrax, rfl, rfl, ?_⟩)
  intro r hr
  cases r <;> first | rfl | exact absurd (by decide) hr

theorem resultOutcome_error (h : status ≠ .ok) :
    resultOutcome (.ok (status, vm)) = .done (.stopped status vm) := by
  cases status <;> first | rfl | exact absurd rfl h

theorem resultOutcome_next (h : vm.halted = 0) : resultOutcome (.ok (.ok, vm)) = .next vm :=
  if_neg (not_not_intro h)

/-- `.ok_return` returns `0`. -/
theorem ok_return_goes {P : Outcome AsmState AsmEnd → Prop}
    (hP : ∀ c, ReturnedWith entry 0 vm c → P (.done (.returned c))) :
    Goes vmObjects block Label.loop P ⟨[.label .okReturn], regs, flags, frame entry, vm⟩ := by
  refine .label rfl (.next rfl rfl (.jmp (by decide) ?_))
  exact finish_goes rfl hP

/-- `.error_return` returns `1`. -/
theorem error_return_runs (h : status ≠ .ok) :
    Runs entry (.ok (status, vm)) ⟨[.label .errorReturn], regs, flags, frame entry, vm⟩ := by
  refine .label rfl (.cons rfl (X86.not_atLabel_of_ne rfl (by decide)) ?_)
  refine finish_goes rfl fun c hc => ?_
  rw [resultOutcome_error h]
  show ReturnedWith entry (if status = .ok then 0 else 1) vm c
  rw [if_neg h]
  exact hc

/-- The error exits that are jumped to from an instruction body. -/
theorem error_runs {l : Label} {n : BitVec 32} (h12 : regs .r12 = .ptr .vm 0)
    (hb : block l = [.store32 (vmField vmError) n, .jmp .errorReturn])
    (hn : WaiErrorCode.ofValue n.toNat = some status) (h : status ≠ .ok) :
    Runs entry (.ok (setError vm status)) ⟨[.label l], regs, flags, frame entry, vm⟩ := by
  refine .label (by rw [hb]; rfl) ?_
  rw [hb]
  refine .store32 (address_vm h12 _) (k := vm.failed status) ?_ rfl (.jmp (by decide) ?_)
  · show (WaiErrorCode.ofValue n.toNat).map _ = _
    rw [hn]
    rfl
  · exact error_return_runs h

/-- The error exits that are jumped to from a helper, with its return address
still on the stack. -/
theorem helper_error_runs {l : Label} {n : BitVec 32} {back : List (Instr Label Extern)}
    (h12 : regs .r12 = .ptr .vm 0)
    (hb : block l = [.addRsp 8, .store32 (vmField vmError) n, .jmp .errorReturn])
    (hn : WaiErrorCode.ofValue n.toNat = some status) (h : status ≠ .ok) :
    Runs entry (.ok (setError vm status))
      ⟨[.label l], regs, flags, .ret back :: frame entry, vm⟩ := by
  refine .label (by rw [hb]; rfl) ?_
  rw [hb]
  refine .next rfl rfl ?_
  refine .store32 (address_vm h12 _) (k := vm.failed status) ?_ rfl (.jmp (by decide) ?_)
  · show (WaiErrorCode.ofValue n.toNat).map _ = _
    rw [hn]
    rfl
  · exact error_return_runs h

end Exits

/-! ## Helpers

The context of an instruction body: `r12` points to the machine, `r13` to the
instruction `ins`, the stack is the frame of the prologue. -/

section Helpers
variable {entry regs : Reg → Val Object} {flags : Option X86.Flags} {vm : WaiVm}
  {instr : WaiInstruction} {offset : BitVec 64} {result : VmResult}
  {rest : List (Instr Label Extern)} {P : Outcome AsmState AsmEnd → Prop}
  {stack : List (Slot Object Label Extern)}

theorem seven_lt_iff (r : Byte) : (7 : Byte) < r ↔ validReg r = false := by
  rw [← Bool.not_eq_true, validReg_iff, BitVec.lt_def, show (7 : Byte).toNat = 7 from rfl]
  omega

theorem setWidth_setWidth_byte (r : Byte) : (r.setWidth 64).setWidth 8 = r :=
  BitVec.setWidth_setWidth_of_le _ (by decide)

/-- Back to the head of the loop. -/
theorem loop_runs (h12 : regs .r12 = .ptr .vm 0) (h0 : vm.halted = 0) :
    Runs entry (.ok (.ok, vm)) ⟨[.jmp .loop], regs, flags, frame entry, vm⟩ := by
  refine .arrive rfl ?_
  rw [resultOutcome_next h0]
  exact ⟨rfl, h12, rfl, rfl⟩

/-- `.load_reg_a_index` and `.load_reg_b_index`. -/
theorem loadIndex_runs {l : Label} {disp : Nat} {r : Byte} (h12 : regs .r12 = .ptr .vm 0)
    (h13 : regs .r13 = .ptr .code offset) (hl : l ≠ .loop)
    (hb : block l = [.movzx .rax (ins disp), .cmp8 .rax 7, .jcc .a .errBadRegister, .ret])
    (hread : vmObjects.read8 vm .code offset disp 0 = some r) (hr : startsLabel rest = false)
    (hk : validReg r = true → ∀ flags, Runs entry result
      ⟨rest, set regs .rax (.int (r.setWidth 64)), flags, frame entry, vm⟩) :
    Runs entry (if !validReg r then .ok (setError vm .errBadRegister) else result)
      ⟨.call l :: rest, regs, flags, frame entry, vm⟩ := by
  refine .call hl (.label (by rw [hb]; rfl) ?_)
  rw [hb]
  refine .load8 (address_ins h13 _) hread rfl ?_
  refine .next rfl rfl (.jcc (by decide) rfl (fun hc => ?_) fun hc => ?_)
  · rw [X86.holds_a, decide_eq_true_eq, setWidth_setWidth_byte, seven_lt_iff] at hc
    rw [hc]
    exact helper_error_runs h12 rfl rfl (by decide)
  · rw [X86.holds_a, decide_eq_false_iff_not, setWidth_setWidth_byte, seven_lt_iff,
      Bool.not_eq_false] at hc
    rw [hc]
    exact .ret hr (hk hc _)

theorem loadRegAIndex_runs (h12 : regs .r12 = .ptr .vm 0) (h13 : regs .r13 = .ptr .code offset)
    (hins : instructionAt vm offset = some instr) (hr : startsLabel rest = false)
    (hk : validReg instr.a = true → ∀ flags, Runs entry result
      ⟨rest, set regs .rax (.int (instr.a.setWidth 64)), flags, frame entry, vm⟩) :
    Runs entry (if !validReg instr.a then .ok (setError vm .errBadRegister) else result)
      ⟨.call .loadRegAIndex :: rest, regs, flags, frame entry, vm⟩ := by
  refine loadIndex_runs h12 h13 (by decide) rfl ?_ hr hk
  show (instructionAt vm offset).map _ = _
  rw [hins]
  rfl

/-- Both register operands, the first kept in `r14`. -/
theorem loadRegABIndex_runs (h12 : regs .r12 = .ptr .vm 0) (h13 : regs .r13 = .ptr .code offset)
    (hins : instructionAt vm offset = some instr) (hr : startsLabel rest = false)
    (hk : validReg instr.a = true → validReg instr.b = true → ∀ flags, Runs entry result
      ⟨rest, set (set (set regs .rax (.int (instr.a.setWidth 64))) .r14
        (.int (instr.a.setWidth 64))) .rax (.int (instr.b.setWidth 64)), flags, frame entry, vm⟩) :
    Runs entry
      (if !validReg instr.a || !validReg instr.b then .ok (setError vm .errBadRegister) else result)
      ⟨.call .loadRegAIndex :: .mov .r14 (.reg .rax) :: .call .loadRegBIndex :: rest, regs, flags,
        frame entry, vm⟩ := by
  have hsplit : (if !validReg instr.a || !validReg instr.b then
      (.ok (setError vm .errBadRegister) : VmResult) else result) =
      if !validReg instr.a then .ok (setError vm .errBadRegister)
      else if !validReg instr.b then .ok (setError vm .errBadRegister) else result := by
    cases validReg instr.a <;> rfl
  rw [hsplit]
  refine loadRegAIndex_runs h12 h13 hins rfl fun ha flags => .mov rfl ?_
  refine loadIndex_runs h12 h13 (by decide) rfl ?_ hr fun hb => hk ha hb
  show (instructionAt vm offset).map _ = _
  rw [hins]
  rfl

/-- `.set_zf_from_rax`, the last call of the bodies that assign a register. -/
theorem setZfFromRax_runs {v : WaiValue} (h12 : regs .r12 = .ptr .vm 0)
    (hrax : regs .rax = .int v) (h0 : vm.halted = 0) :
    Runs entry (.ok (.ok, updateZf vm v))
      ⟨[.call .setZfFromRax, .jmp .loop], regs, flags, frame entry, vm⟩ := by
  refine .call (by decide) (.label rfl (.test hrax hrax rfl ?_))
  refine .sete (address_vm h12 _) (k := updateZf vm v) ?_ rfl (.ret rfl (loop_runs h12 h0))
  have hz : (testFlags v v).zf = decide (v = 0) := X86.holds_test_e
  rw [hz, updateZf]
  simp only [decide_eq_true_eq]
  rfl

/-- The end of the bodies that leave the new value of `regs[a]` in `rax`. -/
theorem assignRax_runs {a : Byte} {v : WaiValue} (ha : validReg a = true)
    (h12 : regs .r12 = .ptr .vm 0) (h14 : regs .r14 = .int (a.setWidth 64))
    (hrax : regs .rax = .int v) (h0 : vm.halted = 0) :
    Runs entry (.ok (vm.assigned a (.ok v)))
      ⟨[.store (vmReg .r14) .rax, .call .setZfFromRax, .jmp .loop], regs, flags, frame entry, vm⟩ :=
  .store (address_reg h12 h14) hrax (write_reg ha v) rfl (setZfFromRax_runs h12 hrax h0)

/-- The end of the bodies that leave the new value of `regs[a]` in `rdx`. -/
theorem assignRdx_runs {a : Byte} {v : WaiValue} (ha : validReg a = true)
    (h12 : regs .r12 = .ptr .vm 0) (h14 : regs .r14 = .int (a.setWidth 64))
    (hrdx : regs .rdx = .int v) (h0 : vm.halted = 0) :
    Runs entry (.ok (vm.assigned a (.ok v)))
      ⟨[.store (vmReg .r14) .rdx, .mov .rax (.reg .rdx), .call .setZfFromRax, .jmp .loop], regs,
        flags, frame entry, vm⟩ :=
  .store (address_reg h12 h14) hrdx (write_reg ha v) rfl
    (.mov rfl (setZfFromRax_runs h12 hrdx h0))

/-- `.check_jump_imm`, with the target in `rax` when it is valid. -/
theorem checkJumpImm_runs (h12 : regs .r12 = .ptr .vm 0) (h13 : regs .r13 = .ptr .code offset)
    (hins : instructionAt vm offset = some instr) (hr : startsLabel rest = false)
    (hvalid : ValidTarget vm instr.imm → ∀ flags, Runs entry result
      ⟨rest, set (set regs .rax (.int instr.imm)) .rbx (.int vm.codeCount), flags, frame entry, vm⟩)
    (hbad : ¬ ValidTarget vm instr.imm → result = .ok (setError vm .errBadJump)) :
    Runs entry result ⟨.call .checkJumpImm :: rest, regs, flags, frame entry, vm⟩ := by
  have hread : vmObjects.read vm .code offset insImm 0 = some (.int instr.imm) := by
    show (instructionAt vm offset).map _ = _
    rw [hins]
    rfl
  refine .call (by decide) (.label rfl (.load (address_ins h13 _) hread rfl ?_))
  refine .test rfl rfl rfl (.jcc (by decide) rfl (fun hs => ?_) fun hs => ?_)
  · rw [X86.holds_test_s, decide_eq_true_eq] at hs
    rw [hbad fun hv => absurd hv.1 (Int.not_le.mpr hs)]
    exact helper_error_runs h12 rfl rfl (by decide)
  · rw [X86.holds_test_s, decide_eq_false_iff_not, Int.not_lt] at hs
    refine .load (address_vm h12 _) rfl rfl (.cmp_reg rfl rfl rfl ?_)
    refine .jcc (by decide) rfl (fun hc => ?_) fun hc => ?_
    · rw [X86.holds_ae, decide_eq_true_eq] at hc
      rw [hbad fun hv => absurd hv.2 (BitVec.not_lt.mpr hc)]
      exact helper_error_runs h12 rfl rfl (by decide)
    · rw [X86.holds_ae, decide_eq_false_iff_not, BitVec.not_le] at hc
      exact .ret hr (hvalid ⟨hs, hc⟩ _)

/-- A target below an instruction count is not negative. -/
theorem validTarget_iff {target : WaiValue} (hcount : vm.codeCount.toNat < 2 ^ 63) :
    ValidTarget vm target ↔ target < vm.codeCount := by
  refine ⟨fun h => h.2, fun h => ⟨?_, h⟩⟩
  have hlt : target.toNat < vm.codeCount.toNat := h
  rw [BitVec.toInt_eq_toNat_cond]
  split <;> omega

/-- `.check_jump_rax` has no test of the sign. -/
theorem checkJumpRax_runs {target : WaiValue} (h12 : regs .r12 = .ptr .vm 0)
    (hrax : regs .rax = .int target) (hcount : vm.codeCount.toNat < 2 ^ 63)
    (hr : startsLabel rest = false)
    (hvalid : ValidTarget vm target → ∀ flags, Runs entry result
      ⟨rest, set regs .rbx (.int vm.codeCount), flags, frame entry, vm⟩)
    (hbad : ¬ ValidTarget vm target → result = .ok (setError vm .errBadJump)) :
    Runs entry result ⟨.call .checkJumpRax :: rest, regs, flags, frame entry, vm⟩ := by
  refine .call (by decide) (.label rfl (.load (address_vm h12 _) rfl rfl ?_))
  refine .cmp_reg hrax rfl rfl (.jcc (by decide) rfl (fun hc => ?_) fun hc => ?_)
  · rw [X86.holds_ae, decide_eq_true_eq] at hc
    rw [hbad fun hv => absurd hv.2 (BitVec.not_lt.mpr hc)]
    exact helper_error_runs h12 rfl rfl (by decide)
  · rw [X86.holds_ae, decide_eq_false_iff_not, BitVec.not_le] at hc
    exact .ret hr (hvalid ((validTarget_iff hcount).mpr hc) _)

/-- The body of a helper that tests `rbx` against zero and an upper limit. -/
theorem checkRangeRbx_runs {valid : Prop} {x : WaiValue} {limit : Int} {bad : Label}
    {n : BitVec 32} (h12 : regs .r12 = .ptr .vm 0) (hrbx : regs .rbx = .int x)
    (hb : block bad = [.addRsp 8, .store32 (vmField vmError) n, .jmp .errorReturn])
    (hn : WaiErrorCode.ofValue n.toNat = some status) (hne : status ≠ .ok)
    (hnonneg : valid → 0 ≤ x.toInt) (hlimit : 0 ≤ x.toInt → (BitVec.ofInt 64 limit < x ↔ ¬ valid))
    (hr : startsLabel rest = false)
    (hvalid : valid → ∀ flags, Runs entry result ⟨rest, regs, flags, frame entry, vm⟩)
    (hbad : ¬ valid → result = .ok (setError vm status)) :
    Runs entry result
      ⟨[.test .rbx .rbx, .jcc .s bad, .cmp .rbx (.imm limit), .jcc .a bad, .ret], regs, flags,
        .ret rest :: frame entry, vm⟩ := by
  have hloop : bad ≠ .loop := by
    rintro rfl
    cases hb
  refine .test hrbx hrbx rfl (.jcc hloop rfl (fun hs => ?_) fun hs => ?_)
  · rw [X86.holds_test_s, decide_eq_true_eq] at hs
    rw [hbad fun hv => absurd (hnonneg hv) (Int.not_le.mpr hs)]
    exact helper_error_runs h12 hb hn hne
  · rw [X86.holds_test_s, decide_eq_false_iff_not, Int.not_lt] at hs
    refine .cmp_imm hrbx rfl (.jcc hloop rfl (fun hc => ?_) fun hc => ?_)
    · rw [X86.holds_a, decide_eq_true_eq, hlimit hs] at hc
      rw [hbad hc]
      exact helper_error_runs h12 hb hn hne
    · rw [X86.holds_a, decide_eq_false_iff_not, hlimit hs, Classical.not_not] at hc
      exact .ret hr (hvalid hc _)

/-- `.check_mem_addr_rbx` -/
theorem checkMemAddrRbx_runs {addr : WaiValue} (h12 : regs .r12 = .ptr .vm 0)
    (hrbx : regs .rbx = .int addr) (hr : startsLabel rest = false)
    (hvalid : ValidAddress addr → ∀ flags, Runs entry result
      ⟨rest, regs, flags, frame entry, vm⟩)
    (hbad : ¬ ValidAddress addr → result = .ok (setError vm .errMemoryOob)) :
    Runs entry result ⟨.call .checkMemAddrRbx :: rest, regs, flags, frame entry, vm⟩ := by
  have hlimit : BitVec.ofInt 64 (65536 - 8) < addr ↔ ¬ ValidAddress addr := by
    rw [validAddress_iff, Nat.not_le]
    exact Iff.rfl
  refine .call (by decide) (.label rfl ?_)
  exact checkRangeRbx_runs h12 hrbx rfl rfl (by decide) And.left (fun _ => hlimit) hr hvalid hbad

/-- `.check_shift_rbx` -/
theorem checkShiftRbx_runs {shift : WaiValue} (h12 : regs .r12 = .ptr .vm 0)
    (hrbx : regs .rbx = .int shift) (hr : startsLabel rest = false)
    (hvalid : ValidShift shift → ∀ flags, Runs entry result ⟨rest, regs, flags, frame entry, vm⟩)
    (hbad : ¬ ValidShift shift → result = .ok (setError vm .errBadShift)) :
    Runs entry result ⟨.call .checkShiftRbx :: rest, regs, flags, frame entry, vm⟩ := by
  have hlimit : 0 ≤ shift.toInt → (BitVec.ofInt 64 63 < shift ↔ ¬ ValidShift shift) := by
    intro hs
    have hnat : shift.toInt = shift.toNat := toInt_eq_toNat_of_nonneg hs
    unfold ValidShift
    rw [BitVec.lt_def, show (BitVec.ofInt 64 63).toNat = 63 from rfl]
    omega
  refine .call (by decide) (.label rfl ?_)
  exact checkRangeRbx_runs h12 hrbx rfl rfl (by decide) And.left hlimit hr hvalid hbad

/-- `.push_rax`: only the lower bound of `sp` is tested. -/
theorem pushRax_runs {v : WaiValue} (h12 : regs .r12 = .ptr .vm 0) (hrax : regs .rax = .int v)
    (hsp : vm.sp.toNat ≤ waiMemorySize) (hr : startsLabel rest = false)
    (hok : 8 ≤ vm.sp.toNat → ∀ flags, Runs entry result
      ⟨rest, set (set regs .rbx (.int vm.sp)) .rbx (.int (vm.sp - 8)), flags, frame entry,
        vm.pushed v⟩)
    (hfull : vm.sp.toNat < 8 → result = .ok (setError vm .errStackOverflow)) :
    Runs entry result ⟨.call .pushRax :: rest, regs, flags, frame entry, vm⟩ := by
  refine .call (by decide) (.label rfl (.load (address_vm h12 _) rfl rfl (.cmp_imm rfl rfl ?_)))
  refine .jcc (by decide) rfl (fun hc => ?_) fun hc => ?_
  · rw [X86.holds_b, decide_eq_true_eq] at hc
    rw [hfull hc]
    exact helper_error_runs h12 rfl rfl (by decide)
  · rw [X86.holds_b, decide_eq_false_iff_not, BitVec.not_lt] at hc
    have hle : 8 ≤ vm.sp.toNat := hc
    have haddr : (vm.sp - 8).toNat ≤ maxAddress := by
      have h8 : (8 : BitVec 64).toNat = 8 := rfl
      simp only [maxAddress, sizeofWaiValue, waiMemorySize, BitVec.toNat_sub, h8] at hsp ⊢
      omega
    refine .alu_imm rfl rfl (.store (address_vm h12 _) rfl rfl rfl ?_)
    exact .store (address_memory h12 rfl) hrax (write_memory haddr v) rfl (.ret hr (hok hle _))

/-- `.pop_rax` -/
theorem popRax_runs (h12 : regs .r12 = .ptr .vm 0) (hr : startsLabel rest = false)
    (hok : vm.sp.toNat ≤ maxAddress → ∀ flags, Runs entry result
      ⟨rest, set (set (set regs .rbx (.int vm.sp)) .rax (.int vm.top)) .rbx (.int (vm.sp + 8)),
        flags, frame entry, vm.popped⟩)
    (hempty : maxAddress < vm.sp.toNat → result = .ok (setError vm .errStackUnderflow)) :
    Runs entry result ⟨.call .popRax :: rest, regs, flags, frame entry, vm⟩ := by
  refine .call (by decide) (.label rfl (.load (address_vm h12 _) rfl rfl (.cmp_imm rfl rfl ?_)))
  refine .jcc (by decide) rfl (fun hc => ?_) fun hc => ?_
  · rw [X86.holds_a, decide_eq_true_eq] at hc
    rw [hempty hc]
    exact helper_error_runs h12 rfl rfl (by decide)
  · rw [X86.holds_a, decide_eq_false_iff_not, BitVec.not_lt] at hc
    have hle : vm.sp.toNat ≤ maxAddress := hc
    refine .load (address_memory h12 rfl) (read_memory hle) rfl (.alu_imm rfl rfl ?_)
    exact .store (address_vm h12 _) rfl rfl rfl (.ret hr (hok hle _))

end Helpers

/-! ## Instruction bodies

One rule for each case of the `switch`, for a machine `vm` that is running and
whose current instruction is `instr`. Bodies that differ in one instruction
share a rule over that instruction. -/

section Bodies
variable {entry regs : Reg → Val Object} {flags : Option X86.Flags} {vm : WaiVm}
  {instr : WaiInstruction} {offset : BitVec 64} {a : Byte} {x y : WaiValue} {op : BinaryOp}

/-- The immediate operand of the current instruction. -/
theorem read_imm (hins : instructionAt vm offset = some instr) :
    vmObjects.read vm .code offset insImm 0 = some (.int instr.imm) := by
  show (instructionAt vm offset).map _ = _
  rw [hins]
  rfl

theorem assignReg_value {v : WaiValue} (ha : validReg a = true) (hop : op (vm.regD a) y = .ok (.ok v)) :
    assignReg vm a op y = .ok (vm.assigned a (.ok v)) := by
  rw [assignReg_spec ha, hop]
  rfl

theorem assignReg_fails {e : WaiErrorCode} (ha : validReg a = true) (hop : op (vm.regD a) y = .ok (.error e)) :
    assignReg vm a op y = .ok (setError vm e) := by
  rw [assignReg_spec ha, hop]
  rfl

variable (h12 : regs .r12 = .ptr .vm 0) (h13 : regs .r13 = .ptr .code offset)
  (hins : instructionAt vm offset = some instr) (h0 : vm.halted = 0)
include h12 h13 hins h0

theorem opMovImm_runs :
    Runs entry (caseImm vm instr movOp) ⟨[.label .opMovImm], regs, flags, frame entry, vm⟩ := by
  refine .label rfl (loadRegAIndex_runs h12 h13 hins rfl fun ha _ => ?_)
  rw [assignReg_value ha rfl]
  refine .load (address_ins h13 _) (read_imm hins) rfl ?_
  refine .store (address_reg h12 rfl) rfl (write_reg ha _) rfl (.mov rfl ?_)
  exact setZfFromRax_runs h12 rfl h0

theorem opMovReg_runs :
    Runs entry (caseReg vm instr movOp) ⟨[.label .opMovReg], regs, flags, frame entry, vm⟩ := by
  refine .label rfl (loadRegABIndex_runs h12 h13 hins rfl fun ha hb _ => ?_)
  rw [reg_spec vm hb]
  show Runs entry (assignReg vm instr.a movOp (vm.regD instr.b)) _
  rw [assignReg_value ha rfl]
  refine .load (address_reg h12 rfl) (read_reg hb) rfl ?_
  exact assignRdx_runs ha h12 rfl rfl h0

section Alu
variable {alu : X86.Alu} {f : WaiValue → WaiValue → WaiValue}

/-- `add` and `sub` with an immediate go through `rdx`. -/
theorem aluImmRdx_runs (halu : ∀ x y, alu.apply (.int x : Val Object) (.int y) = .ok (.int (f x y)))
    (hop : ∀ x y, op x y = .ok (.ok (f x y))) :
    Runs entry (caseImm vm instr op)
      ⟨[.call .loadRegAIndex, .mov .r14 (.reg .rax), .mov .rdx (.mem (vmReg .r14)),
        .alu alu .rdx (.mem (ins insImm)), .store (vmReg .r14) .rdx, .mov .rax (.reg .rdx),
        .call .setZfFromRax, .jmp .loop], regs, flags, frame entry, vm⟩ := by
  refine loadRegAIndex_runs h12 h13 hins rfl fun ha _ => .mov rfl ?_
  rw [assignReg_value ha (hop _ _)]
  refine .load (address_reg h12 rfl) (read_reg ha) rfl ?_
  refine .alu_mem (address_ins h13 _) (read_imm hins) (halu _ _) rfl ?_
  exact assignRdx_runs ha h12 rfl rfl h0

/-- `add` and `sub` with a register go through `rdx`. -/
theorem aluRegRdx_runs (halu : ∀ x y, alu.apply (.int x : Val Object) (.int y) = .ok (.int (f x y)))
    (hop : ∀ x y, op x y = .ok (.ok (f x y))) :
    Runs entry (caseReg vm instr op)
      ⟨[.call .loadRegAIndex, .mov .r14 (.reg .rax), .call .loadRegBIndex,
        .mov .rdx (.mem (vmReg .r14)), .alu alu .rdx (.mem (vmReg .rax)), .store (vmReg .r14) .rdx,
        .mov .rax (.reg .rdx), .call .setZfFromRax, .jmp .loop], regs, flags, frame entry, vm⟩ := by
  refine loadRegABIndex_runs h12 h13 hins rfl fun ha hb _ => ?_
  rw [reg_spec vm hb]
  show Runs entry (assignReg vm instr.a op (vm.regD instr.b)) _
  rw [assignReg_value ha (hop _ _)]
  refine .load (address_reg h12 rfl) (read_reg ha) rfl ?_
  refine .alu_mem (address_reg h12 rfl) (read_reg hb) (halu _ _) rfl ?_
  exact assignRdx_runs ha h12 rfl rfl h0

/-- `imul`, `and`, `or` and `xor` with an immediate go through `rax`. -/
theorem aluImmRax_runs (halu : ∀ x y, alu.apply (.int x : Val Object) (.int y) = .ok (.int (f x y)))
    (hop : ∀ x y, op x y = .ok (.ok (f x y))) :
    Runs entry (caseImm vm instr op)
      ⟨[.call .loadRegAIndex, .mov .r14 (.reg .rax), .mov .rax (.mem (vmReg .r14)),
        .alu alu .rax (.mem (ins insImm)), .store (vmReg .r14) .rax, .call .setZfFromRax,
        .jmp .loop], regs, flags, frame entry, vm⟩ := by
  refine loadRegAIndex_runs h12 h13 hins rfl fun ha _ => .mov rfl ?_
  rw [assignReg_value ha (hop _ _)]
  refine .load (address_reg h12 rfl) (read_reg ha) rfl ?_
  refine .alu_mem (address_ins h13 _) (read_imm hins) (halu _ _) rfl ?_
  exact assignRax_runs ha h12 rfl rfl h0

/-- `and`, `or` and `xor` with a register keep its index in `r15`. -/
theorem aluRegRax_runs (halu : ∀ x y, alu.apply (.int x : Val Object) (.int y) = .ok (.int (f x y)))
    (hop : ∀ x y, op x y = .ok (.ok (f x y))) :
    Runs entry (caseReg vm instr op)
      ⟨[.call .loadRegAIndex, .mov .r14 (.reg .rax), .call .loadRegBIndex, .mov .r15 (.reg .rax),
        .mov .rax (.mem (vmReg .r14)), .alu alu .rax (.mem (vmReg .r15)), .store (vmReg .r14) .rax,
        .call .setZfFromRax, .jmp .loop], regs, flags, frame entry, vm⟩ := by
  refine loadRegABIndex_runs h12 h13 hins rfl fun ha hb _ => .mov rfl ?_
  rw [reg_spec vm hb]
  show Runs entry (assignReg vm instr.a op (vm.regD instr.b)) _
  rw [assignReg_value ha (hop _ _)]
  refine .load (address_reg h12 rfl) (read_reg ha) rfl ?_
  refine .alu_mem (address_reg h12 rfl) (read_reg hb) (halu _ _) rfl ?_
  exact assignRax_runs ha h12 rfl rfl h0

end Alu

theorem opMulReg_runs :
    Runs entry (caseReg vm instr mulOp) ⟨[.label .opMulReg], regs, flags, frame entry, vm⟩ := by
  refine .label rfl (loadRegABIndex_runs h12 h13 hins rfl fun ha hb _ => ?_)
  rw [reg_spec vm hb]
  show Runs entry (assignReg vm instr.a mulOp (vm.regD instr.b)) _
  rw [assignReg_value ha rfl]
  refine .load (address_reg h12 rfl) (read_reg hb) rfl ?_
  refine .load (address_reg h12 rfl) (read_reg ha) rfl (.alu_reg rfl rfl ?_)
  exact assignRax_runs ha h12 rfl rfl h0

theorem opNot_runs :
    Runs entry (caseImm vm instr notOp) ⟨[.label .opNot], regs, flags, frame entry, vm⟩ := by
  refine .label rfl (loadRegAIndex_runs h12 h13 hins rfl fun ha _ => .mov rfl ?_)
  rw [assignReg_value ha rfl]
  refine .load (address_reg h12 rfl) (read_reg ha) rfl (.not rfl rfl ?_)
  exact assignRax_runs ha h12 rfl rfl h0

omit h13 hins h0 in
/-- The division shared by the four bodies, up to the register that is stored:
`idiv` traps exactly where the C operators have no value. -/
theorem divide_runs {pick : WaiValue → WaiValue → WaiValue} {rest : List (Instr Label Extern)}
    (ha : validReg a = true) (h14 : regs .r14 = .int (a.setWidth 64)) (hrbx : regs .rbx = .int y)
    (hzero : ∀ x, op x 0 = .ok (.error .errDivZero))
    (hop : ∀ x, y ≠ 0 → op x y = if InInt64 (x.toInt.tdiv y.toInt) then
      .ok (.ok (pick (BitVec.ofInt 64 (x.toInt.tdiv y.toInt))
        (BitVec.ofInt 64 (x.toInt.tmod y.toInt)))) else .error .divide)
    (hr : startsLabel rest = false)
    (hk : ∀ regs' : Reg → Val Object, ∀ q r, regs' .r12 = .ptr .vm 0 →
      regs' .r14 = .int (a.setWidth 64) → regs' .rax = .int q → regs' .rdx = .int r →
      Runs entry (.ok (vm.assigned a (.ok (pick q r)))) ⟨rest, regs', none, frame entry, vm⟩) :
    Runs entry (assignReg vm a op y)
      ⟨.test .rbx .rbx :: .jcc .e .errDivZero :: .mov .rax (.mem (vmReg .r14)) :: .cqo ::
        .idiv .rbx :: rest, regs, flags, frame entry, vm⟩ := by
  refine .test hrbx hrbx rfl (.jcc (by decide) rfl (fun hc => ?_) fun hc => ?_)
  · rw [X86.holds_test_e, decide_eq_true_eq] at hc
    rw [assignReg_fails ha (hc ▸ hzero _)]
    exact error_runs h12 rfl rfl (by decide)
  · rw [X86.holds_test_e, decide_eq_false_iff_not] at hc
    refine .load (address_reg h12 h14) (read_reg ha) rfl (.cqo rfl rfl ?_)
    by_cases hq : InInt64 ((vm.regD a).toInt.tdiv y.toInt)
    · have hdiv := (X86.idivide_cqo hc).trans (if_pos hq)
      rw [assignReg_value ha ((hop _ hc).trans (if_pos hq))]
      exact .idiv rfl rfl hrbx hdiv hr (hk _ _ _ h12 h14 rfl rfl)
    · have hdiv := (X86.idivide_cqo hc).trans (if_neg hq)
      have hfault : assignReg vm a op y = .error .divide := by
        rw [assignReg_spec ha, hop _ hc, if_neg hq]
        rfl
      rw [hfault]
      exact .idiv_trap rfl rfl hrbx hdiv trivial

omit h12 h13 hins h0 in
theorem divOp_of_ne (hy : y ≠ 0) :
    divOp x y = if InInt64 (x.toInt.tdiv y.toInt) then
      .ok (.ok (BitVec.ofInt 64 (x.toInt.tdiv y.toInt))) else .error .divide := by
  rw [divOp, if_neg hy, cDiv]
  split <;> rfl

omit h12 h13 hins h0 in
theorem modOp_of_ne (hy : y ≠ 0) :
    modOp x y = if InInt64 (x.toInt.tdiv y.toInt) then
      .ok (.ok (BitVec.ofInt 64 (x.toInt.tmod y.toInt))) else .error .divide := by
  rw [modOp, if_neg hy, cMod]
  split <;> rfl

omit h13 hins in
theorem div_runs (ha : validReg a = true)
    (h14 : regs .r14 = .int (a.setWidth 64)) (hrbx : regs .rbx = .int y) :
    Runs entry (assignReg vm a divOp y)
      ⟨[.test .rbx .rbx, .jcc .e .errDivZero, .mov .rax (.mem (vmReg .r14)), .cqo, .idiv .rbx,
        .store (vmReg .r14) .rax, .call .setZfFromRax, .jmp .loop], regs, flags, frame entry, vm⟩ :=
  divide_runs h12 ha h14 hrbx (fun _ => if_pos rfl)
    (fun _ hy => divOp_of_ne hy) rfl
    fun _ _ _ h12 h14 hrax _ => assignRax_runs ha h12 h14 hrax h0

omit h13 hins in
theorem mod_runs (ha : validReg a = true)
    (h14 : regs .r14 = .int (a.setWidth 64)) (hrbx : regs .rbx = .int y) :
    Runs entry (assignReg vm a modOp y)
      ⟨[.test .rbx .rbx, .jcc .e .errDivZero, .mov .rax (.mem (vmReg .r14)), .cqo, .idiv .rbx,
        .store (vmReg .r14) .rdx, .mov .rax (.reg .rdx), .call .setZfFromRax, .jmp .loop], regs,
        flags, frame entry, vm⟩ :=
  divide_runs h12 ha h14 hrbx (fun _ => if_pos rfl)
    (fun _ hy => modOp_of_ne hy) rfl
    fun _ _ _ h12 h14 _ hrdx => assignRdx_runs ha h12 h14 hrdx h0

theorem opDivImm_runs :
    Runs entry (caseImm vm instr divOp) ⟨[.label .opDivImm], regs, flags, frame entry, vm⟩ := by
  refine .label rfl (loadRegAIndex_runs h12 h13 hins rfl fun ha _ => .mov rfl ?_)
  refine .load (address_ins h13 _) (read_imm hins) rfl ?_
  exact div_runs h12 h0 ha rfl rfl

theorem opModImm_runs :
    Runs entry (caseImm vm instr modOp) ⟨[.label .opModImm], regs, flags, frame entry, vm⟩ := by
  refine .label rfl (loadRegAIndex_runs h12 h13 hins rfl fun ha _ => .mov rfl ?_)
  refine .load (address_ins h13 _) (read_imm hins) rfl ?_
  exact mod_runs h12 h0 ha rfl rfl

theorem opDivReg_runs :
    Runs entry (caseReg vm instr divOp) ⟨[.label .opDivReg], regs, flags, frame entry, vm⟩ := by
  refine .label rfl (loadRegABIndex_runs h12 h13 hins rfl fun ha hb _ => ?_)
  rw [reg_spec vm hb]
  refine .load (address_reg h12 rfl) (read_reg hb) rfl ?_
  exact div_runs h12 h0 ha rfl rfl

theorem opModReg_runs :
    Runs entry (caseReg vm instr modOp) ⟨[.label .opModReg], regs, flags, frame entry, vm⟩ := by
  refine .label rfl (loadRegABIndex_runs h12 h13 hins rfl fun ha hb _ => ?_)
  rw [reg_spec vm hb]
  refine .load (address_reg h12 rfl) (read_reg hb) rfl ?_
  exact mod_runs h12 h0 ha rfl rfl

/-! ### Shifts -/

omit h12 h13 hins h0 in
/-- The shift count in `cl` is the count of the C code. -/
theorem shift_count {shift : WaiValue} (h : ValidShift shift) :
    (shift.setWidth 8).toNat % 64 = shift.toNat := by
  have hnat := toInt_eq_toNat_of_nonneg h.1
  have hle := h.2
  rw [BitVec.toNat_setWidth]
  omega

omit h12 h13 hins h0 in
theorem shlOp_of_valid (h : ValidShift y) : shlOp x y = .ok (.ok (x <<< y.toNat)) := by
  rw [shlOp, checkShift_of_valid h]
  rfl

omit h12 h13 hins h0 in
theorem shrOp_of_valid (h : ValidShift y) : shrOp x y = .ok (.ok (x >>> y.toNat)) := by
  rw [shrOp, checkShift_of_valid h]
  rfl

omit h13 hins in
theorem shl_runs (ha : validReg a = true) (h14 : regs .r14 = .int (a.setWidth 64))
    (hrbx : regs .rbx = .int y) :
    Runs entry (assignReg vm a shlOp y)
      ⟨[.call .checkShiftRbx, .mov8 .rcx .rbx, .mov .rax (.mem (vmReg .r14)), .shlCl .rax,
        .store (vmReg .r14) .rax, .call .setZfFromRax, .jmp .loop], regs, flags, frame entry,
        vm⟩ := by
  refine checkShiftRbx_runs h12 hrbx rfl (fun hv _ => ?_) fun hv => ?_
  · rw [assignReg_value ha (shlOp_of_valid hv), ← shift_count hv]
    refine .mov8 (congrArg Val.lowByte hrbx) rfl ?_
    refine .load (address_reg h12 h14) (read_reg ha) rfl ?_
    refine .shlCl rfl (X86.lowByte_withLowByte _ _) rfl ?_
    exact assignRax_runs ha h12 h14 rfl h0
  · refine assignReg_fails ha ?_
    rw [shlOp, checkShift_of_not_valid hv]
    rfl

omit h13 hins in
theorem shr_runs (ha : validReg a = true) (h14 : regs .r14 = .int (a.setWidth 64))
    (hrbx : regs .rbx = .int y) :
    Runs entry (assignReg vm a shrOp y)
      ⟨[.call .checkShiftRbx, .mov8 .rcx .rbx, .mov .rax (.mem (vmReg .r14)), .shrCl .rax,
        .store (vmReg .r14) .rax, .call .setZfFromRax, .jmp .loop], regs, flags, frame entry,
        vm⟩ := by
  refine checkShiftRbx_runs h12 hrbx rfl (fun hv _ => ?_) fun hv => ?_
  · rw [assignReg_value ha (shrOp_of_valid hv), ← shift_count hv]
    refine .mov8 (congrArg Val.lowByte hrbx) rfl ?_
    refine .load (address_reg h12 h14) (read_reg ha) rfl ?_
    refine .shrCl rfl (X86.lowByte_withLowByte _ _) rfl ?_
    exact assignRax_runs ha h12 h14 rfl h0
  · refine assignReg_fails ha ?_
    rw [shrOp, checkShift_of_not_valid hv]
    rfl

theorem opShlImm_runs :
    Runs entry (caseImm vm instr shlOp) ⟨[.label .opShlImm], regs, flags, frame entry, vm⟩ := by
  refine .label rfl (loadRegAIndex_runs h12 h13 hins rfl fun ha _ => .mov rfl ?_)
  refine .load (address_ins h13 _) (read_imm hins) rfl ?_
  exact shl_runs h12 h0 ha rfl rfl

theorem opShlReg_runs :
    Runs entry (caseReg vm instr shlOp) ⟨[.label .opShlReg], regs, flags, frame entry, vm⟩ := by
  refine .label rfl (loadRegABIndex_runs h12 h13 hins rfl fun ha hb _ => ?_)
  rw [reg_spec vm hb]
  refine .load (address_reg h12 rfl) (read_reg hb) rfl ?_
  exact shl_runs h12 h0 ha rfl rfl

theorem opShrImm_runs :
    Runs entry (caseImm vm instr shrOp) ⟨[.label .opShrImm], regs, flags, frame entry, vm⟩ := by
  refine .label rfl (loadRegAIndex_runs h12 h13 hins rfl fun ha _ => .mov rfl ?_)
  refine .load (address_ins h13 _) (read_imm hins) rfl ?_
  exact shr_runs h12 h0 ha rfl rfl

theorem opShrReg_runs :
    Runs entry (caseReg vm instr shrOp) ⟨[.label .opShrReg], regs, flags, frame entry, vm⟩ := by
  refine .label rfl (loadRegABIndex_runs h12 h13 hins rfl fun ha hb _ => ?_)
  rw [reg_spec vm hb]
  refine .load (address_reg h12 rfl) (read_reg hb) rfl ?_
  exact shr_runs h12 h0 ha rfl rfl

/-! ### Loads and stores -/

omit h13 hins in
theorem loadFrom_runs (ha : validReg a = true) (h14 : regs .r14 = .int (a.setWidth 64))
    (hrbx : regs .rbx = .int y) :
    Runs entry (loadFrom vm a y)
      ⟨[.call .checkMemAddrRbx, .mov .rax (.mem (vmMemoryAt .rbx)), .store (vmReg .r14) .rax,
        .call .setZfFromRax, .jmp .loop], regs, flags, frame entry, vm⟩ := by
  refine checkMemAddrRbx_runs h12 hrbx rfl (fun hv _ => ?_) fun hv => loadFrom_of_not_valid hv
  rw [loadFrom_of_valid ha hv]
  refine .load (address_memory h12 hrbx) (read_memory ((validAddress_iff _).mp hv)) rfl ?_
  exact assignRax_runs ha h12 h14 rfl h0

omit h13 hins in
theorem storeTo_runs (ha : validReg a = true) (h14 : regs .r14 = .int (a.setWidth 64))
    (hrbx : regs .rbx = .int y) :
    Runs entry (storeTo vm a y)
      ⟨[.call .checkMemAddrRbx, .mov .rax (.mem (vmReg .r14)), .store (vmMemoryAt .rbx) .rax,
        .jmp .loop], regs, flags, frame entry, vm⟩ := by
  refine checkMemAddrRbx_runs h12 hrbx rfl (fun hv _ => ?_) fun hv => storeTo_of_not_valid hv
  rw [storeTo_of_valid ha hv]
  refine .load (address_reg h12 h14) (read_reg ha) rfl ?_
  refine .store (address_memory h12 hrbx) rfl (write_memory ((validAddress_iff _).mp hv) _) rfl ?_
  exact loop_runs h12 h0

theorem opLoadAbs_runs :
    Runs entry
      (if !validReg instr.a then .ok (setError vm .errBadRegister)
        else loadFrom vm instr.a instr.imm)
      ⟨[.label .opLoadAbs], regs, flags, frame entry, vm⟩ := by
  refine .label rfl (loadRegAIndex_runs h12 h13 hins rfl fun ha _ => .mov rfl ?_)
  refine .load (address_ins h13 _) (read_imm hins) rfl ?_
  exact loadFrom_runs h12 h0 ha rfl rfl

theorem opLoadReg_runs :
    Runs entry
      (if !validReg instr.a || !validReg instr.b then .ok (setError vm .errBadRegister)
        else do
          let address ← vm.reg instr.b
          loadFrom vm instr.a address)
      ⟨[.label .opLoadReg], regs, flags, frame entry, vm⟩ := by
  refine .label rfl (loadRegABIndex_runs h12 h13 hins rfl fun ha hb _ => ?_)
  rw [reg_spec vm hb]
  refine .load (address_reg h12 rfl) (read_reg hb) rfl ?_
  exact loadFrom_runs h12 h0 ha rfl rfl

theorem opStoreAbs_runs :
    Runs entry
      (if !validReg instr.a then .ok (setError vm .errBadRegister)
        else storeTo vm instr.a instr.imm)
      ⟨[.label .opStoreAbs], regs, flags, frame entry, vm⟩ := by
  refine .label rfl (loadRegAIndex_runs h12 h13 hins rfl fun ha _ => .mov rfl ?_)
  refine .load (address_ins h13 _) (read_imm hins) rfl ?_
  exact storeTo_runs h12 h0 ha rfl rfl

theorem opStoreReg_runs :
    Runs entry
      (if !validReg instr.a || !validReg instr.b then .ok (setError vm .errBadRegister)
        else do
          let address ← vm.reg instr.b
          storeTo vm instr.a address)
      ⟨[.label .opStoreReg], regs, flags, frame entry, vm⟩ := by
  refine .label rfl (loadRegABIndex_runs h12 h13 hins rfl fun ha hb _ => ?_)
  rw [reg_spec vm hb]
  refine .load (address_reg h12 rfl) (read_reg hb) rfl ?_
  exact storeTo_runs h12 h0 ha rfl rfl

/-! ### Jumps and comparisons -/

/-- The end of the jumps that are taken. -/
theorem jump_runs :
    Runs entry (.ok (jumpTo vm instr.imm))
      ⟨[.call .checkJumpImm, .store (vmField vmIp) .rax, .jmp .loop], regs, flags, frame entry,
        vm⟩ := by
  refine checkJumpImm_runs h12 h13 hins rfl (fun hv _ => ?_) fun hv => ?_
  · rw [jumpTo_of_valid hv]
    refine .store (address_vm h12 _) rfl rfl rfl ?_
    exact loop_runs h12 h0
  · rw [jumpTo_of_not_valid hv]
    rfl

theorem opJmp_runs :
    Runs entry (.ok (jumpTo vm instr.imm))
      ⟨[.label .opJmp], regs, flags, frame entry, vm⟩ :=
  .label rfl (jump_runs h12 h13 hins h0)

omit h13 hins in
/-- A branch that is not taken goes back to the head of the loop. -/
theorem not_taken : Matches entry (resultOutcome (.ok (.ok, vm)))
    (.next ⟨[.label .loop], regs, flags, frame entry, vm⟩) := by
  rw [resultOutcome_next h0]
  exact ⟨rfl, h12, rfl, rfl⟩

theorem opJz_runs :
    Runs entry (caseJumpReg vm instr fun x => x = 0)
      ⟨[.label .opJz], regs, flags, frame entry, vm⟩ := by
  refine .label rfl (loadRegAIndex_runs h12 h13 hins rfl fun ha _ => ?_)
  rw [reg_spec vm ha]
  refine .cmp_mem (address_reg h12 rfl) (read_reg ha) rfl (.jcc_head rfl (fun hc => ?_) fun hc => ?_)
  · rw [X86.holds_ne, decide_eq_true_eq] at hc
    show Matches entry (resultOutcome (.ok (if decide (vm.regD instr.a = 0) then
      jumpTo vm instr.imm else (.ok, vm)))) _
    rw [if_neg (by simpa using hc)]
    exact not_taken h12 h0
  · rw [X86.holds_ne, decide_eq_false_iff_not, Classical.not_not] at hc
    show Runs entry (.ok (if decide (vm.regD instr.a = 0) then
      jumpTo vm instr.imm else (.ok, vm))) _
    rw [if_pos (by simpa using hc)]
    exact jump_runs h12 h13 hins h0

theorem opJnz_runs :
    Runs entry (caseJumpReg vm instr fun x => x ≠ 0)
      ⟨[.label .opJnz], regs, flags, frame entry, vm⟩ := by
  refine .label rfl (loadRegAIndex_runs h12 h13 hins rfl fun ha _ => ?_)
  rw [reg_spec vm ha]
  refine .cmp_mem (address_reg h12 rfl) (read_reg ha) rfl (.jcc_head rfl (fun hc => ?_) fun hc => ?_)
  · rw [X86.holds_e, decide_eq_true_eq] at hc
    show Matches entry (resultOutcome (.ok (if decide (vm.regD instr.a ≠ 0) then
      jumpTo vm instr.imm else (.ok, vm)))) _
    rw [if_neg (by simpa using hc)]
    exact not_taken h12 h0
  · rw [X86.holds_e, decide_eq_false_iff_not] at hc
    show Runs entry (.ok (if decide (vm.regD instr.a ≠ 0) then
      jumpTo vm instr.imm else (.ok, vm))) _
    rw [if_pos (by simpa using hc)]
    exact jump_runs h12 h13 hins h0

theorem opJe_runs :
    Runs entry (.ok (if vm.zf ≠ 0 then jumpTo vm instr.imm else (.ok, vm)))
      ⟨[.label .opJe], regs, flags, frame entry, vm⟩ := by
  refine .label rfl (.cmp_mem8 (address_vm h12 _) rfl rfl (.jcc_head rfl (fun hc => ?_) fun hc => ?_))
  · rw [X86.holds_e, decide_eq_true_eq] at hc
    rw [if_neg (not_not_intro hc)]
    exact not_taken h12 h0
  · rw [X86.holds_e, decide_eq_false_iff_not] at hc
    rw [if_pos hc]
    exact jump_runs h12 h13 hins h0

theorem opJne_runs :
    Runs entry (.ok (if vm.zf = 0 then jumpTo vm instr.imm else (.ok, vm)))
      ⟨[.label .opJne], regs, flags, frame entry, vm⟩ := by
  refine .label rfl (.cmp_mem8 (address_vm h12 _) rfl rfl (.jcc_head rfl (fun hc => ?_) fun hc => ?_))
  · rw [X86.holds_ne, decide_eq_true_eq] at hc
    rw [if_neg hc]
    exact not_taken h12 h0
  · rw [X86.holds_ne, decide_eq_false_iff_not, Classical.not_not] at hc
    rw [if_pos hc]
    exact jump_runs h12 h13 hins h0

omit h13 hins in
theorem opNop_runs :
    Runs entry (.ok (.ok, vm)) ⟨[.label .opNop], regs, flags, frame entry, vm⟩ :=
  .label rfl (loop_runs h12 h0)

omit h13 hins in
/-- The end of the comparisons. -/
theorem sete_runs :
    Runs entry (.ok (.ok, { vm with zf := if x = y then 1 else 0 }))
      ⟨[.sete (vmField vmZf), .jmp .loop], regs, some (cmpFlags x y), frame entry, vm⟩ := by
  refine .sete (address_vm h12 _) (k := { vm with zf := if x = y then 1 else 0 }) ?_ rfl ?_
  · simp only [cmpFlags, decide_eq_true_eq]
    rfl
  · exact loop_runs h12 h0

theorem opCmpImm_runs :
    Runs entry
      (if !validReg instr.a then .ok (setError vm .errBadRegister)
        else do
          let x ← vm.reg instr.a
          pure (.ok, { vm with zf := if x = instr.imm then 1 else 0 }))
      ⟨[.label .opCmpImm], regs, flags, frame entry, vm⟩ := by
  refine .label rfl (loadRegAIndex_runs h12 h13 hins rfl fun ha _ => ?_)
  rw [reg_spec vm ha]
  refine .load (address_reg h12 rfl) (read_reg ha) rfl ?_
  refine .cmp_load rfl (address_ins h13 _) (read_imm hins) rfl ?_
  exact sete_runs h12 h0

theorem opCmpReg_runs :
    Runs entry
      (if !validReg instr.a || !validReg instr.b then .ok (setError vm .errBadRegister)
        else do
          let x ← vm.reg instr.a
          let y ← vm.reg instr.b
          pure (.ok, { vm with zf := if x = y then 1 else 0 }))
      ⟨[.label .opCmpReg], regs, flags, frame entry, vm⟩ := by
  refine .label rfl (loadRegABIndex_runs h12 h13 hins rfl fun ha hb _ => ?_)
  rw [reg_spec vm ha, reg_spec vm hb]
  refine .load (address_reg h12 rfl) (read_reg ha) rfl ?_
  refine .cmp_load rfl (address_reg h12 rfl) (read_reg hb) rfl ?_
  exact sete_runs h12 h0

/-! ### Stack, print and halt -/

theorem opPush_runs (hsp : vm.sp.toNat ≤ waiMemorySize) :
    Runs entry
      (if !validReg instr.a then .ok (setError vm .errBadRegister)
        else do
          let value ← vm.reg instr.a
          pushI64 vm value)
      ⟨[.label .opPush], regs, flags, frame entry, vm⟩ := by
  refine .label rfl (loadRegAIndex_runs h12 h13 hins rfl fun ha _ => ?_)
  rw [reg_spec vm ha]
  refine .load (address_reg h12 rfl) (read_reg ha) rfl ?_
  refine pushRax_runs h12 rfl hsp rfl (fun hge _ => ?_) fun hlt => push_overflow vm _ hlt
  show Runs entry (pushI64 vm (vm.regD instr.a)) _
  rw [push_spec vm _ hge hsp]
  exact loop_runs h12 h0

theorem opPop_runs :
    Runs entry
      (if !validReg instr.a then .ok (setError vm .errBadRegister)
        else do
          match ← popI64 vm with
          | (.error _, vm) => pure (vm.error, vm)
          | (.ok value, vm) =>
            let vm ← vm.setReg instr.a value
            pure (.ok, updateZf vm value))
      ⟨[.label .opPop], regs, flags, frame entry, vm⟩ := by
  refine .label rfl (loadRegAIndex_runs h12 h13 hins rfl fun ha _ => .mov rfl ?_)
  refine popRax_runs h12 rfl (fun hle _ => ?_) fun hlt => ?_
  · simp only [pop_spec vm hle, bind, Except.bind, setReg_spec _ ha]
    exact assignRax_runs ha h12 rfl rfl h0
  · rw [pop_underflow vm hlt]
    rfl

theorem opCall_runs (hsp : vm.sp.toNat ≤ waiMemorySize) :
    Runs entry
      (match checkJump vm instr.imm with
        | (.ok, vm) => do
          match ← pushI64 vm vm.ip with
          | (.ok, vm) => pure (.ok, { vm with ip := instr.imm })
          | (_, vm) => pure (vm.error, vm)
        | (_, vm) => .ok (vm.error, vm))
      ⟨[.label .opCall], regs, flags, frame entry, vm⟩ := by
  refine .label rfl (checkJumpImm_runs h12 h13 hins rfl (fun hv _ => ?_) fun hv => ?_)
  · simp only [checkJump_of_valid hv]
    refine .mov rfl (.load (address_vm h12 _) rfl rfl ?_)
    refine pushRax_runs h12 rfl hsp rfl (fun hge _ => ?_) fun hlt => ?_
    · rw [push_spec vm _ hge hsp]
      refine .store (address_vm h12 _) rfl rfl rfl ?_
      exact loop_runs h12 h0
    · rw [push_overflow vm _ hlt]
      rfl
  · simp only [checkJump_of_not_valid hv]
    rfl

omit h13 hins in
theorem opRet_runs (hcount : vm.codeCount.toNat < 2 ^ 63) :
    Runs entry
      (do
        match ← popI64 vm with
        | (.error _, vm) => pure (vm.error, vm)
        | (.ok value, vm) => pure (jumpTo vm value))
      ⟨[.label .opRet], regs, flags, frame entry, vm⟩ := by
  refine .label rfl (popRax_runs h12 rfl (fun hle _ => ?_) fun hlt => ?_)
  · rw [pop_spec vm hle]
    show Runs entry (.ok (jumpTo vm.popped vm.top)) _
    refine checkJumpRax_runs h12 rfl hcount rfl (fun hv _ => ?_) fun hv => ?_
    · rw [jumpTo_of_valid hv]
      refine .store (address_vm h12 _) rfl rfl rfl ?_
      exact loop_runs h12 h0
    · rw [jumpTo_of_not_valid hv]
      rfl
  · rw [pop_underflow vm hlt]
    rfl

theorem opPrint_runs :
    Runs entry
      (if !validReg instr.a then .ok (setError vm .errBadRegister)
        else do
          let value ← vm.reg instr.a
          pure (.ok, waiVmEmitPrint vm value))
      ⟨[.label .opPrint], regs, flags, frame entry, vm⟩ := by
  refine .label rfl (loadRegAIndex_runs h12 h13 hins rfl fun ha _ => ?_)
  rw [reg_spec vm ha]
  refine .load (address_reg h12 rfl) (read_reg ha) rfl (.mov rfl (.subRsp rfl ?_))
  have halign : (Slot.val Val.undef :: frame entry).length % 2 = 0 := by simp [frame]
  refine .callExtern halign (call_print h12 rfl) rfl (.addRsp rfl ?_)
  exact loop_runs h12 h0

omit h13 hins h0 in
/-- `HALT` records that there is no error and leaves the loop. -/
theorem opHalt_runs (herr : vm.error = .ok) :
    Runs entry (.ok (.ok, { vm with halted := 1 }))
      ⟨[.label .opHalt], regs, flags, frame entry, vm⟩ := by
  refine .label rfl (.store8 (address_vm h12 _) rfl rfl ?_)
  refine .store32 (address_vm h12 _) (k := { vm with halted := 1 }) ?_ rfl (.jmp (by decide) ?_)
  · show some { vm with halted := 1, error := .ok } = some { vm with halted := 1 }
    rw [← herr]
  · exact ok_return_goes fun c hc => hc

end Bodies

end Waivm
