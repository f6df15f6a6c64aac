import Waivm.Invariant

/-!
# Calls and returns

The stack is part of the writable memory, so a `CALL` at `sp = s` leaves its
return address in the eight bytes below `s`, where a `STORE` may reach it.
`CallBody s vms vm₁ vm₂` is an error-free run from `vm₁` to `vm₂` through the
states `vms` that stays below `s` and stores nothing into these bytes.

Results:
1. `effect_keeps_slot`: no other instruction writes to the return address.
2. `call_body_keeps_slot`: it stays in place over every such run.
3. `call_return_discipline`: the `RET` that ends the run returns behind the `CALL`.
-/

namespace Waivm

open Machine (Path)

/-- The next call stores a value that overlaps the eight bytes below `s`. -/
def StoresBelow (vm : WaiVm) (s : Nat) : Prop :=
  ∃ ins, vm.current = some ins ∧ (ins.op = .storeAbs ∨ ins.op = .storeReg) ∧
    s < (ins.address vm).toNat + 16 ∧ (ins.address vm).toNat < s

/-- An error-free run from `vm₁` to `vm₂` through the states `vms`, between a `CALL` at
`sp = s` and its `RET`. -/
structure CallBody (s : Nat) (vms : List WaiVm) (vm₁ vm₂ : WaiVm) : Prop where
  path : Path StepOk vms vm₁ vm₂
  below : ∀ vm ∈ vms ++ [vm₂], vm.sp.toNat + 8 ≤ s
  stores : ∀ vm ∈ vms, ¬ StoresBelow vm s

section Slot
variable {code : List WaiInstruction} {vm vm' : WaiVm} {ins : WaiInstruction} {s : Nat}

/-! ## 1. One instruction -/

/-- A push with `sp + 8 ≤ s` writes below the return address. -/
theorem pushed_keeps_slot (value : WaiValue) (hsp : vm.sp.toNat ≤ waiMemorySize)
    (h8 : 8 ≤ vm.sp.toNat) (hs : vm.sp.toNat + 8 ≤ s) :
    readQword (vm.pushed value).memory (s - 8) = readQword vm.memory (s - 8) := by
  have hsub : (vm.sp - 8).toNat = vm.sp.toNat - 8 := BitVec.toNat_sub_of_le h8
  refine readQword_writeQword_of_disjoint _ _ (sub_sp_le hsp h8) (.inl ?_)
  rw [hsub, Nat.sub_add_cancel h8]
  exact Nat.le_sub_of_add_le hs

/-- A successful instruction below `s` keeps the return address, unless it stores over it. -/
theorem effect_keeps_slot (he : Effect vm ins .ok vm') (hsp : vm.sp.toNat ≤ waiMemorySize)
    (hs : vm.sp.toNat + 8 ≤ s)
    (hstore : ins.op = .storeAbs ∨ ins.op = .storeReg →
      ¬ (s < (ins.address vm).toNat + 16 ∧ (ins.address vm).toNat < s)) :
    readQword vm'.memory (s - 8) = readQword vm.memory (s - 8) := by
  cases he with
  | assign | compare | jump | stay | print | halt | pop | ret => rfl
  | store hop haddr =>
    refine readQword_writeQword_of_disjoint _ _ ((validAddress_iff _).mp haddr) ?_
    have := hstore hop
    omega
  | push _ h8 => exact pushed_keeps_slot _ hsp h8 hs
  | call _ _ h8 => exact pushed_keeps_slot _ hsp h8 hs

/-! ## 2. The body of a call -/

/-- The invariant of a call body: the machine is in order, and `next` is stored below `s`. -/
def Saved (code : List WaiInstruction) (s : Nat) (next : WaiValue) (vm : WaiVm) : Prop :=
  (∃ d, MachineInvariant code vm d) ∧ readQword vm.memory (s - 8) = next

theorem saved_step {next : WaiValue} (hlen : code.length < 2 ^ 64) (hsaved : Saved code s next vm)
    (hstep : StepOk vm vm') (hs : vm.sp.toNat + 8 ≤ s) (hstore : ¬ StoresBelow vm s) :
    Saved code s next vm' := by
  obtain ⟨⟨d, hinv⟩, hslot⟩ := hsaved
  obtain ⟨d', hinv', _⟩ := invariant_step hlen hinv hstep
  refine ⟨⟨d', hinv'⟩, Eq.trans ?_ hslot⟩
  rcases step_cases hinv hlen with ⟨_, _, he⟩ | ⟨_, _, _, he⟩ | ⟨ins, _, _, _, hcur, he⟩
  · -- a call on a halted machine does nothing
    cases he.symm.trans hstep
    rfl
  · cases he.symm.trans hstep
  · have heffect : Effect vm.fetched ins .ok vm' := switch_effect hinv.sp_le (he.symm.trans hstep)
    -- fetching changes `ip` only: memory, `sp` and the address of a store are those of `vm`
    show readQword vm'.memory (s - 8) = readQword vm.fetched.memory (s - 8)
    exact effect_keeps_slot heffect hinv.sp_le hs fun hop hover => hstore ⟨ins, hcur, hop, hover⟩

/-- The return address stays in place over the body of a call, with all calls nested in it. -/
theorem call_body_keeps_slot {next : WaiValue} {vms : List WaiVm} {vm₁ vm₂ : WaiVm}
    (hlen : code.length < 2 ^ 64) (hbody : CallBody s vms vm₁ vm₂)
    (hsaved : Saved code s next vm₁) : Saved code s next vm₂ :=
  hbody.path.invariant (fun hvm hsaved hstep => saved_step hlen hsaved hstep
    (hbody.below _ (List.mem_append_left _ hvm)) (hbody.stores _ hvm)) hsaved

/-! ## 3. The call and its return -/

/-- The state after a `CALL`. -/
def WaiVm.called (vm : WaiVm) (target : WaiValue) : WaiVm :=
  { vm.fetched.pushed vm.fetched.ip with ip := target }

theorem call_step {d : Nat} (hlen : code.length < 2 ^ 64) (h : MachineInvariant code vm d)
    (hcur : vm.current = some ins) (hop : ins.op = .call) (htarget : ValidTarget vm ins.imm)
    (h8 : 8 ≤ vm.sp.toNat) : StepOk vm (vm.called ins.imm) := by
  obtain ⟨_, he⟩ := current_step hlen h hcur
  refine he.trans ?_
  unfold stepSwitch
  rw [show WaiOpcode.ofByte ins.opcode = .call from hop]
  simp only [checkJump_of_valid (show ValidTarget vm.fetched ins.imm from htarget),
    push_spec vm.fetched vm.fetched.ip h8 h.sp_le]
  rfl

/-- A call saves the index of the instruction behind it. -/
theorem called_saved {d : Nat} (hlen : code.length < 2 ^ 64) (h : MachineInvariant code vm d)
    (hstep : StepOk vm (vm.called ins.imm)) (h8 : 8 ≤ vm.sp.toNat) :
    Saved code vm.sp.toNat (vm.ip + 1) (vm.called ins.imm) := by
  obtain ⟨d', hinv, _⟩ := invariant_step hlen h hstep
  refine ⟨⟨d', hinv⟩, ?_⟩
  have hsub : (vm.sp - 8).toNat = vm.sp.toNat - 8 := BitVec.toNat_sub_of_le h8
  show readQword (writeQword vm.memory (vm.sp - 8).toNat (vm.ip + 1)) (vm.sp.toNat - 8) = vm.ip + 1
  rw [← hsub]
  exact readQword_writeQword _ _ (sub_sp_le h.sp_le h8)

/-- `RET` jumps to the value on top of the stack, or fails when it is no instruction. -/
theorem ret_step {d : Nat} (hlen : code.length < 2 ^ 64) (h : MachineInvariant code vm d)
    (hcur : vm.current = some ins) (hop : ins.op = .ret) (hsp : vm.sp.toNat ≤ maxAddress) :
    waiVmStep vm = .ok (jumpTo vm.fetched.popped vm.top) := by
  obtain ⟨_, he⟩ := current_step hlen h hcur
  rw [he]
  unfold stepSwitch
  rw [show WaiOpcode.ofByte ins.opcode = .ret from hop]
  simp only [pop_spec vm.fetched hsp]
  rfl

theorem toNat_next (hlen : code.length < 2 ^ 63) {i : BitVec 64} (hi : i.toNat < code.length) :
    (i + 1).toNat = i.toNat + 1 := by
  rw [BitVec.toNat_add, show (1 : BitVec 64).toNat = 1 from rfl]
  omega

/-- The instruction behind a call is a valid target unless the call is the last one. -/
theorem validTarget_next {d : Nat} (hlen : code.length < 2 ^ 63) (h : MachineInvariant code vm d)
    {i : BitVec 64} (hi : i.toNat < code.length) :
    ValidTarget vm (i + 1) ↔ i.toNat + 1 < code.length := by
  have hnext := toNat_next hlen hi
  have hcount := h.codeCount_toNat (by omega)
  unfold ValidTarget
  rw [BitVec.lt_def, hcount, hnext, BitVec.toInt_eq_toNat_of_lt (by omega)]
  exact and_iff_right (Int.natCast_nonneg _)

/-- A `CALL` at `sp = s` saves the index behind it for every error-free run that stays below
`s` and does not store over it, and the `RET` that ends the run returns there. -/
theorem call_return_discipline (code : List WaiInstruction) (hlen : code.length < 2 ^ 63)
    {vm : WaiVm} (hr : StepReach (waiVmInit (some code) (BitVec.ofNat 64 code.length)) vm)
    {ins : WaiInstruction} (hcur : vm.current = some ins) (hop : ins.op = .call)
    (htarget : ValidTarget vm ins.imm) (h8 : 8 ≤ vm.sp.toNat) :
    ∃ vm₁, StepOk vm vm₁ ∧ ∀ vms vm₂, CallBody vm.sp.toNat vms vm₁ vm₂ →
      readQword vm₂.memory (vm.sp.toNat - 8) = vm.ip + 1 ∧
      ∀ ret, vm₂.current = some ret → ret.op = .ret → vm₂.sp.toNat = vm.sp.toNat - 8 →
        (vm.ip.toNat + 1 < code.length →
          ∃ vm₃, StepOk vm₂ vm₃ ∧ vm₃.sp = vm.sp ∧ vm₃.ip.toNat = vm.ip.toNat + 1) ∧
        (vm.ip.toNat + 1 = code.length → FailsWith vm₂ .errBadJump) := by
  have hlen' : code.length < 2 ^ 64 := Nat.lt_trans hlen (by decide)
  obtain ⟨d, hinv⟩ := invariant_reach hlen' hr
  have hcall := call_step hlen' hinv hcur hop htarget h8
  have hsaved := called_saved hlen' hinv hcall h8
  have hi : vm.ip.toNat < code.length :=
    Nat.lt_of_lt_of_eq (current_step hlen' hinv hcur).1 (hinv.codeCount_toNat hlen')
  refine ⟨_, hcall, fun vms vm₂ hbody => ?_⟩
  -- the body keeps what the call saved, and `RET` finds it on top of the stack
  obtain ⟨⟨d₂, hinv₂⟩, hslot⟩ := call_body_keeps_slot hlen' hbody hsaved
  refine ⟨hslot, fun ret hret hretop hsp => ?_⟩
  have hmax : vm₂.sp.toNat ≤ maxAddress := by
    have hle := hinv.sp_le
    simp only [maxAddress, sizeofWaiValue, hsp]
    omega
  have htop : vm₂.top = vm.ip + 1 := by
    rw [WaiVm.top, hsp]
    exact hslot
  have hstep := ret_step hlen' hinv₂ hret hretop hmax
  rw [htop] at hstep
  have hvalid : ValidTarget vm₂.fetched.popped (vm.ip + 1) ↔ vm.ip.toNat + 1 < code.length :=
    validTarget_next hlen hinv₂ hi
  constructor
  · -- the `RET` goes to the index behind the call when there is an instruction
    intro hlt
    rw [jumpTo_of_valid (hvalid.mpr hlt)] at hstep
    refine ⟨_, hstep, BitVec.eq_of_toNat_eq ?_, toNat_next hlen hi⟩
    show (vm₂.sp + 8).toNat = vm.sp.toNat
    rw [BitVec.toNat_add, hsp, show (8 : BitVec 64).toNat = 8 from rfl]
    have := vm.sp.isLt
    omega
  · intro heq
    rw [jumpTo_of_not_valid (fun hv => Nat.lt_irrefl _ (Nat.lt_of_lt_of_eq (hvalid.mp hv) heq.symm))]
      at hstep
    exact ⟨_, hstep⟩

end Slot

/-- `call 2` and `halt`, with a subroutine at index 2 that pushes and pops `r0`. -/
def callPushPop : List WaiInstruction :=
  [⟨22, 0, 0, 0, 2⟩, ⟨15, 0, 0, 0, 0⟩, ⟨20, 0, 0, 0, 0⟩, ⟨21, 0, 0, 0, 0⟩, ⟨23, 0, 0, 0, 0⟩]

/-- The machine of `callPushPop` before the call. -/
def callPushPopVm : WaiVm :=
  waiVmInit (some callPushPop) 5

/-- The machine of `callPushPop` after the `push` in the subroutine. -/
def callPushPopPushed : WaiVm :=
  (callPushPopVm.called 2).fetched.pushed 0

/-- The machine of `callPushPop` before the `ret`. -/
def callPushPopRet : WaiVm :=
  let vm := callPushPopPushed.fetched
  updateZf (vm.popped.withReg 0 vm.top) vm.top

theorem callPushPop_body :
    CallBody 65536 [callPushPopVm.called 2, callPushPopPushed] (callPushPopVm.called 2)
      callPushPopRet where
  path := by
    refine .cons ?_ (.cons ?_ .nil)
    · show pushI64 (callPushPopVm.called 2).fetched 0 = _
      rw [push_spec _ _ (by decide) (by decide)]
      rfl
    · show (popI64 callPushPopPushed.fetched >>= _) = _
      rw [pop_spec callPushPopPushed.fetched (by decide)]
      simp only [bind, Except.bind, setReg_spec _ (by decide : validReg 0 = true)]
      rfl
  below := by decide
  stores := by
    rintro vm hvm ⟨ins, hcur, hop, _⟩
    simp only [List.mem_cons, List.not_mem_nil, or_false] at hvm
    rcases hvm with rfl | rfl <;> cases hcur <;> revert hop <;> decide

/-- The subroutine of `callPushPop` returns behind the call. -/
theorem call_return_discipline_pushPop :
    ∃ vm₃, StepOk callPushPopRet vm₃ ∧ vm₃.sp = 65536 ∧ vm₃.ip.toNat = 1 := by
  obtain ⟨vm₁, hcall, hbody⟩ := @call_return_discipline callPushPop (by decide) callPushPopVm .refl
    ⟨22, 0, 0, 0, 2⟩ rfl rfl (by decide) (by decide)
  have hcalled : StepOk callPushPopVm (callPushPopVm.called 2) :=
    call_step (by decide) (.init callPushPop) rfl rfl (by decide) (by decide)
  cases hcall.symm.trans hcalled
  exact ((hbody _ _ callPushPop_body).2 ⟨23, 0, 0, 0, 0⟩ rfl rfl rfl).1 (by decide)

end Waivm
