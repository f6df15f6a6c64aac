import Waivm.Invariant

/-!
# What a failing step leaves behind

A call of `wai_vm_step` that fails has written `vm->error`, has moved `ip` behind
the instruction if there was one, and in one case has moved `sp`.

Results:
1. `reached_sp_le`: `sp` stays inside the memory, whatever is called, and whether
   it fails or not.
2. `effect_leaves`: the state that a failing instruction leaves.
3. `failing_step`: the state that a failing call leaves.
-/

namespace Waivm

/-! ## 1. Reachable states -/

/-- A call of a function of `vm.h` that returns. -/
inductive VmCall : WaiVm → WaiVm → Prop
  | step {vm vm' : WaiVm} {status : WaiErrorCode} :
      waiVmStep vm = .ok (status, vm') → VmCall vm vm'
  | store {vm vm' : WaiVm} {address : BitVec 64} {value : WaiValue} {status : WaiErrorCode} :
      waiVmMemoryStoreI64 vm address value = .ok (status, vm') → VmCall vm vm'
  | emitPrint {vm : WaiVm} (value : WaiValue) : VmCall vm (waiVmEmitPrint vm value)
  | setPrintStream {vm : WaiVm} (stream : Bool) : VmCall vm (waiVmSetPrintStream vm stream)

/-- The states that calls lead to, from `wai_vm_init` on. -/
def Reached (code : Option (List WaiInstruction)) (codeCount : BitVec 64) : WaiVm → Prop :=
  Relation.ReflTransGen VmCall (waiVmInit code codeCount)

section Calls
variable {vm vm' : WaiVm} {ins : WaiInstruction} {status : WaiErrorCode}

theorem popped_sp (h : vm.sp.toNat ≤ maxAddress) : vm.popped.sp.toNat = vm.sp.toNat + 8 := by
  have h8 : (8 : BitVec 64).toNat = 8 := rfl
  simp only [maxAddress, sizeofWaiValue, waiMemorySize] at h
  rw [WaiVm.popped, BitVec.toNat_add, h8]
  omega

theorem popped_sp_le (h : vm.sp.toNat ≤ maxAddress) : vm.popped.sp.toNat ≤ waiMemorySize := by
  rw [popped_sp h]
  simp only [maxAddress, sizeofWaiValue, waiMemorySize] at h ⊢
  omega

theorem pushed_sp_le (value : WaiValue) (hsp : vm.sp.toNat ≤ waiMemorySize) (h : 8 ≤ vm.sp.toNat) :
    (vm.pushed value).sp.toNat ≤ waiMemorySize :=
  (sub_sp_le hsp h).trans (Nat.sub_le _ _)

/-- No instruction moves `sp` out of the memory. -/
theorem effect_sp_le (hsp : vm.sp.toNat ≤ waiMemorySize) (h : Effect vm ins status vm') :
    vm'.sp.toNat ≤ waiMemorySize := by
  cases h with
  | push _ h8 => exact pushed_sp_le _ hsp h8
  | call _ _ h8 => exact pushed_sp_le vm.ip hsp h8
  | pop _ hmax => exact popped_sp_le hmax
  | ret _ hmax _ => exact popped_sp_le hmax
  | badReturn _ hmax _ => exact popped_sp_le hmax
  | _ => exact hsp

/-- The ways through a call of `wai_vm_step` that returns. -/
theorem step_returns (h : waiVmStep vm = .ok (status, vm')) :
    (vm.code = none ∧ status = .errParse ∧ vm' = vm) ∨
    (vm.halted ≠ 0 ∧ status = .ok ∧ vm' = vm) ∨
    (vm.codeCount ≤ vm.ip ∧ status = .errIpOutOfBounds ∧ vm' = vm.failed .errIpOutOfBounds) ∨
    ∃ ins, vm.ip < vm.codeCount ∧ vm.current = some ins ∧
      stepSwitch vm.fetched ins = .ok (status, vm') := by
  cases hc : vm.code with
  | none =>
    rw [step_null hc] at h
    cases h
    exact .inl ⟨rfl, rfl, rfl⟩
  | some code =>
    rw [step_eq hc] at h
    split at h
    · next h1 =>
      cases h
      exact .inr (.inl ⟨h1, rfl, rfl⟩)
    · next h0 =>
      split at h
      · next hge =>
        cases h
        exact .inr (.inr (.inl ⟨hge, rfl, rfl⟩))
      · next hlt =>
        split at h
        · cases h
        · next ins hins =>
          refine .inr (.inr (.inr ⟨ins, BitVec.not_le.mp hlt, ?_, h⟩))
          rw [WaiVm.current, if_neg h0, hc]
          exact hins

theorem step_sp_le (hsp : vm.sp.toNat ≤ waiMemorySize) (h : waiVmStep vm = .ok (status, vm')) :
    vm'.sp.toNat ≤ waiMemorySize := by
  rcases step_returns h with ⟨_, _, rfl⟩ | ⟨_, _, rfl⟩ | ⟨_, _, rfl⟩ | ⟨ins, _, _, hswitch⟩
  · exact hsp
  · exact hsp
  · exact hsp
  · exact @effect_sp_le vm.fetched _ _ _ hsp (@switch_effect vm.fetched _ _ _ hsp hswitch)

theorem store_sp {address : BitVec 64} {value : WaiValue}
    (h : waiVmMemoryStoreI64 vm address value = .ok (status, vm')) : vm'.sp = vm.sp := by
  rcases Nat.lt_or_ge maxAddress address.toNat with hlt | hle
  · cases (store_oob vm hlt value).symm.trans h
    rfl
  · cases (store_spec vm hle value).symm.trans h
    rfl

/-- `sp` is inside the memory in every reachable state. -/
theorem reached_sp_le {code : Option (List WaiInstruction)} {codeCount : BitVec 64}
    (h : Reached code codeCount vm) : vm.sp.toNat ≤ waiMemorySize := by
  induction h with
  | refl => exact le_rfl
  | tail _ hcall ih =>
    cases hcall with
    | step hs => exact step_sp_le ih hs
    | store hs => exact store_sp hs ▸ ih
    | emitPrint value => exact ih
    | setPrintStream stream => exact ih

end Calls

/-! ## 2. Failing instructions -/

/-- The next instruction is a `RET`, and there is a value on the stack that is no index of an
instruction. -/
def PopsBadReturn (vm : WaiVm) : Prop :=
  vm.ip < vm.codeCount ∧ ∃ ins, vm.current = some ins ∧ ins.op = .ret ∧
    vm.sp.toNat ≤ maxAddress ∧ ¬ ValidTarget vm vm.top

section Failing
variable {vm vm' : WaiVm} {ins : WaiInstruction} {e : WaiErrorCode}

/-- A failing instruction records its error. Only a `RET` has changed more then. -/
theorem effect_leaves (h : Effect vm ins e vm') (hne : e ≠ .ok) :
    (vm' = vm.failed e ∧
      ¬ (ins.op = .ret ∧ vm.sp.toNat ≤ maxAddress ∧ ¬ ValidTarget vm vm.top)) ∨
    (e = .errBadJump ∧ vm' = vm.popped.failed e ∧ ins.op = .ret ∧ vm.sp.toNat ≤ maxAddress ∧
      ¬ ValidTarget vm vm.top) := by
  cases h with
  | badReturn hop hmax htop => exact .inr ⟨rfl, rfl, hop, hmax, htop⟩
  | stackUnderflow _ hlt =>
    exact .inl ⟨rfl, fun hret => absurd hret.2.1 (Nat.not_le.mpr hlt)⟩
  | badRegister hop =>
    refine .inl ⟨rfl, fun hret => ?_⟩
    rw [hret.1] at hop
    rcases hop with hop | hop
    · exact absurd hop.1 (by decide)
    · exact absurd hop.1 (by decide)
  | badJump hop =>
    refine .inl ⟨rfl, fun hret => ?_⟩
    rw [hret.1] at hop
    exact absurd hop (by decide)
  | divZero hop | badShift hop | memoryOob hop =>
    refine .inl ⟨rfl, fun hret => ?_⟩
    rw [hret.1] at hop
    simp at hop
  | stackOverflow hop | badOpcode hop =>
    refine .inl ⟨rfl, fun hret => ?_⟩
    rw [hret.1] at hop
    simp at hop
  | _ => exact absurd rfl hne

end Failing

/-! ## 3. Failing calls -/

/-- What a call in the state `vm` that returned the error `e` has left. -/
structure FailedWith (vm : WaiVm) (e : WaiErrorCode) (vm' : WaiVm) : Prop where
  error : vm'.error = e
  regs : vm'.regs = vm.regs
  zf : vm'.zf = vm.zf
  memory : vm'.memory = vm.memory
  halted : vm'.halted = vm.halted
  code : vm'.code = vm.code
  code_count : vm'.codeCount = vm.codeCount
  print_stream : vm'.printStream = vm.printStream
  last_print : vm'.lastPrint = vm.lastPrint
  print_count : vm'.printCount = vm.printCount
  emitted : vm'.emitted = vm.emitted
  ip : vm'.ip.toNat = if e = .errIpOutOfBounds then vm.ip.toNat else vm.ip.toNat + 1
  sp : ¬ PopsBadReturn vm → vm'.sp = vm.sp
  sp_bad_return : PopsBadReturn vm → e = .errBadJump ∧ vm'.sp.toNat = vm.sp.toNat + 8

/-- Running off the end of the code is no error of an instruction. -/
theorem effect_ne_ip {vm vm' : WaiVm} {ins : WaiInstruction} {e : WaiErrorCode}
    (h : Effect vm ins e vm') : e ≠ .errIpOutOfBounds := by
  cases h <;> decide

theorem fetched_ip {vm : WaiVm} (h : vm.ip < vm.codeCount) :
    vm.fetched.ip.toNat = vm.ip.toNat + 1 := by
  have hlt : vm.ip.toNat < vm.codeCount.toNat := h
  have hcount := vm.codeCount.isLt
  have h1 : (1 : BitVec 64).toNat = 1 := rfl
  rw [WaiVm.fetched, BitVec.toNat_add, h1]
  omega

/-- A call that fails leaves everything but the error, `ip` and the `sp` of a `RET` as it was. -/
theorem failing_step {code : Option (List WaiInstruction)} {codeCount : BitVec 64} {vm vm' : WaiVm}
    {e : WaiErrorCode} (hreach : Reached code codeCount vm) (h0 : vm.halted = 0)
    (hs : waiVmStep vm = .ok (e, vm')) (hok : e ≠ .ok) (hparse : e ≠ .errParse) :
    FailedWith vm e vm' := by
  rcases step_returns hs with ⟨_, rfl, _⟩ | ⟨h1, _⟩ | ⟨hge, rfl, rfl⟩ | ⟨ins, hlt, hcur, hswitch⟩
  · exact absurd rfl hparse
  · exact absurd h0 h1
  · have hno : ¬ PopsBadReturn vm := fun h => absurd h.1 (BitVec.not_lt.mpr hge)
    exact ⟨rfl, rfl, rfl, rfl, rfl, rfl, rfl, rfl, rfl, rfl, rfl, rfl, fun _ => rfl,
      fun h => absurd h hno⟩
  · have hsp : vm.sp.toNat ≤ waiMemorySize := reached_sp_le hreach
    have heffect := @switch_effect vm.fetched _ _ _ hsp hswitch
    have hip : vm.fetched.ip.toNat =
        if e = .errIpOutOfBounds then vm.ip.toNat else vm.ip.toNat + 1 := by
      rw [if_neg (effect_ne_ip heffect), fetched_ip hlt]
    rcases effect_leaves heffect hok with ⟨rfl, hno⟩ | ⟨rfl, rfl, hop, hmax, htop⟩
    · have hno' : ¬ PopsBadReturn vm := by
        rintro ⟨_, ins', hcur', hret⟩
        cases hcur.symm.trans hcur'
        exact hno hret
      exact ⟨rfl, rfl, rfl, rfl, rfl, rfl, rfl, rfl, rfl, rfl, rfl, hip, fun _ => rfl,
        fun h => absurd h hno'⟩
    · exact ⟨rfl, rfl, rfl, rfl, rfl, rfl, rfl, rfl, rfl, rfl, rfl, hip,
        fun h => absurd ⟨hlt, ins, hcur, hop, hmax, htop⟩ h,
        fun _ => ⟨rfl, popped_sp hmax⟩⟩

/-- A `RET` on the empty stack moves `ip` and nothing else. -/
theorem failing_step_ret :
    Reached (some [⟨23, 0, 0, 0, 0⟩]) 1 (waiVmInit (some [⟨23, 0, 0, 0, 0⟩]) 1) ∧
    ∃ vm', waiVmStep (waiVmInit (some [⟨23, 0, 0, 0, 0⟩]) 1) = .ok (.errStackUnderflow, vm') ∧
      FailedWith (waiVmInit (some [⟨23, 0, 0, 0, 0⟩]) 1) .errStackUnderflow vm' :=
  ⟨.refl, _, rfl, failing_step .refl rfl rfl (by decide) (by decide)⟩

end Waivm
