import Waivm.Invariant

/-!
# The print stream does not matter to execution

`wai_vm_step` never looks at `vm->print_stream`: stepping a machine whose stream
was changed gives what stepping it with the old stream gives, with the stream
changed. Every helper of the stepper has the same lemma.

Result: `step_setPrintStream`.
-/

namespace Waivm

open LittleEndian (Byte)

/-- A call on a machine with another print stream. -/
def VmResult.onStream (result : VmResult) (stream : Bool) : VmResult :=
  result.map fun (status, vm) => (status, waiVmSetPrintStream vm stream)

/-- A computation whose state has another stream, followed by one that does not look at it. -/
theorem bind_onStream {α β : Type} {x x' : Except Fault α} {f f' : α → Except Fault β} {g : α → α}
    {k : β → β} (hx : x' = x.map g) (h : ∀ a, f' (g a) = (f a).map k) :
    (x' >>= f') = (x >>= f).map k := by
  rw [hx]
  cases x with
  | error e => rfl
  | ok a => exact h a

/-- A computation that does not depend on the stream, followed by one that does not look at it. -/
theorem bind_same {α β : Type} {x : Except Fault α} {f f' : α → Except Fault β} {k : β → β}
    (h : ∀ a, f' a = (f a).map k) : (x >>= f') = (x >>= f).map k := by
  cases x with
  | error e => rfl
  | ok a => exact h a

section Stream
variable (vm : WaiVm) (stream : Bool)

theorem setReg_setPrintStream (r : Byte) (value : WaiValue) :
    (waiVmSetPrintStream vm stream).setReg r value =
      (vm.setReg r value).map fun vm => waiVmSetPrintStream vm stream := by
  unfold WaiVm.setReg
  split <;> rfl

theorem setMemoryAt_setPrintStream (i : BitVec 64) (byte : Byte) :
    (waiVmSetPrintStream vm stream).setMemoryAt i byte =
      (vm.setMemoryAt i byte).map fun vm => waiVmSetPrintStream vm stream := by
  unfold WaiVm.setMemoryAt
  split <;> rfl

theorem checkJump_setPrintStream (target : WaiValue) :
    checkJump (waiVmSetPrintStream vm stream) target =
      ((checkJump vm target).1, waiVmSetPrintStream (checkJump vm target).2 stream) := by
  show (if target.toInt < 0 ∨ vm.codeCount ≤ target then _ else _) = _
  unfold checkJump
  split <;> rfl

theorem jumpTo_setPrintStream (target : WaiValue) :
    jumpTo (waiVmSetPrintStream vm stream) target =
      ((jumpTo vm target).1, waiVmSetPrintStream (jumpTo vm target).2 stream) := by
  unfold jumpTo
  rw [checkJump_setPrintStream]
  rcases checkJump vm target with ⟨status, vm'⟩
  cases status <;> rfl

/-- The store loop. -/
theorem store_loop_setPrintStream (address : BitVec 64) (value : WaiValue) (l : List Nat) :
    l.foldlM (m := Except Fault) (fun (vm : WaiVm) i =>
      vm.setMemoryAt (address + BitVec.ofNat 64 i) ((value >>> (i * 8)).setWidth 8))
      (waiVmSetPrintStream vm stream) =
    (l.foldlM (m := Except Fault) (fun (vm : WaiVm) i =>
      vm.setMemoryAt (address + BitVec.ofNat 64 i) ((value >>> (i * 8)).setWidth 8)) vm).map
      fun vm => waiVmSetPrintStream vm stream := by
  induction l generalizing vm with
  | nil => rfl
  | cons i rest ih =>
    simp only [List.foldlM_cons, setMemoryAt_setPrintStream]
    cases vm.setMemoryAt (address + BitVec.ofNat 64 i) ((value >>> (i * 8)).setWidth 8) with
    | error f => rfl
    | ok vm' => exact ih vm'

theorem store_setPrintStream (address : BitVec 64) (value : WaiValue) :
    waiVmMemoryStoreI64 (waiVmSetPrintStream vm stream) address value =
      VmResult.onStream (waiVmMemoryStoreI64 vm address value) stream := by
  unfold waiVmMemoryStoreI64
  cases checkAddressU64 address with
  | ok =>
    exact bind_onStream (store_loop_setPrintStream vm stream address value _) fun _ => rfl
  | _ => rfl

theorem push_setPrintStream (value : WaiValue) :
    pushI64 (waiVmSetPrintStream vm stream) value = VmResult.onStream (pushI64 vm value) stream := by
  unfold pushI64
  show (if vm.sp.toNat < sizeofWaiValue then _ else _) = _
  split
  · rfl
  · refine bind_onStream (store_setPrintStream
      { vm with sp := vm.sp - BitVec.ofNat 64 sizeofWaiValue } stream _ value)
      fun (status, vm) => ?_
    cases status <;> rfl

theorem pop_setPrintStream :
    popI64 (waiVmSetPrintStream vm stream) =
      (popI64 vm).map fun (value, vm) => (value, waiVmSetPrintStream vm stream) := by
  unfold popI64
  show (if waiMemorySize - sizeofWaiValue < vm.sp.toNat then _ else _) = _
  split
  · rfl
  · refine bind_same fun result => ?_
    cases result <;> rfl

theorem assignReg_setPrintStream (a : Byte) (op : BinaryOp) (y : WaiValue) :
    assignReg (waiVmSetPrintStream vm stream) a op y =
      VmResult.onStream (assignReg vm a op y) stream := by
  refine bind_same fun x => bind_same fun result => ?_
  cases result with
  | error status => rfl
  | ok value =>
    exact bind_onStream (setReg_setPrintStream vm stream a value) fun _ => rfl

theorem loadFrom_setPrintStream (a : Byte) (address : WaiValue) :
    loadFrom (waiVmSetPrintStream vm stream) a address =
      VmResult.onStream (loadFrom vm a address) stream := by
  unfold loadFrom
  cases checkAddressI64 address with
  | error status => rfl
  | ok address =>
    refine bind_same fun result => ?_
    cases result with
    | error status => rfl
    | ok value =>
      exact bind_onStream (setReg_setPrintStream vm stream a value) fun _ => rfl

theorem storeTo_setPrintStream (a : Byte) (address : WaiValue) :
    storeTo (waiVmSetPrintStream vm stream) a address =
      VmResult.onStream (storeTo vm a address) stream := by
  unfold storeTo
  cases checkAddressI64 address with
  | error status => rfl
  | ok address =>
    refine bind_same fun value => ?_
    refine bind_onStream (store_setPrintStream vm stream address value) fun (status, vm) => ?_
    cases status <;> rfl

/-- A register operand that is refused leaves the print stream as it is. -/
theorem checked_setPrintStream (refused : Bool) {r r' : VmResult}
    (h : r' = VmResult.onStream r stream) :
    (if refused then .ok (setError (waiVmSetPrintStream vm stream) .errBadRegister) else r') =
      VmResult.onStream (if refused then .ok (setError vm .errBadRegister) else r) stream := by
  cases refused with
  | true => rfl
  | false => exact h

/-- A jump that is taken or not. -/
theorem jumpIf_setPrintStream (taken : Prop) [Decidable taken] (target : WaiValue) :
    (if taken then jumpTo (waiVmSetPrintStream vm stream) target
      else (.ok, waiVmSetPrintStream vm stream)) =
      ((if taken then jumpTo vm target else (.ok, vm)).1,
        waiVmSetPrintStream (if taken then jumpTo vm target else (.ok, vm)).2 stream) := by
  split
  · exact jumpTo_setPrintStream vm stream target
  · rfl

variable (ins : WaiInstruction)

theorem caseImm_setPrintStream (op : BinaryOp) :
    caseImm (waiVmSetPrintStream vm stream) ins op =
      VmResult.onStream (caseImm vm ins op) stream :=
  checked_setPrintStream vm stream _ (assignReg_setPrintStream vm stream ins.a op ins.imm)

theorem caseReg_setPrintStream (op : BinaryOp) :
    caseReg (waiVmSetPrintStream vm stream) ins op =
      VmResult.onStream (caseReg vm ins op) stream :=
  checked_setPrintStream vm stream _ <|
    bind_same fun y => assignReg_setPrintStream vm stream ins.a op y

theorem caseJumpReg_setPrintStream (taken : WaiValue → Bool) :
    caseJumpReg (waiVmSetPrintStream vm stream) ins taken =
      VmResult.onStream (caseJumpReg vm ins taken) stream := by
  refine checked_setPrintStream vm stream _ (bind_same fun x => ?_)
  exact congrArg Except.ok (jumpIf_setPrintStream vm stream (taken x = true) ins.imm)

/-- The `switch` does not look at the print stream. -/
theorem switch_setPrintStream :
    stepSwitch (waiVmSetPrintStream vm stream) ins =
      VmResult.onStream (stepSwitch vm ins) stream := by
  unfold stepSwitch
  cases WaiOpcode.ofByte ins.opcode with
  | movImm | addImm | subImm | mulImm | divImm | modImm | andImm | orImm | xorImm | not | shlImm
  | shrImm => exact caseImm_setPrintStream vm stream ins _
  | movReg | addReg | subReg | mulReg | divReg | modReg | andReg | orReg | xorReg | shlReg
  | shrReg => exact caseReg_setPrintStream vm stream ins _
  | jz | jnz => exact caseJumpReg_setPrintStream vm stream ins _
  | jmp => exact congrArg Except.ok (jumpTo_setPrintStream vm stream ins.imm)
  | je => exact congrArg Except.ok (jumpIf_setPrintStream vm stream (vm.zf ≠ 0) ins.imm)
  | jne => exact congrArg Except.ok (jumpIf_setPrintStream vm stream (vm.zf = 0) ins.imm)
  | print => exact checked_setPrintStream vm stream _ (bind_same fun _ => rfl)
  | cmpImm => exact checked_setPrintStream vm stream _ (bind_same fun _ => rfl)
  | cmpReg =>
    exact checked_setPrintStream vm stream _ (bind_same fun _ => bind_same fun _ => rfl)
  | loadAbs =>
    exact checked_setPrintStream vm stream _ (loadFrom_setPrintStream vm stream ins.a ins.imm)
  | loadReg =>
    refine checked_setPrintStream vm stream _ (bind_same fun address => ?_)
    exact loadFrom_setPrintStream vm stream ins.a address
  | storeAbs =>
    exact checked_setPrintStream vm stream _ (storeTo_setPrintStream vm stream ins.a ins.imm)
  | storeReg =>
    refine checked_setPrintStream vm stream _ (bind_same fun address => ?_)
    exact storeTo_setPrintStream vm stream ins.a address
  | push =>
    refine checked_setPrintStream vm stream _ (bind_same fun value => ?_)
    exact push_setPrintStream vm stream value
  | pop =>
    refine checked_setPrintStream vm stream _ ?_
    refine bind_onStream (pop_setPrintStream vm stream) fun (result, vm) => ?_
    cases result with
    | error status => rfl
    | ok value => exact bind_onStream (setReg_setPrintStream vm stream ins.a value) fun _ => rfl
  | call =>
    simp only [checkJump_setPrintStream]
    rcases checkJump vm ins.imm with ⟨status, vm⟩
    cases status with
    | ok =>
      refine bind_onStream (push_setPrintStream vm stream vm.ip) fun (status, vm) => ?_
      cases status <;> rfl
    | _ => rfl
  | ret =>
    refine bind_onStream (pop_setPrintStream vm stream) fun (result, vm) => ?_
    cases result with
    | error status => rfl
    | ok value => exact congrArg Except.ok (jumpTo_setPrintStream vm stream value)
  | halt | nop | invalid => rfl

/-- `wai_vm_step` does not look at the print stream. -/
theorem step_setPrintStream :
    waiVmStep (waiVmSetPrintStream vm stream) = VmResult.onStream (waiVmStep vm) stream := by
  cases hc : vm.code with
  | none =>
    rw [step_null hc, step_null (show (waiVmSetPrintStream vm stream).code = none from hc)]
    rfl
  | some code =>
    rw [step_eq hc, step_eq (show (waiVmSetPrintStream vm stream).code = some code from hc)]
    show (if vm.halted ≠ 0 then _ else if vm.codeCount ≤ vm.ip then _ else _) = _
    split
    · rfl
    · split
      · rfl
      · rw [show (waiVmSetPrintStream vm stream).ip = vm.ip from rfl]
        cases hins : code[vm.ip.toNat]? with
        | none => rfl
        | some ins => exact switch_setPrintStream vm.fetched stream ins

end Stream

end Waivm
