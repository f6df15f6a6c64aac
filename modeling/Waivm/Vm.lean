import Waivm.Instruction

/-!
# The virtual machine and its C stepper (`vm.h`, `vm.c`)

`WaiVm` is the machine state, `waiVmStep` the C function that executes one
instruction on it. A C function that changes `*vm` takes the state and returns
the new one next to its status code; an out-parameter that is only written on
success is the value of an `Except`.

The C code can leave the defined part of the language in two ways, and the model
keeps both as a `Fault`: a quotient that does not exist in `int64_t`, and an
access outside an array. `int64_t` addition, subtraction and multiplication are
two's-complement and wrap around. The `NULL` tests on `vm` and on
out-parameters are left out: a caller of the model always has a state.
-/

namespace Waivm

open LittleEndian (Byte)

/-- Leaving the defined behaviour of the language or of the processor. -/
inductive Fault
  /-- A division whose quotient is not an `int64_t`. -/
  | divide
  /-- A read or write outside the object that is accessed. -/
  | access
deriving DecidableEq, Repr

/-- `WAI_REGISTER_COUNT` -/
def waiRegisterCount : Nat := 8

/-- `WAI_MEMORY_SIZE` -/
abbrev waiMemorySize : Nat := 65536

/-- `sizeof(wai_value)` -/
def sizeofWaiValue : Nat := 8

/-- `wai_vm`. `code` is `none` for a `NULL` pointer and otherwise the array it
points to. `printStream` says whether the print stream is not `NULL`; `emitted`
is no field of the C structure, it records the values handed to
`wai_vm_emit_print`, in order. -/
structure WaiVm where
  regs : Fin waiRegisterCount → WaiValue
  ip : BitVec 64
  zf : Byte
  halted : Byte
  code : Option (List WaiInstruction)
  codeCount : BitVec 64
  error : WaiErrorCode
  printStream : Bool
  lastPrint : WaiValue
  printCount : BitVec 64
  memory : Fin waiMemorySize → Byte
  sp : BitVec 64
  emitted : List WaiValue

/-- `WAI_STACK_START` -/
def waiStackStart : BitVec 64 := BitVec.ofNat 64 waiMemorySize

/-- `wai_vm_init` -/
def waiVmInit (code : Option (List WaiInstruction)) (codeCount : BitVec 64) : WaiVm where
  regs := fun _ => 0
  ip := 0
  zf := 0
  halted := 0
  code := code
  codeCount := codeCount
  error := .ok
  printStream := true
  lastPrint := 0
  printCount := 0
  memory := fun _ => 0
  sp := waiStackStart
  emitted := []

namespace WaiVm

/-- `vm->regs[r]` -/
def reg (vm : WaiVm) (r : Byte) : Except Fault WaiValue :=
  if h : r.toNat < waiRegisterCount then .ok (vm.regs ⟨r.toNat, h⟩) else .error .access

/-- `vm->regs[r] = value` -/
def setReg (vm : WaiVm) (r : Byte) (value : WaiValue) : Except Fault WaiVm :=
  if h : r.toNat < waiRegisterCount then
    .ok { vm with regs := Function.update vm.regs ⟨r.toNat, h⟩ value }
  else .error .access

/-- `vm->memory[i]` -/
def memoryAt (vm : WaiVm) (i : BitVec 64) : Except Fault Byte :=
  if h : i.toNat < waiMemorySize then .ok (vm.memory ⟨i.toNat, h⟩) else .error .access

/-- `vm->memory[i] = byte` -/
def setMemoryAt (vm : WaiVm) (i : BitVec 64) (byte : Byte) : Except Fault WaiVm :=
  if h : i.toNat < waiMemorySize then
    .ok { vm with memory := Function.update vm.memory ⟨i.toNat, h⟩ byte }
  else .error .access

end WaiVm

/-! ## Helpers of `vm.c` -/

/-- `wai_vm_set_print_stream`, to a stream or to `NULL`. -/
def waiVmSetPrintStream (vm : WaiVm) (stream : Bool) : WaiVm :=
  { vm with printStream := stream }

/-- `wai_vm_emit_print` -/
def waiVmEmitPrint (vm : WaiVm) (value : WaiValue) : WaiVm :=
  { vm with lastPrint := value, printCount := vm.printCount + 1, emitted := vm.emitted ++ [value] }

/-- `set_error` -/
def setError (vm : WaiVm) (error : WaiErrorCode) : WaiErrorCode × WaiVm :=
  (error, { vm with error := error })

/-- `valid_reg` -/
def validReg (reg : Byte) : Bool :=
  reg.toNat < waiRegisterCount

/-- `check_jump` -/
def checkJump (vm : WaiVm) (target : WaiValue) : WaiErrorCode × WaiVm :=
  if target.toInt < 0 ∨ vm.codeCount ≤ target then setError vm .errBadJump else (.ok, vm)

/-- `check_address_u64` -/
def checkAddressU64 (address : BitVec 64) : WaiErrorCode :=
  if waiMemorySize - sizeofWaiValue < address.toNat then .errMemoryOob else .ok

/-- `check_address_i64` -/
def checkAddressI64 (address : WaiValue) : Except WaiErrorCode (BitVec 64) :=
  if address.toInt < 0 then .error .errMemoryOob
  else match checkAddressU64 address with
    | .ok => .ok address
    | status => .error status

/-- `wai_vm_memory_load_i64` -/
def waiVmMemoryLoadI64 (vm : WaiVm) (address : BitVec 64) :
    Except Fault (Except WaiErrorCode WaiValue) :=
  match checkAddressU64 address with
  | .ok => do
    let raw ← (List.range sizeofWaiValue).foldlM (fun raw i => do
      let byte ← vm.memoryAt (address + BitVec.ofNat 64 i)
      pure (raw ||| byte.setWidth 64 <<< (i * 8))) (0 : BitVec 64)
    pure (.ok raw)
  | status => .ok (.error status)

/-- `wai_vm_memory_store_i64` -/
def waiVmMemoryStoreI64 (vm : WaiVm) (address : BitVec 64) (value : WaiValue) :
    Except Fault (WaiErrorCode × WaiVm) :=
  match checkAddressU64 address with
  | .ok => do
    let vm ← (List.range sizeofWaiValue).foldlM (fun (vm : WaiVm) i =>
      vm.setMemoryAt (address + BitVec.ofNat 64 i) ((value >>> (i * 8)).setWidth 8)) vm
    pure (.ok, vm)
  | status => .ok (status, vm)

/-- `push_i64` -/
def pushI64 (vm : WaiVm) (value : WaiValue) : Except Fault (WaiErrorCode × WaiVm) :=
  if vm.sp.toNat < sizeofWaiValue then .ok (setError vm .errStackOverflow)
  else do
    let vm := { vm with sp := vm.sp - BitVec.ofNat 64 sizeofWaiValue }
    let (status, vm) ← waiVmMemoryStoreI64 vm vm.sp value
    pure (if status ≠ .ok then setError vm status else (.ok, vm))

/-- `pop_i64`: the popped value, or the status of the failure. -/
def popI64 (vm : WaiVm) : Except Fault (Except WaiErrorCode WaiValue × WaiVm) :=
  if waiMemorySize - sizeofWaiValue < vm.sp.toNat then
    .ok (.error .errStackUnderflow, (setError vm .errStackUnderflow).2)
  else do
    match ← waiVmMemoryLoadI64 vm vm.sp with
    | .error status => pure (.error status, (setError vm status).2)
    | .ok value =>
      pure (.ok value, { vm with sp := vm.sp + BitVec.ofNat 64 sizeofWaiValue })

/-- `update_zf` -/
def updateZf (vm : WaiVm) (value : WaiValue) : WaiVm :=
  { vm with zf := if value = 0 then 1 else 0 }

/-- `check_shift`: the shift count as a `uint8_t`. -/
def checkShift (shift : WaiValue) : Except WaiErrorCode Nat :=
  if shift.toInt < 0 ∨ 63 < shift.toInt then .error .errBadShift else .ok (shift.setWidth 8).toNat

/-! ## Operations on two `int64_t` values

What the right-hand side of `regs[a] = …` computes: a value, an error the case
reports instead, or a fault. -/

/-- `x` is the value of an `int64_t`. -/
def InInt64 (x : Int) : Prop := -2 ^ 63 ≤ x ∧ x < 2 ^ 63

instance (x : Int) : Decidable (InInt64 x) := inferInstanceAs (Decidable (_ ∧ _))

/-- The C operator `/` with a nonzero divisor: truncating, and defined when the
quotient can be represented. -/
def cDiv (x y : WaiValue) : Except Fault WaiValue :=
  if InInt64 (x.toInt.tdiv y.toInt) then .ok (BitVec.ofInt 64 (x.toInt.tdiv y.toInt))
  else .error .divide

/-- The C operator `%` with a nonzero divisor: defined when the quotient can be
represented. -/
def cMod (x y : WaiValue) : Except Fault WaiValue :=
  if InInt64 (x.toInt.tdiv y.toInt) then .ok (BitVec.ofInt 64 (x.toInt.tmod y.toInt))
  else .error .divide

/-- An operation `op x y` of the switch, on the old `regs[a]` and the other operand. -/
abbrev BinaryOp := WaiValue → WaiValue → Except Fault (Except WaiErrorCode WaiValue)

def movOp : BinaryOp := fun _ y => .ok (.ok y)
def addOp : BinaryOp := fun x y => .ok (.ok (x + y))
def subOp : BinaryOp := fun x y => .ok (.ok (x - y))
def mulOp : BinaryOp := fun x y => .ok (.ok (x * y))
def andOp : BinaryOp := fun x y => .ok (.ok (x &&& y))
def orOp : BinaryOp := fun x y => .ok (.ok (x ||| y))
def xorOp : BinaryOp := fun x y => .ok (.ok (x ^^^ y))
def notOp : BinaryOp := fun x _ => .ok (.ok (~~~x))

def divOp : BinaryOp := fun x y =>
  if y = 0 then .ok (.error .errDivZero) else (cDiv x y).map .ok

def modOp : BinaryOp := fun x y =>
  if y = 0 then .ok (.error .errDivZero) else (cMod x y).map .ok

def shlOp : BinaryOp := fun x y =>
  .ok ((checkShift y).map fun shift => x <<< shift)

def shrOp : BinaryOp := fun x y =>
  .ok ((checkShift y).map fun shift => x >>> shift)

/-! ## The cases of the switch -/

/-- What a step gives: a status and the new state, or a fault. -/
abbrev VmResult := Except Fault (WaiErrorCode × WaiVm)

/-- `regs[a] = op(regs[a], y); update_zf(vm, regs[a]); return WAI_OK;` -/
def assignReg (vm : WaiVm) (a : Byte) (op : BinaryOp) (y : WaiValue) : VmResult := do
  let x ← vm.reg a
  match ← op x y with
  | .error status => pure (setError vm status)
  | .ok value =>
    let vm ← vm.setReg a value
    pure (.ok, updateZf vm value)

/-- The `_IMM` case of an operation (and `NOT`, which has no second operand). -/
def caseImm (vm : WaiVm) (ins : WaiInstruction) (op : BinaryOp) : VmResult :=
  if !validReg ins.a then .ok (setError vm .errBadRegister)
  else assignReg vm ins.a op ins.imm

/-- The `_REG` case of an operation. -/
def caseReg (vm : WaiVm) (ins : WaiInstruction) (op : BinaryOp) : VmResult :=
  if !validReg ins.a || !validReg ins.b then .ok (setError vm .errBadRegister)
  else do
    let y ← vm.reg ins.b
    assignReg vm ins.a op y

/-- `if (check_jump(vm, target) != WAI_OK) { return vm->error; } vm->ip = target; return WAI_OK;` -/
def jumpTo (vm : WaiVm) (target : WaiValue) : WaiErrorCode × WaiVm :=
  match checkJump vm target with
  | (.ok, vm) => (.ok, { vm with ip := target })
  | (_, vm) => (vm.error, vm)

/-- The body of `JZ` and `JNZ`: jump when `taken` holds of the register. -/
def caseJumpReg (vm : WaiVm) (ins : WaiInstruction) (taken : WaiValue → Bool) : VmResult :=
  if !validReg ins.a then .ok (setError vm .errBadRegister)
  else do
    let x ← vm.reg ins.a
    pure (if taken x then jumpTo vm ins.imm else (.ok, vm))

/-- The body of `LOAD_ABS` and `LOAD_REG` after the register tests. -/
def loadFrom (vm : WaiVm) (a : Byte) (address : WaiValue) : VmResult :=
  match checkAddressI64 address with
  | .error _ => .ok (setError vm .errMemoryOob)
  | .ok address => do
    match ← waiVmMemoryLoadI64 vm address with
    | .error _ => pure (setError vm .errMemoryOob)
    | .ok value =>
      let vm ← vm.setReg a value
      pure (.ok, updateZf vm value)

/-- The body of `STORE_ABS` and `STORE_REG` after the register tests. -/
def storeTo (vm : WaiVm) (a : Byte) (address : WaiValue) : VmResult :=
  match checkAddressI64 address with
  | .error _ => .ok (setError vm .errMemoryOob)
  | .ok address => do
    let value ← vm.reg a
    match ← waiVmMemoryStoreI64 vm address value with
    | (.ok, vm) => pure (.ok, vm)
    | (_, vm) => pure (setError vm .errMemoryOob)

/-- The `switch` of `wai_vm_step`; `vm->ip` has already been advanced. -/
def stepSwitch (vm : WaiVm) (ins : WaiInstruction) : VmResult :=
  match WaiOpcode.ofByte ins.opcode with
  | .movImm => caseImm vm ins movOp
  | .movReg => caseReg vm ins movOp
  | .addImm => caseImm vm ins addOp
  | .addReg => caseReg vm ins addOp
  | .subImm => caseImm vm ins subOp
  | .subReg => caseReg vm ins subOp
  | .mulImm => caseImm vm ins mulOp
  | .mulReg => caseReg vm ins mulOp
  | .divImm => caseImm vm ins divOp
  | .divReg => caseReg vm ins divOp
  | .modImm => caseImm vm ins modOp
  | .modReg => caseReg vm ins modOp
  | .jmp => .ok (jumpTo vm ins.imm)
  | .jz => caseJumpReg vm ins fun x => x = 0
  | .jnz => caseJumpReg vm ins fun x => x ≠ 0
  | .print =>
    if !validReg ins.a then .ok (setError vm .errBadRegister)
    else do
      let value ← vm.reg ins.a
      pure (.ok, waiVmEmitPrint vm value)
  | .halt => .ok (.ok, { vm with halted := 1 })
  | .loadAbs =>
    if !validReg ins.a then .ok (setError vm .errBadRegister)
    else loadFrom vm ins.a ins.imm
  | .loadReg =>
    if !validReg ins.a || !validReg ins.b then .ok (setError vm .errBadRegister)
    else do
      let address ← vm.reg ins.b
      loadFrom vm ins.a address
  | .storeAbs =>
    if !validReg ins.a then .ok (setError vm .errBadRegister)
    else storeTo vm ins.a ins.imm
  | .storeReg =>
    if !validReg ins.a || !validReg ins.b then .ok (setError vm .errBadRegister)
    else do
      let address ← vm.reg ins.b
      storeTo vm ins.a address
  | .push =>
    if !validReg ins.a then .ok (setError vm .errBadRegister)
    else do
      let value ← vm.reg ins.a
      pushI64 vm value
  | .pop =>
    if !validReg ins.a then .ok (setError vm .errBadRegister)
    else do
      match ← popI64 vm with
      | (.error _, vm) => pure (vm.error, vm)
      | (.ok value, vm) =>
        let vm ← vm.setReg ins.a value
        pure (.ok, updateZf vm value)
  | .call =>
    match checkJump vm ins.imm with
    | (.ok, vm) => do
      match ← pushI64 vm vm.ip with
      | (.ok, vm) => pure (.ok, { vm with ip := ins.imm })
      | (_, vm) => pure (vm.error, vm)
    | (_, vm) => .ok (vm.error, vm)
  | .ret => do
    match ← popI64 vm with
    | (.error _, vm) => pure (vm.error, vm)
    | (.ok value, vm) => pure (jumpTo vm value)
  | .cmpImm =>
    if !validReg ins.a then .ok (setError vm .errBadRegister)
    else do
      let x ← vm.reg ins.a
      pure (.ok, { vm with zf := if x = ins.imm then 1 else 0 })
  | .cmpReg =>
    if !validReg ins.a || !validReg ins.b then .ok (setError vm .errBadRegister)
    else do
      let x ← vm.reg ins.a
      let y ← vm.reg ins.b
      pure (.ok, { vm with zf := if x = y then 1 else 0 })
  | .je => .ok (if vm.zf ≠ 0 then jumpTo vm ins.imm else (.ok, vm))
  | .jne => .ok (if vm.zf = 0 then jumpTo vm ins.imm else (.ok, vm))
  | .nop => .ok (.ok, vm)
  | .andImm => caseImm vm ins andOp
  | .andReg => caseReg vm ins andOp
  | .orImm => caseImm vm ins orOp
  | .orReg => caseReg vm ins orOp
  | .xorImm => caseImm vm ins xorOp
  | .xorReg => caseReg vm ins xorOp
  | .not => caseImm vm ins notOp
  | .shlImm => caseImm vm ins shlOp
  | .shlReg => caseReg vm ins shlOp
  | .shrImm => caseImm vm ins shrOp
  | .shrReg => caseReg vm ins shrOp
  | .invalid => .ok (setError vm .errBadOpcode)

/-- `wai_vm_step` -/
def waiVmStep (vm : WaiVm) : VmResult :=
  match vm.code with
  | none => .ok (.errParse, vm)
  | some code =>
    if vm.halted ≠ 0 then .ok (.ok, vm)
    else if vm.codeCount ≤ vm.ip then .ok (setError vm .errIpOutOfBounds)
    else
      match code[vm.ip.toNat]? with
      | none => .error .access
      | some ins => stepSwitch { vm with ip := vm.ip + 1 } ins

/-! ## The stepper as a machine -/

/-- How iterating `wai_vm_step` ends. -/
inductive StepEnd
  | stopped (status : WaiErrorCode) (vm : WaiVm)
  | fault (f : Fault)

/-- One iteration of `while (!vm.halted && wai_vm_step(&vm) == WAI_OK);`. -/
def stepUntilHalted (vm : WaiVm) : Machine.Outcome WaiVm StepEnd :=
  if vm.halted ≠ 0 then .done (.stopped .ok vm)
  else
    match waiVmStep vm with
    | .error f => .done (.fault f)
    | .ok (.ok, vm) => .next vm
    | .ok (status, vm) => .done (.stopped status vm)

/-- `StepOk vm vm'`: the call `wai_vm_step(vm)` returns `WAI_OK` and leaves `vm'`. -/
def StepOk (vm vm' : WaiVm) : Prop :=
  waiVmStep vm = .ok (.ok, vm')

/-- `vm'` is reached from `vm` by calls of `wai_vm_step` that returned `WAI_OK`. -/
def StepReach : WaiVm → WaiVm → Prop :=
  Relation.ReflTransGen StepOk

end Waivm
