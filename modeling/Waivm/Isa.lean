import Waivm.EngineRun
import Waivm.Lib.LabelledCode

/-!
# The instruction set in its own terms

What the instructions mean, without a status code in the machine, without a cell for the
flag, and without a position: an `Operation` acts on registers, a flag, a memory with a stack,
and the list of what was printed. The memory is a parameter (`MemoryModel`); `machineMemory` is the one of
the machine, bytes and a stack pointer.

Results:
1. `isa_lockStep`: a program run by this instruction set does what the machine does, step by step,
   up to the same end.
2. `engine_runs_isa`: the engine runs every program by this instruction set.
-/

namespace Waivm

open LittleEndian (Byte)
open LabelledCode (Move Language numberStep moveNumber enterNumber)
open X86 (Reg Val)
open Machine (Outcome Simulation LockStep ReachesIn Ends)

namespace Isa

/-! ## Operations -/

/-- Why an instruction does not complete. -/
inductive Stop
  | error (status : WaiErrorCode)
  /-- A quotient that is no `int64_t`. -/
  | overflow
  /-- An access that the model of the memory says nothing about. -/
  | unknown
deriving DecidableEq

/-- A memory with a stack. -/
structure MemoryModel (M : Type) where
  load : M → WaiValue → Except Stop WaiValue
  store : M → WaiValue → WaiValue → Except Stop M
  push : M → WaiValue → Except Stop M
  pop : M → Except Stop (WaiValue × M)

/-- An operand: a register, or a value. -/
inductive Source
  | reg (r : Byte)
  | imm (value : WaiValue)

/-- When a jump is taken. -/
inductive Condition
  | always
  | zero (a : Byte)
  | nonzero (a : Byte)
  | equal
  | notEqual

/-- What an instruction does. The target of a jump is not part of it. -/
inductive Operation
  | binary (op : BinaryOp) (a : Byte) (source : Source)
  | compare (a : Byte) (source : Source)
  | load (a : Byte) (address : Source)
  | store (address : Source) (a : Byte)
  | push (a : Byte)
  | pop (a : Byte)
  | print (a : Byte)
  | jump (condition : Condition)
  | call
  | ret
  | nop
  | halt
  | invalid

/-- The operation of an instruction. -/
def decode (ins : WaiInstruction) : Operation :=
  match ins.op with
  | .movImm => .binary movOp ins.a (.imm ins.imm)
  | .movReg => .binary movOp ins.a (.reg ins.b)
  | .addImm => .binary addOp ins.a (.imm ins.imm)
  | .addReg => .binary addOp ins.a (.reg ins.b)
  | .subImm => .binary subOp ins.a (.imm ins.imm)
  | .subReg => .binary subOp ins.a (.reg ins.b)
  | .mulImm => .binary mulOp ins.a (.imm ins.imm)
  | .mulReg => .binary mulOp ins.a (.reg ins.b)
  | .divImm => .binary divOp ins.a (.imm ins.imm)
  | .divReg => .binary divOp ins.a (.reg ins.b)
  | .modImm => .binary modOp ins.a (.imm ins.imm)
  | .modReg => .binary modOp ins.a (.reg ins.b)
  | .andImm => .binary andOp ins.a (.imm ins.imm)
  | .andReg => .binary andOp ins.a (.reg ins.b)
  | .orImm => .binary orOp ins.a (.imm ins.imm)
  | .orReg => .binary orOp ins.a (.reg ins.b)
  | .xorImm => .binary xorOp ins.a (.imm ins.imm)
  | .xorReg => .binary xorOp ins.a (.reg ins.b)
  | .not => .binary notOp ins.a (.imm ins.imm)
  | .shlImm => .binary shlOp ins.a (.imm ins.imm)
  | .shlReg => .binary shlOp ins.a (.reg ins.b)
  | .shrImm => .binary shrOp ins.a (.imm ins.imm)
  | .shrReg => .binary shrOp ins.a (.reg ins.b)
  | .cmpImm => .compare ins.a (.imm ins.imm)
  | .cmpReg => .compare ins.a (.reg ins.b)
  | .loadAbs => .load ins.a (.imm ins.imm)
  | .loadReg => .load ins.a (.reg ins.b)
  | .storeAbs => .store (.imm ins.imm) ins.a
  | .storeReg => .store (.reg ins.b) ins.a
  | .push => .push ins.a
  | .pop => .pop ins.a
  | .print => .print ins.a
  | .jmp => .jump .always
  | .jz => .jump (.zero ins.a)
  | .jnz => .jump (.nonzero ins.a)
  | .je => .jump .equal
  | .jne => .jump .notEqual
  | .call => .call
  | .ret => .ret
  | .nop => .nop
  | .halt => .halt
  | .invalid => .invalid

/-! ## What operations act on -/

/-- The registers, the flag, the memory, and what was printed. -/
structure Data (M : Type) where
  regs : Fin waiRegisterCount → WaiValue
  zf : Bool
  memory : M
  printed : List WaiValue

/-- How a run ends. -/
inductive Result (M : Type)
  | halted (d : Data M)
  | stopped (why : Stop) (d : Data M)

variable {M : Type}

namespace Data

/-- The value of a register. -/
def reg (d : Data M) (r : Byte) : Except Stop WaiValue :=
  if h : r.toNat < waiRegisterCount then .ok (d.regs ⟨r.toNat, h⟩)
  else .error (.error .errBadRegister)

/-- The value of an operand. -/
def source (d : Data M) : Source → Except Stop WaiValue
  | .reg r => d.reg r
  | .imm value => .ok value

/-- Register `a` gets a value, and the flag says whether it is zero. -/
def assign (d : Data M) (a : Byte) (value : WaiValue) : Data M :=
  { d with
    regs := fun i => if i.val = a.toNat then value else d.regs i
    zf := decide (value = 0) }

/-- A jump is taken. -/
def holds (d : Data M) : Condition → Except Stop Bool
  | .always => .ok true
  | .zero a => (d.reg a).map fun x => decide (x = 0)
  | .nonzero a => (d.reg a).map fun x => decide (x ≠ 0)
  | .equal => .ok d.zf
  | .notEqual => .ok (!d.zf)

end Data

/-- The value that an operation on two values gives. -/
def completed : Except Fault (Except WaiErrorCode WaiValue) → Except Stop WaiValue
  | .error _ => .error .overflow
  | .ok (.error status) => .error (.error status)
  | .ok (.ok value) => .ok value

/-- What an operation does to `d`. `next` is the number of the next instruction, and `target` says whether
the target of a jump exists. -/
def Operation.run (mm : MemoryModel M) (next : Nat) (target : Bool) (d : Data M) :
    Operation → Except Stop (Move (Data M) (Result M))
  | .binary op a source => do
    let x ← d.reg a
    let y ← d.source source
    let value ← completed (op x y)
    pure (.forward (d.assign a value))
  | .compare a source => do
    let x ← d.reg a
    let y ← d.source source
    pure (.forward { d with zf := decide (x = y) })
  | .load a address => do
    let _ ← d.reg a
    let address ← d.source address
    let value ← mm.load d.memory address
    pure (.forward (d.assign a value))
  | .store address a => do
    let value ← d.reg a
    let address ← d.source address
    let memory ← mm.store d.memory address value
    pure (.forward { d with memory := memory })
  | .push a => do
    let value ← d.reg a
    let memory ← mm.push d.memory value
    pure (.forward { d with memory := memory })
  | .pop a => do
    let _ ← d.reg a
    let (value, memory) ← mm.pop d.memory
    pure (.forward ({ d with memory := memory }.assign a value))
  | .print a => do
    let value ← d.reg a
    pure (.forward { d with printed := d.printed ++ [value] })
  | .jump condition => do
    let taken ← d.holds condition
    if !taken then pure (.forward d)
    else if target then pure (.jump d)
    else throw (.error .errBadJump)
  | .call =>
    if target then do
      let memory ← mm.push d.memory (BitVec.ofNat 64 next)
      pure (.jump { d with memory := memory })
    else throw (.error .errBadJump)
  | .ret => do
    let (value, memory) ← mm.pop d.memory
    pure (.resume { d with memory := memory } value.toNat)
  | .nop => pure (.forward d)
  | .halt => pure (.stop (.halted d))
  | .invalid => throw (.error .errBadOpcode)

/-- An operation that does not complete leaves everything as it was. -/
def moveOf (d : Data M) : Except Stop (Move (Data M) (Result M)) → Move (Data M) (Result M)
  | .ok move => move
  | .error why => .stop (.stopped why d)

/-- The instruction set over a memory. -/
def language (mm : MemoryModel M) : Language Operation (Data M) (Result M) where
  exec op next target d := moveOf d (op.run mm next target d)
  ended := .stopped (.error .errIpOutOfBounds)
  lost := .stopped (.error .errBadJump)

/-- The memory of the machine: bytes, and the stack pointer. -/
structure ByteStack where
  bytes : VmMemory
  sp : BitVec 64

/-- Loads and stores at any address; the stack grows down from the end. -/
def machineMemory : MemoryModel ByteStack where
  load m address :=
    if ValidAddress address then .ok (readQword m.bytes address.toNat)
    else .error (.error .errMemoryOob)
  store m address value :=
    if ValidAddress address then .ok { m with bytes := writeQword m.bytes address.toNat value }
    else .error (.error .errMemoryOob)
  push m value :=
    if m.sp.toNat < 8 then .error (.error .errStackOverflow)
    else .ok { bytes := writeQword m.bytes (m.sp - 8).toNat value, sp := m.sp - 8 }
  pop m :=
    if maxAddress < m.sp.toNat then .error (.error .errStackUnderflow)
    else .ok (readQword m.bytes m.sp.toNat, { m with sp := m.sp + 8 })

/-- An instruction as numbered code: its operation, and the number that a jump goes to. -/
def numbered (ins : WaiInstruction) : Operation × Option Nat :=
  (decode ins, if ins.op ∈ WaiOpcode.jumps then some ins.imm.toNat else none)

/-- What an empty machine holds. -/
def Data.zero (memory : M) : Data M where
  regs := fun _ => 0
  zf := false
  memory := memory
  printed := []

end Isa

open Isa

/-! ## The machine runs the instruction set -/

/-- What operations act on, in the machine. -/
def WaiVm.data (vm : WaiVm) : Data ByteStack where
  regs := vm.regs
  zf := decide (vm.zf ≠ 0)
  memory := ⟨vm.memory, vm.sp⟩
  printed := vm.emitted

/-- The machine and the instruction set are in the same state. -/
def SameState (vm : WaiVm) (c : Data ByteStack × Nat) : Prop :=
  c = (vm.data, vm.ip.toNat)

/-- The machine and the instruction set have ended in the same way. -/
inductive SameEnd : StepEnd → Result ByteStack → Prop
  | halted (vm : WaiVm) : SameEnd (.stopped .ok vm) (.halted vm.data)
  | stopped {status : WaiErrorCode} (vm : WaiVm) :
      status ≠ .ok → SameEnd (.stopped status vm) (.stopped (.error status) vm.data)
  | overflow (d : Data ByteStack) : SameEnd (.fault .divide) (.stopped .overflow d)

/-- A case of the switch does in `vm` what an operation does; a jump goes to `dest`. -/
def Follows (code : List (Operation × Option Nat)) (dest : Nat) (vm : WaiVm) (result : VmResult)
    (run : Except Stop (Move (Data ByteStack) (Result ByteStack))) : Prop :=
  Outcome.Related SameState SameEnd (resultOutcome result)
    (moveNumber (language machineMemory) code vm.ip.toNat dest (moveOf vm.data run))

section Switch
variable {code : List (Operation × Option Nat)} {dest next : Nat} {target : Bool} {vm vm' : WaiVm}
  {ins : WaiInstruction} {status : WaiErrorCode} {op : BinaryOp}

theorem reg_data_of_valid {r : Byte} (h : validReg r = true) : vm.data.reg r = .ok (vm.regD r) := by
  have hr : r.toNat < waiRegisterCount := (validReg_iff r).mp h
  rw [Data.reg, dif_pos hr, regD_eq vm hr]
  rfl

theorem reg_data_of_not_valid {r : Byte} (h : validReg r = false) :
    vm.data.reg r = .error (.error .errBadRegister) :=
  dif_neg (of_decide_eq_false h)

theorem data_compared (vm : WaiVm) (p : Prop) [Decidable p] :
    ({ vm with zf := if p then 1 else 0 } : WaiVm).data = { vm.data with zf := decide p } := by
  have hzf : decide ((if p then (1 : Byte) else 0) ≠ 0) = decide p := by
    split
    · next h => rw [decide_eq_true h]; rfl
    · next h => rw [decide_eq_false h]; rfl
  unfold WaiVm.data
  rw [hzf]

theorem data_assigned {a : Byte} (value : WaiValue) :
    (updateZf (vm.withReg a value) value).data = vm.data.assign a value :=
  data_compared (vm.withReg a value) (value = 0)

theorem follows_error (hdata : vm'.data = vm.data) (h : status ≠ .ok) :
    Follows code dest vm (.ok (status, vm')) (.error (.error status)) := by
  unfold Follows
  rw [resultOutcome_error h, ← hdata]
  exact .done (.stopped vm' h)

theorem follows_forward (h0 : vm'.halted = 0) (hip : vm'.ip = vm.ip) :
    Follows code dest vm (.ok (.ok, vm')) (.ok (.forward vm'.data)) := by
  unfold Follows
  rw [resultOutcome_next h0, ← hip]
  exact .next rfl

/-- Each case that names a register first tests it. -/
theorem follows_guardA {result : VmResult}
    {rest : WaiValue → Except Stop (Move (Data ByteStack) (Result ByteStack))}
    (hk : validReg ins.a = true → Follows code dest vm result (rest (vm.regD ins.a))) :
    Follows code dest vm
      (if !validReg ins.a then .ok (setError vm .errBadRegister) else result)
      (vm.data.reg ins.a >>= rest) := by
  cases ha : validReg ins.a with
  | false =>
    rw [reg_data_of_not_valid ha]
    exact follows_error rfl (by decide)
  | true =>
    rw [reg_data_of_valid ha]
    exact hk ha

theorem follows_guardAB {result : VmResult}
    {rest : WaiValue → WaiValue → Except Stop (Move (Data ByteStack) (Result ByteStack))}
    (hk : validReg ins.a = true → validReg ins.b = true →
      Follows code dest vm result (rest (vm.regD ins.a) (vm.regD ins.b))) :
    Follows code dest vm
      (if !validReg ins.a || !validReg ins.b then .ok (setError vm .errBadRegister) else result)
      (vm.data.reg ins.a >>= fun x => vm.data.reg ins.b >>= rest x) := by
  cases ha : validReg ins.a with
  | false =>
    rw [reg_data_of_not_valid ha]
    exact follows_error rfl (by decide)
  | true =>
    rw [reg_data_of_valid ha]
    cases hb : validReg ins.b with
    | false =>
      rw [reg_data_of_not_valid hb]
      exact follows_error rfl (by decide)
    | true =>
      rw [reg_data_of_valid hb]
      exact hk ha hb

/-- The faults of an operation are those of a division, and `0` is no error. -/
structure Sound (op : BinaryOp) : Prop where
  fault : ∀ {x y f}, op x y = .error f → f = .divide
  error : ∀ {x y e}, op x y = .ok (.error e) → e ≠ .ok

theorem follows_assigned (h0 : vm.halted = 0) (hop : Sound op) (a : Byte) (x y : WaiValue) :
    Follows code dest vm ((op x y).map (vm.assigned a))
      (completed (op x y) >>= fun value => pure (.forward (vm.data.assign a value))) := by
  cases hresult : op x y with
  | error f =>
    cases hop.fault hresult
    exact .done (.overflow vm.data)
  | ok result =>
    cases result with
    | error e => exact follows_error rfl (hop.error hresult)
    | ok value =>
      show Follows code dest vm (.ok (.ok, updateZf (vm.withReg a value) value))
        (.ok (.forward (vm.data.assign a value)))
      rw [← data_assigned]
      exact follows_forward h0 rfl

theorem follows_imm (h0 : vm.halted = 0) (hop : Sound op) :
    Follows code dest vm (caseImm vm ins op)
      ((Operation.binary op ins.a (.imm ins.imm)).run machineMemory next target vm.data) := by
  refine follows_guardA fun ha => ?_
  rw [assignReg_spec ha]
  exact follows_assigned h0 hop ins.a _ _

theorem follows_reg (h0 : vm.halted = 0) (hop : Sound op) :
    Follows code dest vm (caseReg vm ins op)
      ((Operation.binary op ins.a (.reg ins.b)).run machineMemory next target vm.data) := by
  refine follows_guardAB fun ha hb => ?_
  rw [reg_spec vm hb]
  show Follows code dest vm (assignReg vm ins.a op (vm.regD ins.b)) _
  rw [assignReg_spec ha]
  exact follows_assigned h0 hop ins.a _ _

theorem follows_load (h0 : vm.halted = 0) {a : Byte} (ha : validReg a = true) (address : WaiValue) :
    Follows code dest vm (loadFrom vm a address)
      (machineMemory.load vm.data.memory address >>= fun value =>
        pure (.forward (vm.data.assign a value))) := by
  by_cases hv : ValidAddress address
  · rw [loadFrom_of_valid ha hv, show machineMemory.load vm.data.memory address =
      .ok (readQword vm.memory address.toNat) from if_pos hv]
    exact @follows_assigned _ _ _ movOp h0 ⟨nofun, nofun⟩ a 0 _
  · rw [loadFrom_of_not_valid hv, show machineMemory.load vm.data.memory address =
      .error (.error .errMemoryOob) from if_neg hv]
    exact follows_error rfl (by decide)

theorem follows_store (h0 : vm.halted = 0) {a : Byte} (ha : validReg a = true)
    (address : WaiValue) :
    Follows code dest vm (storeTo vm a address)
      (machineMemory.store vm.data.memory address (vm.regD a) >>= fun memory =>
        pure (.forward { vm.data with memory := memory })) := by
  by_cases hv : ValidAddress address
  · rw [storeTo_of_valid ha hv, show machineMemory.store vm.data.memory address (vm.regD a) =
      .ok ⟨writeQword vm.memory address.toNat (vm.regD a), vm.sp⟩ from if_pos hv]
    exact follows_forward h0 rfl
  · rw [storeTo_of_not_valid hv, show machineMemory.store vm.data.memory address (vm.regD a) =
      .error (.error .errMemoryOob) from if_neg hv]
    exact follows_error rfl (by decide)

theorem push_data_full (value : WaiValue) (h : vm.sp.toNat < 8) :
    machineMemory.push vm.data.memory value = .error (.error .errStackOverflow) :=
  if_pos h

theorem push_data (value : WaiValue) (h : 8 ≤ vm.sp.toNat) :
    machineMemory.push vm.data.memory value = .ok (vm.pushed value).data.memory :=
  if_neg (Nat.not_lt.mpr h)

theorem pop_data_empty (h : maxAddress < vm.sp.toNat) :
    machineMemory.pop vm.data.memory = .error (.error .errStackUnderflow) :=
  if_pos h

theorem pop_data (h : vm.sp.toNat ≤ maxAddress) :
    machineMemory.pop vm.data.memory = .ok (vm.top, vm.popped.data.memory) :=
  if_neg (Nat.not_lt.mpr h)

/-- The number that `dest` stands for, and whether it is the target of a jump. -/
structure Targets (code : List (Operation × Option Nat)) (vm : WaiVm) : Prop where
  count : code.length = vm.codeCount.toNat
  bound : code.length < 2 ^ 63

theorem Targets.valid_iff (h : Targets code vm) (value : WaiValue) :
    ValidTarget vm value ↔ value.toNat < code.length := by
  rw [validTarget_iff (h.count ▸ h.bound), h.count]
  exact Iff.rfl

/-- The machine goes on at `value`, or there is no instruction with that number. -/
theorem enter_data (vm : WaiVm) (h0 : vm.halted = 0) (htargets : Targets code vm)
    (value : WaiValue) :
    Outcome.Related SameState SameEnd (resultOutcome (.ok (jumpTo vm value)))
      (enterNumber (language machineMemory) code vm.data value.toNat) := by
  unfold enterNumber
  by_cases ht : value.toNat < code.length
  · rw [jumpTo_of_valid ((htargets.valid_iff value).mpr ht), if_pos ht,
      show resultOutcome (.ok (.ok, { vm with ip := value })) = .next { vm with ip := value } from
        resultOutcome_next h0]
    exact .next rfl
  · rw [jumpTo_of_not_valid (mt (htargets.valid_iff value).mp ht), if_neg ht]
    exact .done (.stopped (vm.failed .errBadJump) (by decide))

/-- A jump that may not be taken. -/
theorem follows_branch (ins : WaiInstruction) (h0 : vm.halted = 0) (htargets : Targets code vm)
    (taken : Prop) [Decidable taken] :
    Follows code ins.imm.toNat vm (.ok (if taken then jumpTo vm ins.imm else (.ok, vm)))
      (if !decide taken then pure (.forward vm.data)
        else if decide (ins.imm.toNat < code.length) then pure (.jump vm.data)
        else throw (.error .errBadJump)) := by
  by_cases ht : taken
  · rw [if_pos ht, decide_eq_true ht]
    by_cases htarget : ins.imm.toNat < code.length
    · rw [decide_eq_true htarget]
      exact enter_data vm h0 htargets ins.imm
    · rw [decide_eq_false htarget, jumpTo_of_not_valid (mt (htargets.valid_iff _).mp htarget)]
      exact follows_error rfl (by decide)
  · rw [if_neg ht, decide_eq_false ht]
    exact follows_forward h0 rfl

theorem follows_jumpReg (h0 : vm.halted = 0) (htargets : Targets code vm)
    {taken : WaiValue → Bool} :
    Follows code ins.imm.toNat vm (caseJumpReg vm ins taken)
      ((vm.data.reg ins.a).map taken >>= fun b =>
        if !b then pure (.forward vm.data)
        else if decide (ins.imm.toNat < code.length) then pure (.jump vm.data)
        else throw (.error .errBadJump)) := by
  cases ha : validReg ins.a with
  | false =>
    rw [caseJumpReg, ha, reg_data_of_not_valid ha]
    exact follows_error rfl (by decide)
  | true =>
    have hbranch := follows_branch ins h0 htargets (taken (vm.regD ins.a))
    rw [Bool.decide_eq_true] at hbranch
    rw [caseJumpReg, ha, reg_data_of_valid ha, reg_spec vm ha]
    exact hbranch

/-- The machine behind a call, with the number of the next instruction on the stack. -/
theorem follows_call (ins : WaiInstruction) (h0 : vm.halted = 0) (htargets : Targets code vm)
    (hsp : vm.sp.toNat ≤ waiMemorySize) (hop : ins.op = .call) :
    Follows code ins.imm.toNat vm (stepSwitch vm ins)
      (Operation.call.run machineMemory vm.ip.toNat (ins.imm.toNat < code.length) vm.data) := by
  unfold stepSwitch
  rw [show WaiOpcode.ofByte ins.opcode = ins.op from rfl, hop]
  by_cases htarget : ins.imm.toNat < code.length
  · have hvalid := (htargets.valid_iff ins.imm).mpr htarget
    simp only [checkJump_of_valid hvalid, Operation.run, decide_eq_true htarget, if_true,
      BitVec.ofNat_toNat, BitVec.setWidth_eq]
    rcases Nat.lt_or_ge vm.sp.toNat 8 with hlt | hge
    · rw [push_overflow vm _ hlt, push_data_full _ hlt]
      exact follows_error rfl (show WaiErrorCode.errStackOverflow ≠ .ok by decide)
    · have hpushed : Targets code (vm.pushed vm.ip) := ⟨htargets.count, htargets.bound⟩
      have hjump := enter_data (vm.pushed vm.ip) h0 hpushed ins.imm
      rw [jumpTo_of_valid (show ValidTarget (vm.pushed vm.ip) ins.imm from hvalid)] at hjump
      rw [push_spec vm _ hge hsp, push_data _ hge]
      exact hjump
  · rw [checkJump_of_not_valid (mt (htargets.valid_iff _).mp htarget), Operation.run,
      decide_eq_false htarget]
    exact follows_error rfl (show WaiErrorCode.errBadJump ≠ .ok by decide)

theorem follows_ret (ins : WaiInstruction) (dest next : Nat) (target : Bool) (h0 : vm.halted = 0)
    (htargets : Targets code vm) (hop : ins.op = .ret) :
    Follows code dest vm (stepSwitch vm ins) (Operation.ret.run machineMemory next target vm.data) := by
  unfold stepSwitch
  rw [show WaiOpcode.ofByte ins.opcode = ins.op from rfl, hop]
  rcases Nat.lt_or_ge maxAddress vm.sp.toNat with hlt | hge
  · simp only [pop_underflow vm hlt, Operation.run, pop_data_empty hlt]
    exact follows_error rfl (show WaiErrorCode.errStackUnderflow ≠ .ok by decide)
  · simp only [pop_spec vm hge, Operation.run, pop_data hge]
    exact enter_data vm.popped h0 ⟨htargets.count, htargets.bound⟩ vm.top

theorem sound_of_value {f : WaiValue → WaiValue → WaiValue} :
    Sound fun x y => .ok (.ok (f x y)) :=
  ⟨nofun, nofun⟩

theorem sound_divOp : Sound divOp where
  fault h := ((divOp_fault_iff _ _ _).mp h).1
  error h := by
    rw [(divOp_error h).1]
    decide

theorem sound_modOp : Sound modOp where
  fault h := ((modOp_fault_iff _ _ _).mp h).1
  error h := by
    rw [(modOp_error h).1]
    decide

theorem sound_shift {f : WaiValue → Nat → WaiValue} :
    Sound fun x y => .ok ((checkShift y).map (f x)) where
  fault := nofun
  error h := by
    rw [(checkShift_error h).1]
    decide

/-- The switch does what the operation of the instruction does. -/
theorem switch_follows (h0 : vm.halted = 0) (htargets : Targets code vm)
    (hsp : vm.sp.toNat ≤ waiMemorySize) (ins : WaiInstruction) :
    let dest := (numbered ins).2.getD code.length
    Follows code dest vm (stepSwitch vm ins)
      ((decode ins).run machineMemory vm.ip.toNat (dest < code.length) vm.data) := by
  intro dest
  have hdest : ins.op ∈ WaiOpcode.jumps → dest = ins.imm.toNat := by
    intro hjumps
    show (ite _ _ _ : Option Nat).getD code.length = _
    rw [if_pos hjumps]
    rfl
  clear_value dest
  unfold decode
  have hcall := follows_call ins h0 htargets hsp
  have hret := follows_ret ins dest vm.ip.toNat (dest < code.length) h0 htargets
  unfold stepSwitch at hcall hret ⊢
  rw [show WaiOpcode.ofByte ins.opcode = ins.op from rfl] at hcall hret ⊢
  cases hop : ins.op with
  | movImm | addImm | subImm | mulImm | andImm | orImm | xorImm | not =>
    exact follows_imm h0 sound_of_value
  | movReg | addReg | subReg | mulReg | andReg | orReg | xorReg =>
    exact follows_reg h0 sound_of_value
  | divImm => exact follows_imm h0 sound_divOp
  | divReg => exact follows_reg h0 sound_divOp
  | modImm => exact follows_imm h0 sound_modOp
  | modReg => exact follows_reg h0 sound_modOp
  | shlImm | shrImm => exact follows_imm h0 sound_shift
  | shlReg | shrReg => exact follows_reg h0 sound_shift
  | cmpImm =>
    refine follows_guardA fun ha => ?_
    rw [reg_spec vm ha]
    show Follows code dest vm (.ok (.ok, { vm with zf := if vm.regD ins.a = ins.imm then 1 else 0 }))
      (.ok (.forward { vm.data with zf := decide (vm.regD ins.a = ins.imm) }))
    rw [← data_compared]
    exact follows_forward h0 rfl
  | cmpReg =>
    refine follows_guardAB fun ha hb => ?_
    rw [reg_spec vm ha, reg_spec vm hb]
    show Follows code dest vm
      (.ok (.ok, { vm with zf := if vm.regD ins.a = vm.regD ins.b then 1 else 0 }))
      (.ok (.forward { vm.data with zf := decide (vm.regD ins.a = vm.regD ins.b) }))
    rw [← data_compared]
    exact follows_forward h0 rfl
  | loadAbs => exact follows_guardA fun ha => follows_load h0 ha _
  | loadReg =>
    refine follows_guardAB fun ha hb => ?_
    rw [reg_spec vm hb]
    exact follows_load h0 ha _
  | storeAbs => exact follows_guardA fun ha => follows_store h0 ha _
  | storeReg =>
    refine follows_guardAB fun ha hb => ?_
    rw [reg_spec vm hb]
    exact follows_store h0 ha _
  | push =>
    refine follows_guardA fun ha => ?_
    rw [reg_spec vm ha]
    show Follows code dest vm (pushI64 vm (vm.regD ins.a)) _
    rcases Nat.lt_or_ge vm.sp.toNat 8 with hlt | hge
    · rw [push_overflow vm _ hlt, push_data_full _ hlt]
      exact follows_error rfl (by decide)
    · rw [push_spec vm _ hge hsp, push_data _ hge]
      exact @follows_forward _ _ _ (vm.pushed (vm.regD ins.a)) h0 rfl
  | pop =>
    refine follows_guardA fun ha => ?_
    rcases Nat.lt_or_ge maxAddress vm.sp.toNat with hlt | hge
    · rw [pop_underflow vm hlt, pop_data_empty hlt]
      exact follows_error rfl (show WaiErrorCode.errStackUnderflow ≠ .ok by decide)
    · simp only [pop_spec vm hge, pop_data hge, bind, Except.bind, setReg_spec _ ha]
      show Follows code dest vm (.ok (.ok, updateZf (vm.popped.withReg ins.a vm.top) vm.top))
        (.ok (.forward (vm.popped.data.assign ins.a vm.top)))
      rw [← data_assigned]
      exact follows_forward h0 rfl
  | print =>
    refine follows_guardA fun ha => ?_
    rw [reg_spec vm ha]
    exact @follows_forward _ _ _ (waiVmEmitPrint vm (vm.regD ins.a)) h0 rfl
  | jmp =>
    rw [hdest (by rw [hop]; decide)]
    exact follows_branch ins h0 htargets True
  | jz =>
    rw [hdest (by rw [hop]; decide)]
    exact follows_jumpReg h0 htargets
  | jnz =>
    rw [hdest (by rw [hop]; decide)]
    exact follows_jumpReg h0 htargets
  | je =>
    rw [hdest (by rw [hop]; decide)]
    exact follows_branch ins h0 htargets _
  | jne =>
    rw [hdest (by rw [hop]; decide)]
    have hzf : (!vm.data.zf) = decide (vm.zf = 0) := by
      show (!decide (vm.zf ≠ 0)) = _
      rw [decide_not, Bool.not_not]
    have hbranch := follows_branch ins h0 htargets (vm.zf = 0)
    rw [← hzf] at hbranch
    exact hbranch
  | call =>
    rw [hdest (by rw [hop]; decide)]
    rw [hop] at hcall
    exact hcall rfl
  | ret =>
    rw [hop] at hret
    exact hret rfl
  | nop => exact follows_forward h0 rfl
  | halt => exact .done (.halted { vm with halted := 1 })
  | invalid => exact follows_error rfl (by decide)

end Switch

/-! ## Runs -/

/-- The machine runs `code` and has not halted. The array of an empty program is `NULL`. -/
structure Running (code : List WaiInstruction) (vm : WaiVm) : Prop where
  halted : vm.halted = 0
  invariant : (∃ d, MachineInvariant code vm d) ∨ (code = [] ∧ vm.codeCount ≤ vm.ip)

/-- The machine and the instruction set are in the same state of a run of `code`. -/
def SameRun (code : List WaiInstruction) (vm : WaiVm) (c : Data ByteStack × Nat) : Prop :=
  SameState vm c ∧ Running code vm

section Runs
variable {code : List WaiInstruction} {vm : WaiVm} {d : Nat}

theorem numberStep_past_end (h : code.length ≤ vm.ip.toNat) :
    numberStep (language machineMemory) (code.map numbered) (vm.data, vm.ip.toNat) =
      .done (.stopped (.error .errIpOutOfBounds) vm.data) := by
  have hnone : (code.map numbered)[vm.ip.toNat]? = none :=
    List.getElem?_eq_none ((List.length_map _).trans_le h)
  rw [numberStep, hnone]
  rfl

/-- One instruction of a machine that has code. -/
theorem engine_same (hlen : code.length ≤ maxInstructions) (h : MachineInvariant code vm d)
    (h0 : vm.halted = 0) :
    Outcome.Related SameState SameEnd (engineStep vm)
      (numberStep (language machineMemory) (code.map numbered) (vm.data, vm.ip.toNat)) := by
  have hlt64 : code.length < 2 ^ 64 := Nat.lt_of_le_of_lt hlen maxInstructions_lt
  have hcount := h.codeCount_toNat hlt64
  rw [engineStep, if_neg (not_not_intro h0)]
  by_cases hip : vm.codeCount ≤ vm.ip
  · rw [step_past_end h.code_eq (not_not_intro h0) hip, numberStep_past_end (hcount ▸ hip)]
    exact .done (.stopped (vm.failed .errIpOutOfBounds) (by decide))
  · have hlt : vm.ip < vm.codeCount := BitVec.not_le.mp hip
    have hin : vm.ip.toNat < code.length := hcount ▸ hlt
    have hget : code[vm.ip.toNat]? = some code[vm.ip.toNat] := List.getElem?_eq_getElem hin
    generalize code[vm.ip.toNat] = ins at hget
    have hf := invariant_fetched h hlt
    have hnext : vm.fetched.ip.toNat = vm.ip.toNat + 1 := by
      show (vm.ip + 1).toNat = _
      have hmax : maxInstructions < 2 ^ 63 := by decide
      rw [BitVec.toNat_add, Nat.mod_eq_of_lt]
      · rfl
      · rw [show (1 : BitVec 64).toNat = 1 from rfl]
        omega
    have htargets : Targets (code.map numbered) vm.fetched :=
      ⟨(List.length_map _).trans hcount.symm,
        (List.length_map _).trans_lt (Nat.lt_of_le_of_lt hlen (by decide))⟩
    have hfollows := @switch_follows _ vm.fetched h0 htargets hf.sp_le ins
    rw [step_fetch h.code_eq (not_not_intro h0) hip hget]
    rw [numberStep, List.getElem?_map, hget]
    unfold Follows at hfollows
    rw [hnext] at hfollows
    exact hfollows

/-- One instruction, in the machine and in the instruction set. -/
theorem instruction_same (hlen : code.length ≤ maxInstructions) {c : Data ByteStack × Nat}
    (h : SameRun code vm c) :
    Outcome.Related (SameRun code) SameEnd (instructionStep vm)
      (numberStep (language machineMemory) (code.map numbered) c) := by
  obtain ⟨rfl, h0, ⟨d, hinv⟩ | ⟨rfl, hip⟩⟩ := h
  · have hsame := engine_same hlen hinv h0
    rw [instructionStep_eq hinv.code_eq]
    generalize hstep : engineStep vm = o at hsame
    generalize numberStep (language machineMemory) (code.map numbered) (vm.data, vm.ip.toNat) = o' at hsame
    cases hsame with
    | next hs =>
      obtain ⟨_, hok, h0'⟩ := engineStep_next hstep
      obtain ⟨d', hinv', _⟩ := invariant_step (Nat.lt_of_le_of_lt hlen maxInstructions_lt) hinv hok
      exact .next ⟨hs, h0', .inl ⟨d', hinv'⟩⟩
    | done hQ => exact .done hQ
  · rw [instructionStep_past_end h0 hip, numberStep_past_end (Nat.zero_le _)]
    exact .done (.stopped (vm.failed .errIpOutOfBounds) (by decide))

/-- The machine does what the instruction set says, in lock step. -/
theorem isa_lockStep (hlen : code.length ≤ maxInstructions) :
    LockStep instructionStep (numberStep (language machineMemory) (code.map numbered)) (SameRun code)
      SameEnd :=
  fun _ _ h => instruction_same hlen h

/-- A program starts with an empty machine, at its first instruction. -/
theorem sameRun_start (program : OwnedProgram) :
    SameRun program.instructions program.initialVm
      (.zero ⟨fun _ => 0, waiStackStart⟩, 0) := by
  refine ⟨rfl, rfl, ?_⟩
  cases hc : program.code with
  | none =>
    refine .inr ⟨?_, past_end_of_null hc⟩
    rw [WaiProgram.instructions, hc]
    rfl
  | some code =>
    rw [program.initialVm_eq hc, WaiProgram.instructions, hc]
    exact .inl ⟨0, .init code⟩

end Runs

/-! ## The engine -/

/-- The engine has ended as an abstract machine did, with the same data. A quotient that does not
exist kills the process. -/
inductive ShowsResult : AsmEnd → Result ByteStack → Prop
  | halted {c : AsmState} : waiVmExecute c = some .ok → ShowsResult (.returned c) (.halted c.mem.data)
  | stopped {c : AsmState} {status : WaiErrorCode} : waiVmExecute c = some status → status ≠ .ok →
      ShowsResult (.returned c) (.stopped (.error status) c.mem.data)
  | overflow (d : Data ByteStack) : ShowsResult (.trapped .divide) (.stopped .overflow d)

/-- The engine runs the program as `step` runs from `start`: after each number of instructions it
has the same data, and both end together. -/
structure RunsAs {τ : Type} (program : OwnedProgram) (step : τ → Outcome τ (Result ByteStack))
    (start : τ) (data : τ → Data ByteStack) : Prop where
  executed : ∀ regs n d, (∃ vm, Executed regs program.initialVm n vm ∧ vm.data = d) ↔
    ∃ a, ReachesIn step n start a ∧ data a = d
  ends : ∀ regs r, Ends step start r →
    ∃ e, ShowsResult e r ∧ Ends asmStep (asmEntry regs program.initialVm) e
  ended : ∀ regs e, Ends asmStep (asmEntry regs program.initialVm) e →
    ∃ r, ShowsResult e r ∧ Ends step start r

/-- The engine has ended as `instructionStep` did, and an error is recorded in the machine. -/
def EngineEnd (entry : Reg → Val Object) (e : AsmEnd) (r : StepEnd) : Prop :=
  EndRelation entry e r ∧
    ∀ {status vm}, r = .stopped status vm → status ≠ .ok → vm.error = status

section Engine
variable {program : OwnedProgram} {τ : Type} {step : τ → Outcome τ (Result ByteStack)} {start : τ}
  {data : τ → Data ByteStack} {R : WaiVm → τ → Prop} {entry : Reg → Val Object} {e : AsmEnd}
  {r : StepEnd} {r' : Result ByteStack}

theorem result_simulation (entry : Reg → Val Object) :
    Simulation asmStep instructionStep LoopHead (RunRelation entry) (EngineEnd entry) where
  head := (instruction_simulation entry).head
  next := (instruction_simulation entry).next
  done := by
    intro c vm r' hR hdone
    obtain ⟨e, hend, hseg⟩ := (instruction_simulation entry).done hR hdone
    refine ⟨e, ⟨hend, ?_⟩, hseg⟩
    rintro status vm' rfl hne
    exact instructionStep_error hR.2 hdone hne

/-- What the engine shows at its end. -/
theorem showsResult_of_end (h : EngineEnd entry e r) (hsame : SameEnd r r') : ShowsResult e r' := by
  obtain ⟨hend, herror⟩ := h
  cases hsame with
  | overflow d =>
    cases e with
    | returned c => exact absurd hend id
    | trapped t => cases t <;> first | exact .overflow d | exact absurd hend id
  | halted vm =>
    cases e with
    | trapped t => cases t <;> exact absurd hend id
    | returned c =>
      obtain ⟨rfl, hcode⟩ := execute_of_returned hend (herror rfl)
      exact .halted hcode
  | stopped vm hne =>
    cases e with
    | trapped t => cases t <;> exact absurd hend id
    | returned c =>
      obtain ⟨rfl, hcode⟩ := execute_of_returned hend (herror rfl)
      exact .stopped hcode hne

/-- What runs in lock step with the machine is what the engine runs. -/
theorem runsAs_of_lockStep (h : LockStep instructionStep step R SameEnd)
    (hstart : R program.initialVm start) (hdata : ∀ vm a, R vm a → data a = vm.data) :
    RunsAs program step start data where
  executed := by
    intro regs n d
    constructor
    · rintro ⟨vm, hvm, rfl⟩
      obtain ⟨a, hR, ha⟩ :=
        h.reachesIn_reflect hstart ((executed_iff (initial_runnable program)).mp hvm)
      exact ⟨a, ha, hdata vm a hR⟩
    · rintro ⟨a, ha, rfl⟩
      obtain ⟨vm, hR, hvm⟩ := h.reachesIn hstart ha
      exact ⟨vm, (executed_iff (initial_runnable program)).mpr hvm, (hdata vm a hR).symm⟩
  ends := by
    intro regs r hr
    obtain ⟨c, hc, hentry⟩ := entry_between regs program.initialVm
    obtain ⟨r', hsame, hr'⟩ := h.ends hstart hr
    obtain ⟨e, hend, he⟩ := (result_simulation _).ends ⟨hc, initial_runnable program⟩ hr'
    exact ⟨e, showsResult_of_end hend hsame, Machine.ends_of_reaches hentry.reaches he⟩
  ended := by
    intro regs e he
    obtain ⟨c, hc, hentry⟩ := entry_between regs program.initialVm
    obtain ⟨r', hend, hr'⟩ := (result_simulation _).ends_reflect ⟨hc, initial_runnable program⟩
      (Machine.ends_from_reaches hentry.reaches he)
    obtain ⟨r, hsame, hr⟩ := h.ends_reflect hstart hr'
    exact ⟨r, showsResult_of_end hend hsame, hr⟩

end Engine

/-- The engine runs every program by the instruction set. -/
theorem engine_runs_isa (program : OwnedProgram) :
    RunsAs program (numberStep (language machineMemory) (program.instructions.map numbered))
      (.zero ⟨fun _ => 0, waiStackStart⟩, 0) Prod.fst :=
  runsAs_of_lockStep (isa_lockStep program.length_le) (sameRun_start program)
    fun _ _ h => congrArg Prod.fst h.1

end Waivm
