import Waivm.Lib.Machine
import Waivm.Lib.LittleEndian

/-!
# Error codes and instructions (`error.h`, `instruction.h`)

The error codes, the opcodes and the 12-byte instruction record that every
other component reads or writes.
-/

namespace Waivm

open LittleEndian (Byte)

/-- `wai_error_code`, in the order of its values `0 … 13`. -/
inductive WaiErrorCode
  | ok
  | errIo
  | errParse
  | errOom
  | errBadOpcode
  | errIpOutOfBounds
  | errBadRegister
  | errDivZero
  | errBadJump
  | errUnsupported
  | errMemoryOob
  | errStackOverflow
  | errStackUnderflow
  | errBadShift
deriving DecidableEq, Repr

/-- The value of an error code, as the C enumeration numbers it. -/
def WaiErrorCode.value : WaiErrorCode → Nat
  | .ok => 0
  | .errIo => 1
  | .errParse => 2
  | .errOom => 3
  | .errBadOpcode => 4
  | .errIpOutOfBounds => 5
  | .errBadRegister => 6
  | .errDivZero => 7
  | .errBadJump => 8
  | .errUnsupported => 9
  | .errMemoryOob => 10
  | .errStackOverflow => 11
  | .errStackUnderflow => 12
  | .errBadShift => 13

/-- The error code with a given value, if there is one. -/
def WaiErrorCode.ofValue (n : Nat) : Option WaiErrorCode :=
  [.ok, .errIo, .errParse, .errOom, .errBadOpcode, .errIpOutOfBounds, .errBadRegister,
    .errDivZero, .errBadJump, .errUnsupported, .errMemoryOob, .errStackOverflow,
    .errStackUnderflow, .errBadShift][n]?

/-- `wai_opcode`, in the order of its values `0 … 41`. -/
inductive WaiOpcode
  | invalid
  | movImm | movReg
  | addImm | addReg
  | subImm | subReg
  | mulImm | mulReg
  | divImm | divReg
  | jmp | jz | jnz
  | print
  | halt
  | loadAbs | loadReg
  | storeAbs | storeReg
  | push | pop
  | call | ret
  | cmpImm | cmpReg
  | je | jne
  | nop
  | modImm | modReg
  | andImm | andReg
  | orImm | orReg
  | xorImm | xorReg
  | not
  | shlImm | shlReg
  | shrImm | shrReg
deriving DecidableEq, Repr

namespace WaiOpcode

/-- Every opcode, at the position of its value. -/
def all : List WaiOpcode :=
  [invalid, movImm, movReg, addImm, addReg, subImm, subReg, mulImm, mulReg, divImm, divReg,
    jmp, jz, jnz, print, halt, loadAbs, loadReg, storeAbs, storeReg, push, pop, call, ret,
    cmpImm, cmpReg, je, jne, nop, modImm, modReg, andImm, andReg, orImm, orReg, xorImm, xorReg,
    not, shlImm, shlReg, shrImm, shrReg]

/-- The value of an opcode, as the C enumeration numbers it. -/
def value (op : WaiOpcode) : Byte :=
  BitVec.ofNat 8 (all.idxOf op)

/-- `(wai_opcode)byte` as the `switch` statements see it: a byte that is no
opcode takes the branch of `WAI_OP_INVALID`, which every one of them shares
with `default`. -/
def ofByte (byte : Byte) : WaiOpcode :=
  all.getD byte.toNat invalid

end WaiOpcode

/-- `WAI_OPCODE_MAX` -/
def waiOpcodeMax : WaiOpcode := .shrReg

/-- `wai_value`, a signed 64-bit integer in two's complement. -/
abbrev WaiValue := BitVec 64

/-- `wai_instruction` -/
structure WaiInstruction where
  opcode : Byte
  a : Byte
  b : Byte
  c : Byte
  imm : WaiValue
deriving DecidableEq, Repr

/-- `sizeof(wai_instruction)` -/
def sizeofWaiInstruction : Nat := 12

/-- `SIZE_MAX` of a 64-bit target. -/
def sizeMax : Nat := 2 ^ 64 - 1

/-- `wai_register_is_valid` -/
def waiRegisterIsValid (reg : Byte) : Bool :=
  reg.toNat < 8

/-- `wai_opcode_name` -/
def waiOpcodeName (opcode : Byte) : String :=
  match WaiOpcode.ofByte opcode with
  | .movImm => "mov.imm"
  | .movReg => "mov.reg"
  | .addImm => "add.imm"
  | .addReg => "add.reg"
  | .subImm => "sub.imm"
  | .subReg => "sub.reg"
  | .mulImm => "mul.imm"
  | .mulReg => "mul.reg"
  | .divImm => "div.imm"
  | .divReg => "div.reg"
  | .jmp => "jmp"
  | .jz => "jz"
  | .jnz => "jnz"
  | .print => "print"
  | .halt => "halt"
  | .loadAbs => "load.abs"
  | .loadReg => "load.reg"
  | .storeAbs => "store.abs"
  | .storeReg => "store.reg"
  | .push => "push"
  | .pop => "pop"
  | .call => "call"
  | .ret => "ret"
  | .cmpImm => "cmp.imm"
  | .cmpReg => "cmp.reg"
  | .je => "je"
  | .jne => "jne"
  | .nop => "nop"
  | .modImm => "mod.imm"
  | .modReg => "mod.reg"
  | .andImm => "and.imm"
  | .andReg => "and.reg"
  | .orImm => "or.imm"
  | .orReg => "or.reg"
  | .xorImm => "xor.imm"
  | .xorReg => "xor.reg"
  | .not => "not"
  | .shlImm => "shl.imm"
  | .shlReg => "shl.reg"
  | .shrImm => "shr.imm"
  | .shrReg => "shr.reg"
  | .invalid => "invalid"

/-- `wai_error_string` -/
def waiErrorString : WaiErrorCode → String
  | .ok => "ok"
  | .errIo => "I/O error"
  | .errParse => "parse error"
  | .errOom => "out of memory"
  | .errBadOpcode => "bad opcode"
  | .errIpOutOfBounds => "instruction pointer out of bounds"
  | .errBadRegister => "bad register"
  | .errDivZero => "division by zero"
  | .errBadJump => "bad jump target"
  | .errUnsupported => "unsupported feature"
  | .errMemoryOob => "memory access out of bounds"
  | .errStackOverflow => "stack overflow"
  | .errStackUnderflow => "stack underflow"
  | .errBadShift => "bad shift count"

/-! ## Opcodes and their bytes -/

/-- A byte that stands for an opcode is that opcode's value. -/
theorem ofByte_value (op : WaiOpcode) : WaiOpcode.ofByte op.value = op := by
  cases op <;> decide

theorem value_ofByte {byte : Byte} (h : WaiOpcode.ofByte byte ≠ .invalid) :
    (WaiOpcode.ofByte byte).value = byte := by
  revert h
  revert byte
  decide

/-- `opcode_known` in both validators tests exactly that the byte is an opcode. -/
theorem ofByte_ne_invalid_iff (byte : Byte) :
    WaiOpcode.ofByte byte ≠ .invalid ↔
      WaiOpcode.movImm.value ≤ byte ∧ byte ≤ waiOpcodeMax.value := by
  revert byte
  decide

/-- A value that is not negative is the same number signed and unsigned. -/
theorem toInt_eq_toNat_of_nonneg {x : WaiValue} (h : 0 ≤ x.toInt) : x.toInt = x.toNat := by
  rw [BitVec.toInt_eq_toNat_cond] at h ⊢
  split
  · rfl
  · next hge =>
    rw [if_neg hge] at h
    have := x.isLt
    omega

theorem ofValue_value (e : WaiErrorCode) : WaiErrorCode.ofValue e.value = some e := by
  cases e <;> rfl

end Waivm
