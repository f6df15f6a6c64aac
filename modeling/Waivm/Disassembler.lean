import Waivm.Lib.Printf
import Waivm.Program

/-!
# The disassembler (`disassembler.c`)

`wai_disassemble_instruction` writes one line: the index of the instruction, two
blanks, and the instruction in the notation of the assembler, with a number where the
source has a label.
-/

namespace Waivm

open CString Printf
open LittleEndian (Byte)

/-- `print_reg` -/
def printReg (reg : Byte) : Text :=
  'r' :: unsigned 10 reg.toNat

/-- A number in brackets. -/
def bracketed (text : Text) : Text :=
  '[' :: text ++ [']']

/-- A mnemonic without operands, with one and with two. -/
def operation (mnemonic : Text) : List Text → Text
  | [] => mnemonic
  | [x] => mnemonic ++ ' ' :: x
  | x :: y :: _ => mnemonic ++ ' ' :: x ++ ',' :: ' ' :: y

/-- The `_IMM` case of a mnemonic with two operands. -/
def printImm (mnemonic : Text) (ins : WaiInstruction) : Text :=
  operation mnemonic [printReg ins.a, signed ins.imm.toInt]

/-- The `_REG` case of a mnemonic with two operands. -/
def printRegReg (mnemonic : Text) (ins : WaiInstruction) : Text :=
  operation mnemonic [printReg ins.a, printReg ins.b]

/-- The case of a mnemonic with one register. -/
def printOne (mnemonic : Text) (ins : WaiInstruction) : Text :=
  operation mnemonic [printReg ins.a]

/-- The case of a jump without a register. -/
def printTarget (mnemonic : Text) (ins : WaiInstruction) : Text :=
  operation mnemonic [signed ins.imm.toInt]

/-- The `switch` of `wai_disassemble_instruction`. -/
def disassembleSwitch (ins : WaiInstruction) : Text :=
  match WaiOpcode.ofByte ins.opcode with
  | .movImm => printImm ['m', 'o', 'v'] ins
  | .movReg => printRegReg ['m', 'o', 'v'] ins
  | .addImm => printImm ['a', 'd', 'd'] ins
  | .addReg => printRegReg ['a', 'd', 'd'] ins
  | .subImm => printImm ['s', 'u', 'b'] ins
  | .subReg => printRegReg ['s', 'u', 'b'] ins
  | .mulImm => printImm ['m', 'u', 'l'] ins
  | .mulReg => printRegReg ['m', 'u', 'l'] ins
  | .divImm => printImm ['d', 'i', 'v'] ins
  | .divReg => printRegReg ['d', 'i', 'v'] ins
  | .modImm => printImm ['m', 'o', 'd'] ins
  | .modReg => printRegReg ['m', 'o', 'd'] ins
  | .andImm => printImm ['a', 'n', 'd'] ins
  | .andReg => printRegReg ['a', 'n', 'd'] ins
  | .orImm => printImm ['o', 'r'] ins
  | .orReg => printRegReg ['o', 'r'] ins
  | .xorImm => printImm ['x', 'o', 'r'] ins
  | .xorReg => printRegReg ['x', 'o', 'r'] ins
  | .not => printOne ['n', 'o', 't'] ins
  | .shlImm => printImm ['s', 'h', 'l'] ins
  | .shlReg => printRegReg ['s', 'h', 'l'] ins
  | .shrImm => printImm ['s', 'h', 'r'] ins
  | .shrReg => printRegReg ['s', 'h', 'r'] ins
  | .jmp => printTarget ['j', 'm', 'p'] ins
  | .jz => printImm ['j', 'z'] ins
  | .jnz => printImm ['j', 'n', 'z'] ins
  | .print => printOne ['p', 'r', 'i', 'n', 't'] ins
  | .halt => ['h', 'a', 'l', 't']
  | .loadAbs =>
    operation ['l', 'o', 'a', 'd'] [printReg ins.a, bracketed (signed ins.imm.toInt)]
  | .loadReg => operation ['l', 'o', 'a', 'd'] [printReg ins.a, bracketed (printReg ins.b)]
  | .storeAbs =>
    operation ['s', 't', 'o', 'r', 'e'] [bracketed (signed ins.imm.toInt), printReg ins.a]
  | .storeReg => operation ['s', 't', 'o', 'r', 'e'] [bracketed (printReg ins.b), printReg ins.a]
  | .push => printOne ['p', 'u', 's', 'h'] ins
  | .pop => printOne ['p', 'o', 'p'] ins
  | .call => printTarget ['c', 'a', 'l', 'l'] ins
  | .ret => ['r', 'e', 't']
  | .nop => ['n', 'o', 'p']
  | .cmpImm => printImm ['c', 'm', 'p'] ins
  | .cmpReg => printRegReg ['c', 'm', 'p'] ins
  | .je => printTarget ['j', 'e'] ins
  | .jne => printTarget ['j', 'n', 'e'] ins
  | .invalid =>
    ".byte 0x".toList ++ zeroFilled 2 (unsigned 16 ins.opcode.toNat) ++ " ; invalid opcode".toList

/-- `wai_disassemble_instruction` -/
def waiDisassembleInstruction (ins : WaiInstruction) (ip : Nat) : Text :=
  zeroFilled 4 (unsigned 10 ip) ++ ' ' :: ' ' :: disassembleSwitch ins ++ ['\n']

/-- The loop of `wai_disassemble_program` from index `ip` on. -/
def disassembleFrom : Nat → List WaiInstruction → Text
  | _, [] => []
  | ip, ins :: rest => waiDisassembleInstruction ins ip ++ disassembleFrom (ip + 1) rest

/-- `wai_disassemble_program`, which writes a line for each instruction. -/
def waiDisassembleProgram (program : WaiProgram) : Text :=
  disassembleFrom 0 program.instructions

end Waivm
