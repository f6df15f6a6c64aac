import Waivm.Lib.X86
import Waivm.Memory

/-!
# The assembly engine (`asm/vm_linux_x86_64.asm`)

The listing of `wai_vm_exec_asm`, label by label, over the x86-64 fragment of
`Lib/X86.lean`, and the two objects it works on: the `wai_vm` that `r12` points
to, addressed by the `VM_*` offsets, and the instruction array behind
`vm->code`, in records of `INS_SIZE` bytes.

An access with a scaled index has to stay in the field its displacement names:
`[r12 + VM_REGS + rax * 8]` in `regs`, `[r12 + VM_MEMORY + rbx]` with all eight
bytes in `memory`. Every other use is `Trap.access`.
-/

namespace Waivm

open LittleEndian (Byte)
open X86 (Reg Val MemRef Instr Slot Memory)

/-! ## The objects in memory -/

/-- The objects the engine points to. -/
inductive Object
  | vm
  | code
deriving DecidableEq, Repr

/-- `extern wai_vm_emit_print` -/
inductive Extern
  | waiVmEmitPrint

@[match_pattern] abbrev vmRegs : Nat := 0
@[match_pattern] abbrev vmIp : Nat := 64
@[match_pattern] abbrev vmZf : Nat := 72
@[match_pattern] abbrev vmHalted : Nat := 73
@[match_pattern] abbrev vmCode : Nat := 80
@[match_pattern] abbrev vmCodeCount : Nat := 88
@[match_pattern] abbrev vmError : Nat := 96
@[match_pattern] abbrev vmMemory : Nat := 128
@[match_pattern] abbrev vmSp : Nat := 65664

@[match_pattern] abbrev insOpcode : Nat := 0
@[match_pattern] abbrev insA : Nat := 1
@[match_pattern] abbrev insB : Nat := 2
@[match_pattern] abbrev insImm : Nat := 4

/-- The instruction record that starts at `offset` in the array of `vm->code`. -/
def instructionAt (vm : WaiVm) (offset : BitVec 64) : Option WaiInstruction :=
  if offset.toNat % sizeofWaiInstruction = 0 then
    (vm.code.getD [])[offset.toNat / sizeofWaiInstruction]?
  else none

/-- The register that `[vm + VM_REGS + index]` addresses. -/
def registerAt (index : BitVec 64) : Option (Fin waiRegisterCount) :=
  if index.toNat % 8 = 0 then
    if h : index.toNat / 8 < waiRegisterCount then some ⟨index.toNat / 8, h⟩ else none
  else none

/-- Accesses to the two objects. -/
def vmObjects : Memory Object WaiVm Extern where
  read vm object offset disp index :=
    match object with
    | .vm =>
      if offset ≠ 0 then none
      else match disp with
        | vmRegs => (registerAt index).map fun r => .int (vm.regs r)
        | vmMemory =>
          if index.toNat ≤ maxAddress then some (.int (readQword vm.memory index.toNat)) else none
        | vmIp => if index = 0 then some (.int vm.ip) else none
        | vmCode =>
          if index = 0 then some (if vm.code.isSome then .ptr .code 0 else .int 0) else none
        | vmCodeCount => if index = 0 then some (.int vm.codeCount) else none
        | vmSp => if index = 0 then some (.int vm.sp) else none
        | _ => none
    | .code =>
      match disp with
      | insImm =>
        if index = 0 then (instructionAt vm offset).map fun ins => .int ins.imm else none
      | _ => none
  read8 vm object offset disp index :=
    match object with
    | .vm =>
      if offset ≠ 0 ∨ index ≠ 0 then none
      else match disp with
        | vmZf => some vm.zf
        | vmHalted => some vm.halted
        | _ => none
    | .code =>
      if index ≠ 0 then none
      else match disp with
        | insOpcode => (instructionAt vm offset).map (·.opcode)
        | insA => (instructionAt vm offset).map (·.a)
        | insB => (instructionAt vm offset).map (·.b)
        | _ => none
  write vm object offset disp index value :=
    match object with
    | .vm =>
      if offset ≠ 0 then none
      else match disp with
        | vmRegs =>
          (registerAt index).map fun r =>
            { vm with regs := fun i => if i.val = r.val then value else vm.regs i }
        | vmMemory =>
          if index.toNat ≤ maxAddress then
            some { vm with memory := writeQword vm.memory index.toNat value }
          else none
        | vmIp => if index = 0 then some { vm with ip := value } else none
        | vmSp => if index = 0 then some { vm with sp := value } else none
        | _ => none
    | .code => none
  write8 vm object offset disp index value :=
    match object with
    | .vm =>
      if offset ≠ 0 ∨ index ≠ 0 then none
      else match disp with
        | vmZf => some { vm with zf := value }
        | vmHalted => some { vm with halted := value }
        | _ => none
    | .code => none
  write32 vm object offset disp index value :=
    match object with
    | .vm =>
      if offset ≠ 0 ∨ index ≠ 0 then none
      else match disp with
        | vmError => (WaiErrorCode.ofValue value.toNat).map fun e => { vm with error := e }
        | _ => none
    | .code => none
  call f regs vm :=
    match f with
    | .waiVmEmitPrint =>
      match regs .rdi, regs .rsi with
      | .ptr .vm offset, .int value => if offset = 0 then some (waiVmEmitPrint vm value) else none
      | _, _ => none

/-! ## The listing -/

/-- The labels of the listing, in order. -/
inductive Label
  | waiVmExecAsm | loop | checkRegAl | setZfFromRax | loadRegAIndex | loadRegBIndex
  | checkJumpImm | checkJumpRax | checkMemAddrRbx | checkShiftRbx | pushRax | popRax | opMovImm
  | opMovReg | opAddImm | opAddReg | opSubImm | opSubReg | opMulImm | opMulReg | opDivImm
  | opDivReg | opModImm | opModReg | opJmp | opJz | opJnz | opPrint | opHalt | opLoadAbs
  | opLoadReg | opStoreAbs | opStoreReg | opPush | opPop | opCall | opRet | opCmpImm | opCmpReg
  | opJe | opJne | opNop | opAndImm | opAndReg | opOrImm | opOrReg | opXorImm | opXorReg
  | opNot | opShlImm | opShlReg | opShrImm | opShrReg | errBadOpcode | errIp | errBadRegister
  | errDivZero | errBadJump | errMemoryOob | errStackOverflow | errStackUnderflow | errBadShift
  | okReturn | errorReturn | finish
deriving DecidableEq, Repr

/-- `[r12 + disp]` -/
abbrev vmField (disp : Nat) : MemRef := ⟨.r12, disp, none⟩

/-- `[r12 + VM_REGS + index * 8]` -/
abbrev vmReg (index : Reg) : MemRef := ⟨.r12, vmRegs, some (index, 8)⟩

/-- `[r12 + VM_MEMORY + index]` -/
abbrev vmMemoryAt (index : Reg) : MemRef := ⟨.r12, vmMemory, some (index, 1)⟩

/-- `[r13 + disp]` -/
abbrev ins (disp : Nat) : MemRef := ⟨.r13, disp, none⟩

/-- The pairs `cmp eax, opcode` and `je label` of `.loop`. -/
def dispatchTable : List (BitVec 32 × Label) :=
  [(1, .opMovImm), (2, .opMovReg), (3, .opAddImm), (4, .opAddReg), (5, .opSubImm),
   (6, .opSubReg), (7, .opMulImm), (8, .opMulReg), (9, .opDivImm), (10, .opDivReg), (11, .opJmp),
   (12, .opJz), (13, .opJnz), (14, .opPrint), (15, .opHalt), (16, .opLoadAbs), (17, .opLoadReg),
   (18, .opStoreAbs), (19, .opStoreReg), (20, .opPush), (21, .opPop), (22, .opCall),
   (23, .opRet), (24, .opCmpImm), (25, .opCmpReg), (26, .opJe), (27, .opJne), (28, .opNop),
   (29, .opModImm), (30, .opModReg), (31, .opAndImm), (32, .opAndReg), (33, .opOrImm),
   (34, .opOrReg), (35, .opXorImm), (36, .opXorReg), (37, .opNot), (38, .opShlImm),
   (39, .opShlReg), (40, .opShrImm), (41, .opShrReg)]

/-- The instructions of each label. A list that ends with `label` runs into the
next label of the listing. -/
def block : Label → List (Instr Label Extern)
  | .waiVmExecAsm =>
    [.push .rbp, .movRsp .rbp, .push .rbx, .push .r12, .push .r13, .push .r14, .push .r15,
     .mov .r12 (.reg .rdi), .label .loop]
  | .loop =>
    [.cmpMem8 (vmField vmHalted) 0, .jcc .ne .okReturn, .mov .rax (.mem (vmField vmIp)),
     .mov .rbx (.mem (vmField vmCodeCount)), .cmp .rax (.reg .rbx), .jcc .ae .errIp,
     .mov .r13 (.mem (vmField vmCode)), .lea .r14 .rax .rax 2, .shlImm .r14 2,
     .alu .add .r13 (.reg .r14), .inc .rax, .store (vmField vmIp) .rax,
     .movzx .rax (ins insOpcode)] ++
    dispatchTable.flatMap (fun entry => [.cmp32 .rax entry.1, .jcc .e entry.2]) ++
    [.jmp .errBadOpcode]
  | .checkRegAl =>
    [.cmp8 .rax 7, .jcc .a .errBadRegister, .movzx8 .rax .rax, .ret]
  | .setZfFromRax =>
    [.test .rax .rax, .sete (vmField vmZf), .ret]
  | .loadRegAIndex =>
    [.movzx .rax (ins insA), .cmp8 .rax 7, .jcc .a .errBadRegister, .ret]
  | .loadRegBIndex =>
    [.movzx .rax (ins insB), .cmp8 .rax 7, .jcc .a .errBadRegister, .ret]
  | .checkJumpImm =>
    [.mov .rax (.mem (ins insImm)), .test .rax .rax, .jcc .s .errBadJump,
     .mov .rbx (.mem (vmField vmCodeCount)), .cmp .rax (.reg .rbx), .jcc .ae .errBadJump, .ret]
  | .checkJumpRax =>
    [.mov .rbx (.mem (vmField vmCodeCount)), .cmp .rax (.reg .rbx), .jcc .ae .errBadJump, .ret]
  | .checkMemAddrRbx =>
    [.test .rbx .rbx, .jcc .s .errMemoryOob, .cmp .rbx (.imm (65536 - 8)), .jcc .a .errMemoryOob,
     .ret]
  | .checkShiftRbx =>
    [.test .rbx .rbx, .jcc .s .errBadShift, .cmp .rbx (.imm 63), .jcc .a .errBadShift, .ret]
  | .pushRax =>
    [.mov .rbx (.mem (vmField vmSp)), .cmp .rbx (.imm 8), .jcc .b .errStackOverflow,
     .alu .sub .rbx (.imm 8), .store (vmField vmSp) .rbx, .store (vmMemoryAt .rbx) .rax, .ret]
  | .popRax =>
    [.mov .rbx (.mem (vmField vmSp)), .cmp .rbx (.imm (65536 - 8)), .jcc .a .errStackUnderflow,
     .mov .rax (.mem (vmMemoryAt .rbx)), .alu .add .rbx (.imm 8), .store (vmField vmSp) .rbx,
     .ret]
  | .opMovImm =>
    [.call .loadRegAIndex, .mov .rdx (.mem (ins insImm)), .store (vmReg .rax) .rdx,
     .mov .rax (.reg .rdx), .call .setZfFromRax, .jmp .loop]
  | .opMovReg =>
    [.call .loadRegAIndex, .mov .r14 (.reg .rax), .call .loadRegBIndex,
     .mov .rdx (.mem (vmReg .rax)), .store (vmReg .r14) .rdx, .mov .rax (.reg .rdx),
     .call .setZfFromRax, .jmp .loop]
  | .opAddImm =>
    [.call .loadRegAIndex, .mov .r14 (.reg .rax), .mov .rdx (.mem (vmReg .r14)),
     .alu .add .rdx (.mem (ins insImm)), .store (vmReg .r14) .rdx, .mov .rax (.reg .rdx),
     .call .setZfFromRax, .jmp .loop]
  | .opAddReg =>
    [.call .loadRegAIndex, .mov .r14 (.reg .rax), .call .loadRegBIndex,
     .mov .rdx (.mem (vmReg .r14)), .alu .add .rdx (.mem (vmReg .rax)), .store (vmReg .r14) .rdx,
     .mov .rax (.reg .rdx), .call .setZfFromRax, .jmp .loop]
  | .opSubImm =>
    [.call .loadRegAIndex, .mov .r14 (.reg .rax), .mov .rdx (.mem (vmReg .r14)),
     .alu .sub .rdx (.mem (ins insImm)), .store (vmReg .r14) .rdx, .mov .rax (.reg .rdx),
     .call .setZfFromRax, .jmp .loop]
  | .opSubReg =>
    [.call .loadRegAIndex, .mov .r14 (.reg .rax), .call .loadRegBIndex,
     .mov .rdx (.mem (vmReg .r14)), .alu .sub .rdx (.mem (vmReg .rax)), .store (vmReg .r14) .rdx,
     .mov .rax (.reg .rdx), .call .setZfFromRax, .jmp .loop]
  | .opMulImm =>
    [.call .loadRegAIndex, .mov .r14 (.reg .rax), .mov .rax (.mem (vmReg .r14)),
     .alu .imul .rax (.mem (ins insImm)), .store (vmReg .r14) .rax, .call .setZfFromRax,
     .jmp .loop]
  | .opMulReg =>
    [.call .loadRegAIndex, .mov .r14 (.reg .rax), .call .loadRegBIndex,
     .mov .rdx (.mem (vmReg .rax)), .mov .rax (.mem (vmReg .r14)), .alu .imul .rax (.reg .rdx),
     .store (vmReg .r14) .rax, .call .setZfFromRax, .jmp .loop]
  | .opDivImm =>
    [.call .loadRegAIndex, .mov .r14 (.reg .rax), .mov .rbx (.mem (ins insImm)), .test .rbx .rbx,
     .jcc .e .errDivZero, .mov .rax (.mem (vmReg .r14)), .cqo, .idiv .rbx,
     .store (vmReg .r14) .rax, .call .setZfFromRax, .jmp .loop]
  | .opDivReg =>
    [.call .loadRegAIndex, .mov .r14 (.reg .rax), .call .loadRegBIndex,
     .mov .rbx (.mem (vmReg .rax)), .test .rbx .rbx, .jcc .e .errDivZero,
     .mov .rax (.mem (vmReg .r14)), .cqo, .idiv .rbx, .store (vmReg .r14) .rax,
     .call .setZfFromRax, .jmp .loop]
  | .opModImm =>
    [.call .loadRegAIndex, .mov .r14 (.reg .rax), .mov .rbx (.mem (ins insImm)), .test .rbx .rbx,
     .jcc .e .errDivZero, .mov .rax (.mem (vmReg .r14)), .cqo, .idiv .rbx,
     .store (vmReg .r14) .rdx, .mov .rax (.reg .rdx), .call .setZfFromRax, .jmp .loop]
  | .opModReg =>
    [.call .loadRegAIndex, .mov .r14 (.reg .rax), .call .loadRegBIndex,
     .mov .rbx (.mem (vmReg .rax)), .test .rbx .rbx, .jcc .e .errDivZero,
     .mov .rax (.mem (vmReg .r14)), .cqo, .idiv .rbx, .store (vmReg .r14) .rdx,
     .mov .rax (.reg .rdx), .call .setZfFromRax, .jmp .loop]
  | .opJmp =>
    [.call .checkJumpImm, .store (vmField vmIp) .rax, .jmp .loop]
  | .opJz =>
    [.call .loadRegAIndex, .cmpMem (vmReg .rax) 0, .jcc .ne .loop, .call .checkJumpImm,
     .store (vmField vmIp) .rax, .jmp .loop]
  | .opJnz =>
    [.call .loadRegAIndex, .cmpMem (vmReg .rax) 0, .jcc .e .loop, .call .checkJumpImm,
     .store (vmField vmIp) .rax, .jmp .loop]
  | .opPrint =>
    [.call .loadRegAIndex, .mov .rsi (.mem (vmReg .rax)), .mov .rdi (.reg .r12), .subRsp 8,
     .callExtern .waiVmEmitPrint, .addRsp 8, .jmp .loop]
  | .opHalt =>
    [.store8 (vmField vmHalted) 1, .store32 (vmField vmError) 0, .jmp .okReturn]
  | .opLoadAbs =>
    [.call .loadRegAIndex, .mov .r14 (.reg .rax), .mov .rbx (.mem (ins insImm)),
     .call .checkMemAddrRbx, .mov .rax (.mem (vmMemoryAt .rbx)), .store (vmReg .r14) .rax,
     .call .setZfFromRax, .jmp .loop]
  | .opLoadReg =>
    [.call .loadRegAIndex, .mov .r14 (.reg .rax), .call .loadRegBIndex,
     .mov .rbx (.mem (vmReg .rax)), .call .checkMemAddrRbx, .mov .rax (.mem (vmMemoryAt .rbx)),
     .store (vmReg .r14) .rax, .call .setZfFromRax, .jmp .loop]
  | .opStoreAbs =>
    [.call .loadRegAIndex, .mov .r14 (.reg .rax), .mov .rbx (.mem (ins insImm)),
     .call .checkMemAddrRbx, .mov .rax (.mem (vmReg .r14)), .store (vmMemoryAt .rbx) .rax,
     .jmp .loop]
  | .opStoreReg =>
    [.call .loadRegAIndex, .mov .r14 (.reg .rax), .call .loadRegBIndex,
     .mov .rbx (.mem (vmReg .rax)), .call .checkMemAddrRbx, .mov .rax (.mem (vmReg .r14)),
     .store (vmMemoryAt .rbx) .rax, .jmp .loop]
  | .opPush =>
    [.call .loadRegAIndex, .mov .rax (.mem (vmReg .rax)), .call .pushRax, .jmp .loop]
  | .opPop =>
    [.call .loadRegAIndex, .mov .r14 (.reg .rax), .call .popRax, .store (vmReg .r14) .rax,
     .call .setZfFromRax, .jmp .loop]
  | .opCall =>
    [.call .checkJumpImm, .mov .r15 (.reg .rax), .mov .rax (.mem (vmField vmIp)), .call .pushRax,
     .store (vmField vmIp) .r15, .jmp .loop]
  | .opRet =>
    [.call .popRax, .call .checkJumpRax, .store (vmField vmIp) .rax, .jmp .loop]
  | .opCmpImm =>
    [.call .loadRegAIndex, .mov .rdx (.mem (vmReg .rax)), .cmp .rdx (.mem (ins insImm)),
     .sete (vmField vmZf), .jmp .loop]
  | .opCmpReg =>
    [.call .loadRegAIndex, .mov .r14 (.reg .rax), .call .loadRegBIndex,
     .mov .rdx (.mem (vmReg .r14)), .cmp .rdx (.mem (vmReg .rax)), .sete (vmField vmZf),
     .jmp .loop]
  | .opJe =>
    [.cmpMem8 (vmField vmZf) 0, .jcc .e .loop, .call .checkJumpImm, .store (vmField vmIp) .rax,
     .jmp .loop]
  | .opJne =>
    [.cmpMem8 (vmField vmZf) 0, .jcc .ne .loop, .call .checkJumpImm, .store (vmField vmIp) .rax,
     .jmp .loop]
  | .opNop =>
    [.jmp .loop]
  | .opAndImm =>
    [.call .loadRegAIndex, .mov .r14 (.reg .rax), .mov .rax (.mem (vmReg .r14)),
     .alu .and .rax (.mem (ins insImm)), .store (vmReg .r14) .rax, .call .setZfFromRax,
     .jmp .loop]
  | .opAndReg =>
    [.call .loadRegAIndex, .mov .r14 (.reg .rax), .call .loadRegBIndex, .mov .r15 (.reg .rax),
     .mov .rax (.mem (vmReg .r14)), .alu .and .rax (.mem (vmReg .r15)), .store (vmReg .r14) .rax,
     .call .setZfFromRax, .jmp .loop]
  | .opOrImm =>
    [.call .loadRegAIndex, .mov .r14 (.reg .rax), .mov .rax (.mem (vmReg .r14)),
     .alu .or .rax (.mem (ins insImm)), .store (vmReg .r14) .rax, .call .setZfFromRax,
     .jmp .loop]
  | .opOrReg =>
    [.call .loadRegAIndex, .mov .r14 (.reg .rax), .call .loadRegBIndex, .mov .r15 (.reg .rax),
     .mov .rax (.mem (vmReg .r14)), .alu .or .rax (.mem (vmReg .r15)), .store (vmReg .r14) .rax,
     .call .setZfFromRax, .jmp .loop]
  | .opXorImm =>
    [.call .loadRegAIndex, .mov .r14 (.reg .rax), .mov .rax (.mem (vmReg .r14)),
     .alu .xor .rax (.mem (ins insImm)), .store (vmReg .r14) .rax, .call .setZfFromRax,
     .jmp .loop]
  | .opXorReg =>
    [.call .loadRegAIndex, .mov .r14 (.reg .rax), .call .loadRegBIndex, .mov .r15 (.reg .rax),
     .mov .rax (.mem (vmReg .r14)), .alu .xor .rax (.mem (vmReg .r15)), .store (vmReg .r14) .rax,
     .call .setZfFromRax, .jmp .loop]
  | .opNot =>
    [.call .loadRegAIndex, .mov .r14 (.reg .rax), .mov .rax (.mem (vmReg .r14)), .not .rax,
     .store (vmReg .r14) .rax, .call .setZfFromRax, .jmp .loop]
  | .opShlImm =>
    [.call .loadRegAIndex, .mov .r14 (.reg .rax), .mov .rbx (.mem (ins insImm)),
     .call .checkShiftRbx, .mov8 .rcx .rbx, .mov .rax (.mem (vmReg .r14)), .shlCl .rax,
     .store (vmReg .r14) .rax, .call .setZfFromRax, .jmp .loop]
  | .opShlReg =>
    [.call .loadRegAIndex, .mov .r14 (.reg .rax), .call .loadRegBIndex,
     .mov .rbx (.mem (vmReg .rax)), .call .checkShiftRbx, .mov8 .rcx .rbx,
     .mov .rax (.mem (vmReg .r14)), .shlCl .rax, .store (vmReg .r14) .rax, .call .setZfFromRax,
     .jmp .loop]
  | .opShrImm =>
    [.call .loadRegAIndex, .mov .r14 (.reg .rax), .mov .rbx (.mem (ins insImm)),
     .call .checkShiftRbx, .mov8 .rcx .rbx, .mov .rax (.mem (vmReg .r14)), .shrCl .rax,
     .store (vmReg .r14) .rax, .call .setZfFromRax, .jmp .loop]
  | .opShrReg =>
    [.call .loadRegAIndex, .mov .r14 (.reg .rax), .call .loadRegBIndex,
     .mov .rbx (.mem (vmReg .rax)), .call .checkShiftRbx, .mov8 .rcx .rbx,
     .mov .rax (.mem (vmReg .r14)), .shrCl .rax, .store (vmReg .r14) .rax, .call .setZfFromRax,
     .jmp .loop]
  | .errBadOpcode =>
    [.store32 (vmField vmError) 4, .jmp .errorReturn]
  | .errIp =>
    [.store32 (vmField vmError) 5, .jmp .errorReturn]
  | .errBadRegister =>
    [.addRsp 8, .store32 (vmField vmError) 6, .jmp .errorReturn]
  | .errDivZero =>
    [.store32 (vmField vmError) 7, .jmp .errorReturn]
  | .errBadJump =>
    [.addRsp 8, .store32 (vmField vmError) 8, .jmp .errorReturn]
  | .errMemoryOob =>
    [.addRsp 8, .store32 (vmField vmError) 10, .jmp .errorReturn]
  | .errStackOverflow =>
    [.addRsp 8, .store32 (vmField vmError) 11, .jmp .errorReturn]
  | .errStackUnderflow =>
    [.addRsp 8, .store32 (vmField vmError) 12, .jmp .errorReturn]
  | .errBadShift =>
    [.addRsp 8, .store32 (vmField vmError) 13, .jmp .errorReturn]
  | .okReturn =>
    [.clear32 .rax, .jmp .finish]
  | .errorReturn =>
    [.mov32 .rax 1, .label .finish]
  | .finish =>
    [.pop .r15, .pop .r14, .pop .r13, .pop .r12, .pop .rbx, .pop .rbp, .ret]

/-! ## The engine as a machine -/

abbrev AsmState := X86.State Object Label Extern WaiVm

abbrev AsmEnd := X86.End Object Label Extern WaiVm

/-- One instruction of the engine. -/
def asmStep : AsmState → Machine.Outcome AsmState AsmEnd :=
  X86.step vmObjects block

/-- The state in which `wai_vm_exec_asm(vm)` is entered: `rdi` points to the
machine, the other registers are the caller's. -/
def asmEntry (regs : Reg → Val Object) (vm : WaiVm) : AsmState where
  code := [.label .waiVmExecAsm]
  regs := X86.set regs .rdi (.ptr .vm 0)
  flags := none
  stack := [.caller]
  mem := vm

/-- The `int` that `wai_vm_exec_asm` returns in `eax`. -/
def returnCode (c : AsmState) : Option (BitVec 32) :=
  match c.regs .rax with
  | .int v => some (v.setWidth 32)
  | _ => none

/-- `wai_vm_execute`, when `wai_vm_exec_asm` returned in the state `c`. -/
def waiVmExecute (c : AsmState) : Option WaiErrorCode :=
  (returnCode c).map fun rc => if rc ≠ 0 then c.mem.error else .ok

/-- A loop head of the engine: control is at `.loop`. -/
def LoopHead (c : AsmState) : Prop :=
  X86.AtLabel Label.loop c

end Waivm
