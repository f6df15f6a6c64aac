import Waivm.Lib.CString
import Waivm.Program

/-!
# The assembler (`assembler.c`)

`wai_assemble_source` reads the text once. Each line is cut at its comment, trimmed,
and is a label definition or an instruction. A jump is recorded with the name of its
label, and `resolve_pending` writes the targets when all lines are read.

Label names pass through buffers of 64 bytes: `LabelDef` and `PendingRef` carry that
their names fit, so a name that is stored is cut to its first 63 characters.
-/

namespace Waivm

open CString
open LittleEndian (Byte)

/-- `sizeof(((label_def *)0)->name)`, and of the name of a `pending_ref`. -/
def labelNameSize : Nat := 64

theorem length_snprintf_lt (text : Text) : (snprintf labelNameSize text).length < labelNameSize :=
  Nat.lt_of_le_of_lt (List.length_take_le _ _) (by decide)

/-- `label_def` -/
structure LabelDef where
  name : Text
  target : Nat
  name_fits : name.length < labelNameSize

/-- `pending_ref` -/
structure PendingRef where
  instructionIndex : Nat
  name : Text
  line : Nat
  name_fits : name.length < labelNameSize

/-- `label_table`; the counts are the lengths of the lists. No size that is computed for
a table wraps: `realloc` refuses an array of half the address space. -/
structure LabelTable where
  labels : List LabelDef
  labelCapacity : Nat
  pending : List PendingRef
  pendingCapacity : Nat
  labels_le : labels.length ≤ labelCapacity
  pending_le : pending.length ≤ pendingCapacity

/-- The table after `memset(&labels, 0, sizeof(labels))`. -/
def LabelTable.zero : LabelTable where
  labels := []
  labelCapacity := 0
  pending := []
  pendingCapacity := 0
  labels_le := le_rfl
  pending_le := le_rfl

/-- Which allocations succeed: the buffer of the file, the copy of the text, and the
arrays of a given capacity of labels, of references and of instructions. -/
structure AssemblerAlloc where
  buffer : Bool
  copy : Bool
  labels : Nat → Bool
  pending : Nat → Bool
  code : Nat → Bool

/-- `wai_assembler_result` -/
structure WaiAssemblerResult where
  error : WaiErrorCode
  line : Nat
  message : Text

/-- `result_set` -/
def resultSet (error : WaiErrorCode) (line : Nat) (message : Text) : WaiAssemblerResult where
  error := error
  line := line
  message := snprintf 256 message

/-! ## Characters and operands -/

/-- `trim` -/
def trim (text : Text) : Text :=
  (text.dropWhile isspace).rdropWhile isspace

/-- `is_identifier` -/
def isIdentifier : Text → Bool
  | [] => false
  | c :: rest => (isalpha c || c == '_') && rest.all fun d => isalnum d || d == '_'

/-- `parse_register` -/
def parseRegister : Text → Option Byte
  | ['r', c] =>
    if c.toNat < '0'.toNat ∨ '7'.toNat < c.toNat then none
    else some (BitVec.ofNat 8 (c.toNat - '0'.toNat))
  | _ => none

/-- `parse_i64`. `strtoll` reports `ERANGE` for a value that `long long` cannot hold. -/
def parseI64 (token : Text) : Option WaiValue :=
  match strtoll token with
  | none => none
  | some (value, rest) =>
    if value < -2 ^ 63 ∨ 2 ^ 63 ≤ value ∨ rest ≠ [] then none else some (BitVec.ofInt 64 value)

/-- `mem_operand` -/
inductive MemOperand
  | abs (address : WaiValue)
  | reg (reg : Byte)
deriving DecidableEq

/-- `parse_memory_operand` -/
def parseMemoryOperand (token : Text) : Option MemOperand :=
  if token.length < 3 ∨ token.head? ≠ some '[' ∨ token.getLast? ≠ some ']' then none
  else if token.length - 2 ≥ 64 then none
  else
    let trimmed := trim ((token.drop 1).take (token.length - 2))
    match parseRegister trimmed with
    | some reg => some (.reg reg)
    | none => (parseI64 trimmed).map .abs

/-- A character that separates two tokens. -/
def isSeparator (c : Char) : Bool :=
  isspace c || c == ','

/-- The loop of `tokenize`: the tokens so far, the characters of the one that it is in,
and the rest of the line. `none` for the result `-1`. -/
def tokenizeFrom (maxTokens : Nat) : List Text → Option Text → Text → Option (List Text)
  | tokens, none, [] => some tokens
  | tokens, some token, [] => some (tokens ++ [token])
  | tokens, none, c :: rest =>
    if isSeparator c then tokenizeFrom maxTokens tokens none rest
    else if tokens.length ≥ maxTokens then none
    else tokenizeFrom maxTokens tokens (some [c]) rest
  | tokens, some token, c :: rest =>
    if isSeparator c then tokenizeFrom maxTokens (tokens ++ [token]) none rest
    else tokenizeFrom maxTokens tokens (some (token ++ [c])) rest

/-- `tokenize` -/
def tokenize (line : Text) (maxTokens : Nat) : Option (List Text) :=
  tokenizeFrom maxTokens [] none line

/-! ## The label table -/

/-- `label_find`: the target of the first label with the name. -/
def labelFind (labels : List LabelDef) (name : Text) : Option Nat :=
  (labels.find? (·.name = name)).map (·.target)

/-- The capacity of an array with `count` used entries in which there is room for one
more: it grows when it is full. `none` when `realloc` fails. -/
def roomFor (alloc : Nat → Bool) (count capacity : Nat) : Option Nat :=
  if count = capacity then
    if alloc (grownCapacity capacity) then some (grownCapacity capacity) else none
  else some capacity

theorem lt_of_roomFor {alloc : Nat → Bool} {count capacity room : Nat}
    (hle : count ≤ capacity) (h : roomFor alloc count capacity = some room) : count < room := by
  unfold roomFor at h
  split at h
  · next hfull =>
    split at h
    · cases h; exact hfull ▸ lt_grownCapacity _
    · cases h
  · next hfull =>
    cases h
    exact Nat.lt_of_le_of_ne hle hfull

/-- `label_add` -/
def labelAdd (alloc : Nat → Bool) (table : LabelTable) (name : Text) (target : Nat) :
    Except WaiErrorCode LabelTable :=
  match labelFind table.labels name with
  | some _ => .error .errParse
  | none =>
    match h : roomFor alloc table.labels.length table.labelCapacity with
    | none => .error .errOom
    | some capacity => .ok { table with
        labels := table.labels ++ [⟨snprintf labelNameSize name, target, length_snprintf_lt name⟩]
        labelCapacity := capacity
        labels_le := by
          rw [List.length_append]
          exact lt_of_roomFor table.labels_le h }

/-- `pending_add` -/
def pendingAdd (alloc : Nat → Bool) (table : LabelTable) (instructionIndex : Nat) (name : Text)
    (line : Nat) : Except WaiErrorCode LabelTable :=
  match h : roomFor alloc table.pending.length table.pendingCapacity with
  | none => .error .errOom
  | some capacity => .ok { table with
      pending := table.pending ++
        [⟨instructionIndex, snprintf labelNameSize name, line, length_snprintf_lt name⟩]
      pendingCapacity := capacity
      pending_le := by
        rw [List.length_append]
        exact lt_of_roomFor table.pending_le h }

/-! ## Instructions -/

/-- `make_instr` -/
def makeInstr (opcode : WaiOpcode) : WaiInstruction where
  opcode := opcode.value
  a := 0
  b := 0
  c := 0
  imm := 0

/-- The mnemonics of `parse_two_operand_alu`, with the opcode for a register and the
one for an immediate operand. -/
def aluOpcodes : List (Text × WaiOpcode × WaiOpcode) :=
  [(['m', 'o', 'v'], .movReg, .movImm), (['a', 'd', 'd'], .addReg, .addImm),
    (['s', 'u', 'b'], .subReg, .subImm), (['m', 'u', 'l'], .mulReg, .mulImm),
    (['d', 'i', 'v'], .divReg, .divImm), (['m', 'o', 'd'], .modReg, .modImm),
    (['a', 'n', 'd'], .andReg, .andImm), (['o', 'r'], .orReg, .orImm),
    (['x', 'o', 'r'], .xorReg, .xorImm), (['s', 'h', 'l'], .shlReg, .shlImm),
    (['s', 'h', 'r'], .shrReg, .shrImm), (['c', 'm', 'p'], .cmpReg, .cmpImm)]

/-- `parse_two_operand_alu`. A right operand that is a register is never read as a number. -/
def parseTwoOperandAlu (opcodes : WaiOpcode × WaiOpcode) : List Text → Option WaiInstruction
  | [_, dstToken, rhsToken] =>
    match parseRegister dstToken with
    | none => none
    | some dst =>
      match parseRegister rhsToken, parseI64 rhsToken with
      | some src, _ => some { makeInstr opcodes.1 with a := dst, b := src }
      | none, some imm => some { makeInstr opcodes.2 with a := dst, imm := imm }
      | none, none => none
  | _ => none

/-- `parse_load` -/
def parseLoad : List Text → Option WaiInstruction
  | [_, dstToken, memToken] =>
    match parseRegister dstToken, parseMemoryOperand memToken with
    | some dst, some (.reg reg) => some { makeInstr .loadReg with a := dst, b := reg }
    | some dst, some (.abs address) => some { makeInstr .loadAbs with a := dst, imm := address }
    | _, _ => none
  | _ => none

/-- `parse_store` -/
def parseStore : List Text → Option WaiInstruction
  | [_, memToken, srcToken] =>
    match parseMemoryOperand memToken, parseRegister srcToken with
    | some (.reg reg), some src => some { makeInstr .storeReg with a := src, b := reg }
    | some (.abs address), some src => some { makeInstr .storeAbs with a := src, imm := address }
    | _, _ => none
  | _ => none

/-- `parse_one_register` -/
def parseOneRegister (opcode : WaiOpcode) : List Text → Option WaiInstruction
  | [_, regToken] => (parseRegister regToken).map fun reg => { makeInstr opcode with a := reg }
  | _ => none

/-- The branches for `ret`, `nop` and `halt`. -/
def parseNoOperand (opcode : WaiOpcode) : List Text → Option WaiInstruction
  | [_] => some (makeInstr opcode)
  | _ => none

/-- What `parse_label_jump` reads before it records the label: the instruction and the
name of its label. -/
def parseLabelJump (opcode : WaiOpcode) : List Text → Option (WaiInstruction × Text)
  | [_, label] => if isIdentifier label then some (makeInstr opcode, label) else none
  | _ => none

/-- What the branch for `jz` and `jnz` reads before it records the label. -/
def parseRegisterJump (opcode : WaiOpcode) : List Text → Option (WaiInstruction × Text)
  | [_, regToken, label] =>
    if isIdentifier label then
      (parseRegister regToken).map fun reg => ({ makeInstr opcode with a := reg }, label)
    else none
  | _ => none

/-- Which branch of `wai_assemble_source` a mnemonic takes. -/
inductive MnemonicForm
  | alu (opcodes : WaiOpcode × WaiOpcode)
  | load
  | store
  | oneRegister (opcode : WaiOpcode)
  | labelJump (opcode : WaiOpcode)
  | registerJump (opcode : WaiOpcode)
  | noOperand (opcode : WaiOpcode)

/-- The mnemonics in the order in which `wai_assemble_source` compares them. -/
def mnemonics : List (Text × MnemonicForm) :=
  aluOpcodes.map (fun entry => (entry.1, .alu entry.2)) ++
  [(['l', 'o', 'a', 'd'], .load), (['s', 't', 'o', 'r', 'e'], .store),
    (['p', 'u', 's', 'h'], .oneRegister .push), (['p', 'o', 'p'], .oneRegister .pop),
    (['j', 'm', 'p'], .labelJump .jmp), (['c', 'a', 'l', 'l'], .labelJump .call),
    (['j', 'e'], .labelJump .je), (['j', 'n', 'e'], .labelJump .jne),
    (['j', 'z'], .registerJump .jz), (['j', 'n', 'z'], .registerJump .jnz),
    (['p', 'r', 'i', 'n', 't'], .oneRegister .print), (['r', 'e', 't'], .noOperand .ret),
    (['n', 'o', 'p'], .noOperand .nop), (['n', 'o', 't'], .oneRegister .not),
    (['h', 'a', 'l', 't'], .noOperand .halt)]

/-- The instruction of a line and the label that it refers to, for a mnemonic of the
given form; `none` for `WAI_ERR_PARSE`. -/
def MnemonicForm.parse : MnemonicForm → List Text → Option (WaiInstruction × Option Text)
  | .alu opcodes, tokens => (parseTwoOperandAlu opcodes tokens).map (·, none)
  | .load, tokens => (parseLoad tokens).map (·, none)
  | .store, tokens => (parseStore tokens).map (·, none)
  | .oneRegister opcode, tokens => (parseOneRegister opcode tokens).map (·, none)
  | .labelJump opcode, tokens => (parseLabelJump opcode tokens).map fun r => (r.1, some r.2)
  | .registerJump opcode, tokens => (parseRegisterJump opcode tokens).map fun r => (r.1, some r.2)
  | .noOperand opcode, tokens => (parseNoOperand opcode tokens).map (·, none)

/-- The instruction in the tokens of a line. -/
def parseTokens : List Text → Option (WaiInstruction × Option Text)
  | [] => none
  | mnemonic :: operands =>
    match mnemonics.lookup mnemonic with
    | none => none
    | some form => form.parse (mnemonic :: operands)

/-- The `if` chain over the mnemonics: a jump enters its label in the table before the
instruction is pushed, with the index that the instruction will get. -/
def parseInstruction (alloc : AssemblerAlloc) (table : LabelTable) (count lineNumber : Nat)
    (tokens : List Text) : Except WaiErrorCode (WaiInstruction × LabelTable) :=
  match parseTokens tokens with
  | none => .error .errParse
  | some (instr, none) => .ok (instr, table)
  | some (instr, some label) =>
    match pendingAdd alloc.pending table count label lineNumber with
    | .error status => .error status
    | .ok table => .ok (instr, table)

/-! ## Lines -/

/-- What the loop of `wai_assemble_source` changes: the label table and the program. -/
structure AssemblyState where
  table : LabelTable
  program : OwnedProgram

/-- A line that defines a label: `line` without its `':'`. -/
def assembleLabel (alloc : AssemblerAlloc) (state : AssemblyState) (lineNumber : Nat) (line : Text) :
    Except WaiAssemblerResult AssemblyState :=
  let label := trim line
  if !isIdentifier label then .error (resultSet .errParse lineNumber "invalid label syntax".toList)
  else
    match labelAdd alloc.labels state.table label state.program.count with
    | .error .errOom => .error (resultSet .errOom lineNumber "out of memory".toList)
    | .error _ => .error (resultSet .errParse lineNumber "duplicate label".toList)
    | .ok table => .ok { state with table := table }

/-- A line that holds an instruction. -/
def assembleInstruction (alloc : AssemblerAlloc) (state : AssemblyState) (lineNumber : Nat)
    (tokens : List Text) : Except WaiAssemblerResult AssemblyState :=
  match parseInstruction alloc state.table state.program.count lineNumber tokens with
  | .error .errOom => .error (resultSet .errOom lineNumber "out of memory".toList)
  | .error _ => .error (resultSet .errParse lineNumber
      (snprintf 256 ("invalid instruction near '".toList ++ tokens.headD [] ++ "'".toList)))
  | .ok (instr, table) =>
    match waiProgramPush alloc.code state.program instr with
    | (.ok, program) => .ok { table := table, program := program }
    | (status, _) => .error (resultSet status lineNumber (waiErrorString status).toList)

/-- The body of the loop of `wai_assemble_source`, for one line of the text. -/
def assembleLine (alloc : AssemblerAlloc) (state : AssemblyState) (lineNumber : Nat)
    (rawLine : Text) : Except WaiAssemblerResult AssemblyState :=
  let line := trim (rawLine.takeWhile (· != ';'))
  if line = [] then .ok state
  else if line.getLast? = some ':' then assembleLabel alloc state lineNumber line.dropLast
  else
    match tokenize line 4 with
    | none => .error (resultSet .errParse lineNumber "too many tokens".toList)
    | some [] => .ok state
    | some tokens => assembleInstruction alloc state lineNumber tokens

/-- The loop of `wai_assemble_source`. `lineNumber` counts the lines that `strtok_r` has
handed out. -/
def assembleLines (alloc : AssemblerAlloc) : Nat → AssemblyState → List Text →
    Except WaiAssemblerResult AssemblyState
  | _, state, [] => .ok state
  | lineNumber, state, rawLine :: rest =>
    match assembleLine alloc state (lineNumber + 1) rawLine with
    | .error result => .error result
    | .ok state => assembleLines alloc (lineNumber + 1) state rest

/-! ## Jump targets -/

/-- `program->code[index].imm = value` -/
def OwnedProgram.setImm (program : OwnedProgram) (index : Nat) (value : WaiValue) : OwnedProgram :=
  { program with
    code := program.code.map fun code => code.modify index fun instr => { instr with imm := value }
    count_eq := by
      intro l hl
      obtain ⟨code, hcode, rfl⟩ := Option.map_eq_some_iff.mp hl
      rw [List.length_modify]
      exact program.count_eq code hcode
    null_empty := fun h => program.null_empty (Option.map_eq_none_iff.mp h) }

/-- `resolve_pending` -/
def resolvePending (labels : List LabelDef) : OwnedProgram → List PendingRef →
    Except WaiAssemblerResult OwnedProgram
  | program, [] => .ok program
  | program, ref :: rest =>
    match labelFind labels ref.name with
    | none => .error (resultSet .errParse ref.line
        (snprintf 256 ("unknown label '".toList ++ ref.name ++ "'".toList)))
    | some target =>
      if target > 2 ^ 63 - 1 then
        .error (resultSet .errParse ref.line "jump target is too large".toList)
      else resolvePending labels (program.setImm ref.instructionIndex (BitVec.ofNat 64 target)) rest

/-- `wai_assemble_source`: the result, and what `*out_program` is afterwards. -/
def waiAssembleSource (alloc : AssemblerAlloc) (source : Text) : WaiAssemblerResult × OwnedProgram :=
  if !alloc.copy then (resultSet .errOom 0 "out of memory".toList, waiProgramInit)
  else
    match assembleLines alloc 0 ⟨.zero, waiProgramInit⟩ (pieces (· == '\n') source) with
    | .error result => (result, waiProgramInit)
    | .ok state =>
      match resolvePending state.table.labels state.program state.table.pending with
      | .error result => (result, waiProgramInit)
      | .ok program => (resultSet .ok 0 "ok".toList, program)

/-- The C string that a buffer with a terminating NUL holds. -/
def textOf (content : List Byte) : Text :=
  (content.takeWhile (· ≠ 0)).map fun byte => Char.ofNat byte.toNat

/-- `wai_assemble_file`, for the content of the file (`none` when it cannot be read). -/
def waiAssembleFile (alloc : AssemblerAlloc) (file : Option (List Byte)) (out : OwnedProgram) :
    WaiAssemblerResult × OwnedProgram :=
  match file with
  | none => (resultSet .errIo 0 "could not read source file".toList, out)
  | some content =>
    if !alloc.buffer then (resultSet .errIo 0 "could not read source file".toList, out)
    else waiAssembleSource alloc (textOf content)

end Waivm
