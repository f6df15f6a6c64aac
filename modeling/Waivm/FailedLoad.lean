import Waivm.Assembler
import Waivm.BytecodeFile

/-!
# Loads that fail (`assembler.c`, `bytecode.c`)

Both loaders build the program in `*out_program` itself: the assembler pushes one
instruction after the other, the reader of bytecode decodes into an array of its final
size. Here the array is one of cells that are written one at a time, what `*out_program`
holds at each point of failure is a value, and every exit path cleans up after itself.

Results:
1. `push_refines`: pushing into the cells is pushing to the program they hold.
2. `assembleSourceInto_refines`, `readFileInto_refines`: the loaders do what
   `waiAssembleSource` and `waiBytecodeReadFile` say.
3. `failed_load_exposes_nothing`: what a load that fails leaves behind.
-/

namespace Waivm

open CString
open LittleEndian (Byte)

/-! ## 1. The program in memory -/

/-- `wai_program` while a loader fills it. `code` is the cells of the array, and nothing
ties them to the count. -/
structure ProgramRecord where
  code : Option (List WaiInstruction)
  count : Nat
  capacity : Nat

/-- The empty program: `NULL`, 0, 0. -/
def ProgramRecord.empty : ProgramRecord where
  code := none
  count := 0
  capacity := 0

/-- `wai_program_init` -/
def ProgramRecord.init (program : ProgramRecord) : ProgramRecord :=
  { program with code := none, count := 0, capacity := 0 }

/-- `wai_program_free`: the array is given back and no longer pointed to. -/
def ProgramRecord.free (program : ProgramRecord) : ProgramRecord :=
  { program with code := none, count := 0, capacity := 0 }

@[simp] theorem ProgramRecord.init_eq_empty (program : ProgramRecord) : program.init = .empty := rfl

@[simp] theorem ProgramRecord.free_eq_empty (program : ProgramRecord) : program.free = .empty := rfl

/-- The cells of the array. -/
def ProgramRecord.cells (program : ProgramRecord) : List WaiInstruction :=
  program.code.getD []

/-- `program->code[index] = instruction` -/
def ProgramRecord.store (program : ProgramRecord) (index : Nat) (instruction : WaiInstruction) :
    ProgramRecord :=
  { program with code := program.code.map (·.set index instruction) }

/-- `realloc` to `n` cells, where `alloc` gives them. The new cells hold `garbage`. -/
def reallocCode (alloc : Nat → Bool) (garbage : Nat → WaiInstruction)
    (code : Option (List WaiInstruction)) (n : Nat) : Option (List WaiInstruction) :=
  if alloc n then
    some ((code.getD []).take n ++
      (List.range' (code.getD []).length (n - (code.getD []).length)).map garbage)
  else none

/-- `wai_program_push` -/
def ProgramRecord.push (alloc : Nat → Bool) (garbage : Nat → WaiInstruction)
    (program : ProgramRecord) (instruction : WaiInstruction) : WaiErrorCode × ProgramRecord :=
  if program.count = program.capacity then
    if program.capacity > sizeMax / 2 then (.errOom, program)
    else if grownCapacity program.capacity > maxInstructions then (.errOom, program)
    else
      match reallocCode alloc garbage program.code (grownCapacity program.capacity) with
      | none => (.errOom, program)
      | some newCode =>
        let program := { program with code := some newCode, capacity := grownCapacity program.capacity }
        (.ok, { program.store program.count instruction with count := program.count + 1 })
  else (.ok, { program.store program.count instruction with count := program.count + 1 })

/-- The record holds the program: the array has `capacity` cells, and its first `count`
cells are the instructions. -/
structure Holds (record : ProgramRecord) (program : OwnedProgram) : Prop where
  count_eq : record.count = program.count
  capacity_eq : record.capacity = program.capacity
  null_iff : record.code = none ↔ program.code = none
  length_cells : record.cells.length = record.capacity
  take_cells : record.cells.take record.count = program.instructions

theorem holds_empty : Holds .empty waiProgramInit :=
  ⟨rfl, rfl, Iff.rfl, rfl, rfl⟩

/-- The cells up to and with the one that is written. -/
theorem take_set_succ {α : Type} {l : List α} {n : Nat} {a : α} (h : n < l.length) :
    (l.set n a).take (n + 1) = l.take n ++ [a] := by
  rw [List.take_add_one, List.take_set_of_le (Nat.le_refl n), List.getElem?_set_self h]
  rfl

/-- Writing the cell behind the last instruction, where there is one. -/
theorem Holds.append {record : ProgramRecord} {program : OwnedProgram} {cells : List WaiInstruction}
    {capacity : Nat} (h : Holds record program) (ins : WaiInstruction)
    (hroom : program.count < capacity) (hcap : capacity ≤ maxInstructions)
    (hlen : cells.length = capacity) (htake : cells.take program.count = program.instructions) :
    Holds ⟨some (cells.set record.count ins), record.count + 1, capacity⟩
      (program.append ins capacity hroom hcap) where
  count_eq := congrArg (· + 1) h.count_eq
  capacity_eq := rfl
  null_iff := ⟨nofun, nofun⟩
  length_cells := (List.length_set ..).trans hlen
  take_cells := by
    show (cells.set record.count ins).take (record.count + 1) = program.instructions ++ [ins]
    rw [h.count_eq, take_set_succ (hlen.symm ▸ hroom), htake]

/-- An array that is full holds the instructions and nothing else. -/
theorem Holds.cells_eq {record : ProgramRecord} {program : OwnedProgram} (h : Holds record program)
    (hfull : program.count = program.capacity) : record.cells = program.instructions := by
  have htake := h.take_cells
  rwa [h.count_eq, hfull, ← h.capacity_eq, ← h.length_cells, List.take_length] at htake

section Push
variable {alloc : Nat → Bool} {garbage : Nat → WaiInstruction}
variable {record : ProgramRecord} {program : OwnedProgram}

/-- A `realloc` to more cells keeps the old ones. -/
theorem realloc_keeps {n : Nat} (halloc : alloc n = true) (hle : record.cells.length ≤ n) :
    ∃ newCode, reallocCode alloc garbage record.code n = some newCode ∧
      newCode.length = n ∧ newCode.take record.cells.length = record.cells := by
  refine ⟨_, if_pos halloc, ?_⟩
  show (record.cells.take n ++ _).length = n ∧ (record.cells.take n ++ _).take _ = record.cells
  rw [List.take_of_length_le hle, List.length_append, List.length_map, List.length_range']
  exact ⟨Nat.add_sub_cancel' hle, List.take_left⟩

/-- A push that finds the array full. -/
theorem push_full (h : Holds record program) (hfull : program.count = program.capacity)
    (ins : WaiInstruction) :
    (record.push alloc garbage ins).1 = (waiProgramPush alloc program ins).1 ∧
    Holds (record.push alloc garbage ins).2 (waiProgramPush alloc program ins).2 := by
  unfold ProgramRecord.push waiProgramPush
  rw [h.count_eq, h.capacity_eq, if_pos hfull, dif_pos hfull]
  by_cases hhalf : program.capacity > sizeMax / 2
  · rw [if_pos hhalf, if_pos hhalf]
    exact ⟨rfl, h⟩
  rw [if_neg hhalf, if_neg hhalf]
  by_cases hmax : grownCapacity program.capacity > maxInstructions
  · rw [if_pos hmax, dif_pos hmax]
    exact ⟨rfl, h⟩
  rw [if_neg hmax, dif_neg hmax]
  cases halloc : alloc (grownCapacity program.capacity) with
  | false =>
    rw [show reallocCode alloc garbage record.code _ = none from if_neg (by rw [halloc]; nofun)]
    exact ⟨rfl, h⟩
  | true =>
    have hlen : record.cells.length = program.count :=
      (h.length_cells.trans h.capacity_eq).trans hfull.symm
    obtain ⟨newCode, hnew, hnewlen, hkeeps⟩ := @realloc_keeps _ garbage record _ halloc
      ((hlen.trans hfull).le.trans (Nat.le_of_lt (lt_grownCapacity _)))
    rw [hlen, h.cells_eq hfull] at hkeeps
    have happ := h.append ins (hfull ▸ lt_grownCapacity _) (Nat.not_lt.mp hmax) hnewlen hkeeps
    rw [hnew]
    rw [h.count_eq] at happ
    exact ⟨rfl, happ⟩

/-- A push that finds a free cell. -/
theorem push_room (h : Holds record program) (hroom : program.count < program.capacity)
    (ins : WaiInstruction) :
    (record.push alloc garbage ins).1 = (waiProgramPush alloc program ins).1 ∧
    Holds (record.push alloc garbage ins).2 (waiProgramPush alloc program ins).2 := by
  unfold ProgramRecord.push waiProgramPush
  rw [h.count_eq, h.capacity_eq, if_neg (Nat.ne_of_lt hroom), dif_neg (Nat.ne_of_lt hroom)]
  obtain ⟨cells, hcode⟩ : ∃ cells, record.code = some cells := by
    refine Option.ne_none_iff_exists'.mp fun hnull => ?_
    have hzero := program.null_empty (h.null_iff.mp hnull)
    exact absurd hroom (hzero ▸ Nat.not_lt_zero _)
  have hcells : record.cells = cells := congrArg (·.getD []) hcode
  have happ := h.append ins hroom program.capacity_le
    ((hcells ▸ h.length_cells).trans h.capacity_eq) (hcells ▸ h.count_eq ▸ h.take_cells)
  rw [h.count_eq] at happ
  refine ⟨rfl, ?_⟩
  simp only [ProgramRecord.store, hcode, h.capacity_eq]
  exact happ

/-- Pushing into the cells is pushing to the program they hold. -/
theorem push_refines (h : Holds record program) (garbage : Nat → WaiInstruction)
    (ins : WaiInstruction) :
    (record.push alloc garbage ins).1 = (waiProgramPush alloc program ins).1 ∧
    Holds (record.push alloc garbage ins).2 (waiProgramPush alloc program ins).2 := by
  rcases Nat.lt_or_eq_of_le program.count_le_capacity with hroom | hfull
  · exact push_room h hroom ins
  · exact push_full h hfull ins

end Push

/-! ## 2. The assembler -/

/-- What the loop of `wai_assemble_source` works on: its label table and `*out_program`. -/
structure LoadState where
  table : LabelTable
  out : ProgramRecord

/-- A line that holds an instruction: the result where the code goes to `fail`, and what the
loop has by then. -/
def instructionInto (alloc : AssemblerAlloc) (garbage : Nat → WaiInstruction) (state : LoadState)
    (lineNumber : Nat) (tokens : List Text) : Option WaiAssemblerResult × LoadState :=
  match parseInstruction alloc state.table state.out.count lineNumber tokens with
  | .error .errOom => (some (resultSet .errOom lineNumber "out of memory".toList), state)
  | .error _ => (some (resultSet .errParse lineNumber
      (snprintf 256 ("invalid instruction near '".toList ++ tokens.headD [] ++ "'".toList))), state)
  | .ok (instr, table) =>
    match state.out.push alloc.code garbage instr with
    | (.ok, out) => (none, ⟨table, out⟩)
    | (status, out) =>
      (some (resultSet status lineNumber (waiErrorString status).toList), ⟨table, out⟩)

/-- A line that defines a label. -/
def labelInto (alloc : AssemblerAlloc) (state : LoadState) (lineNumber : Nat) (line : Text) :
    Option WaiAssemblerResult × LoadState :=
  let label := trim line
  if !isIdentifier label then
    (some (resultSet .errParse lineNumber "invalid label syntax".toList), state)
  else
    match labelAdd alloc.labels state.table label state.out.count with
    | .error .errOom => (some (resultSet .errOom lineNumber "out of memory".toList), state)
    | .error _ => (some (resultSet .errParse lineNumber "duplicate label".toList), state)
    | .ok table => (none, { state with table := table })

/-- The body of the loop of `wai_assemble_source`. -/
def lineInto (alloc : AssemblerAlloc) (garbage : Nat → WaiInstruction) (state : LoadState)
    (lineNumber : Nat) (rawLine : Text) : Option WaiAssemblerResult × LoadState :=
  let line := trim (rawLine.takeWhile (· != ';'))
  if line = [] then (none, state)
  else if line.getLast? = some ':' then labelInto alloc state lineNumber line.dropLast
  else
    match tokenize line 4 with
    | none => (some (resultSet .errParse lineNumber "too many tokens".toList), state)
    | some [] => (none, state)
    | some tokens => instructionInto alloc garbage state lineNumber tokens

/-- The loop of `wai_assemble_source`. -/
def linesInto (alloc : AssemblerAlloc) (garbage : Nat → WaiInstruction) :
    Nat → LoadState → List Text → Option WaiAssemblerResult × LoadState
  | _, state, [] => (none, state)
  | lineNumber, state, rawLine :: rest =>
    match lineInto alloc garbage state (lineNumber + 1) rawLine with
    | (some result, state) => (some result, state)
    | (none, state) => linesInto alloc garbage (lineNumber + 1) state rest

/-- `program->code[index].imm = value` -/
def ProgramRecord.setImm (program : ProgramRecord) (index : Nat) (value : WaiValue) :
    ProgramRecord :=
  { program with
    code := program.code.map fun code => code.modify index fun instr => { instr with imm := value } }

/-- `resolve_pending` -/
def resolveInto (labels : List LabelDef) : ProgramRecord → List PendingRef →
    Option WaiAssemblerResult × ProgramRecord
  | out, [] => (none, out)
  | out, ref :: rest =>
    match labelFind labels ref.name with
    | none => (some (resultSet .errParse ref.line
        (snprintf 256 ("unknown label '".toList ++ ref.name ++ "'".toList))), out)
    | some target =>
      if target > 2 ^ 63 - 1 then
        (some (resultSet .errParse ref.line "jump target is too large".toList), out)
      else resolveInto labels (out.setImm ref.instructionIndex (BitVec.ofNat 64 target)) rest

/-- `wai_assemble_source`: the result, and what is in `*out_program` afterwards. `out` is what
was there on entry. -/
def assembleSourceInto (alloc : AssemblerAlloc) (garbage : Nat → WaiInstruction) (source : Text)
    (out : ProgramRecord) : WaiAssemblerResult × ProgramRecord :=
  let out := out.init
  if !alloc.copy then (resultSet .errOom 0 "out of memory".toList, out)
  else
    match linesInto alloc garbage 0 ⟨.zero, out⟩ (pieces (· == '\n') source) with
    | (some result, state) => (result, state.out.free)
    | (none, state) =>
      match resolveInto state.table.labels state.out state.table.pending with
      | (some result, out) => (result, out.free)
      | (none, out) => (resultSet .ok 0 "ok".toList, out)

/-- A step of the loader that fails as the step of the model does, or goes on with the program
of its state in the cells. -/
def LoadState.Refines (outcome : Option WaiAssemblerResult × LoadState) :
    Except WaiAssemblerResult AssemblyState → Prop
  | .error result => outcome.1 = some result
  | .ok state => outcome.1 = none ∧ outcome.2.table = state.table ∧
      Holds outcome.2.out state.program

section Assemble
variable {alloc : AssemblerAlloc} {garbage : Nat → WaiInstruction}
variable {state : LoadState} {model : AssemblyState}

theorem instructionInto_refines (htable : state.table = model.table)
    (hout : Holds state.out model.program) (lineNumber : Nat) (tokens : List Text) :
    LoadState.Refines (instructionInto alloc garbage state lineNumber tokens)
      (assembleInstruction alloc model lineNumber tokens) := by
  unfold instructionInto assembleInstruction
  rw [htable, hout.count_eq]
  cases parseInstruction alloc model.table model.program.count lineNumber tokens with
  | error status => cases status <;> exact rfl
  | ok parsed =>
    obtain ⟨instr, table⟩ := parsed
    have hpush := @push_refines alloc.code _ _ hout garbage instr
    rcases hrecord : state.out.push alloc.code garbage instr with ⟨status, out⟩
    rcases hmodel : waiProgramPush alloc.code model.program instr with ⟨status', program⟩
    rw [hrecord, hmodel] at hpush
    obtain ⟨rfl, hholds⟩ := hpush
    simp only [hrecord, hmodel]
    cases status with
    | ok => exact ⟨rfl, rfl, hholds⟩
    | _ => exact rfl

theorem labelInto_refines (htable : state.table = model.table)
    (hout : Holds state.out model.program) (lineNumber : Nat) (line : Text) :
    LoadState.Refines (labelInto alloc state lineNumber line)
      (assembleLabel alloc model lineNumber line) := by
  unfold labelInto assembleLabel
  rw [htable, hout.count_eq]
  by_cases hident : (!isIdentifier (trim line)) = true
  · simp only [hident, if_true]
    exact rfl
  simp only [hident]
  cases labelAdd alloc.labels model.table (trim line) model.program.count with
  | error status => cases status <;> exact rfl
  | ok table => exact ⟨rfl, rfl, hout⟩

theorem lineInto_refines (htable : state.table = model.table)
    (hout : Holds state.out model.program) (lineNumber : Nat) (rawLine : Text) :
    LoadState.Refines (lineInto alloc garbage state lineNumber rawLine)
      (assembleLine alloc model lineNumber rawLine) := by
  unfold lineInto assembleLine
  by_cases hblank : trim (rawLine.takeWhile (· != ';')) = []
  · simp only [hblank, if_true]
    exact ⟨rfl, htable, hout⟩
  by_cases hlabel : (trim (rawLine.takeWhile (· != ';'))).getLast? = some ':'
  · simp only [hblank, hlabel, if_true, if_false]
    exact labelInto_refines htable hout lineNumber _
  simp only [hblank, hlabel, if_false]
  rcases tokenize (trim (rawLine.takeWhile (· != ';'))) 4 with _ | _ | ⟨token, tokens⟩
  · exact rfl
  · exact ⟨rfl, htable, hout⟩
  · exact instructionInto_refines htable hout lineNumber (token :: tokens)

theorem linesInto_refines (htable : state.table = model.table)
    (hout : Holds state.out model.program) (lineNumber : Nat) (lines : List Text) :
    LoadState.Refines (linesInto alloc garbage lineNumber state lines)
      (assembleLines alloc lineNumber model lines) := by
  induction lines generalizing lineNumber state model with
  | nil => exact ⟨rfl, htable, hout⟩
  | cons rawLine rest ih =>
    have hline := @lineInto_refines alloc garbage _ _ htable hout (lineNumber + 1) rawLine
    rw [linesInto, assembleLines]
    rcases hinto : lineInto alloc garbage state (lineNumber + 1) rawLine with ⟨failed, state'⟩
    rw [hinto] at hline
    cases hmodel : assembleLine alloc model (lineNumber + 1) rawLine with
    | error result =>
      rw [hmodel] at hline
      cases (hline : failed = some result)
      exact rfl
    | ok model' =>
      rw [hmodel] at hline
      obtain ⟨hnone, htable', hout'⟩ := hline
      cases (hnone : failed = none)
      exact ih htable' hout' (lineNumber + 1)

/-- Writing a target into the cells writes it into the instructions. -/
theorem Holds.setImm {record : ProgramRecord} {program : OwnedProgram} (h : Holds record program)
    (index : Nat) (value : WaiValue) :
    Holds (record.setImm index value) (program.setImm index value) := by
  have hcells : (record.setImm index value).cells =
      record.cells.modify index fun instr => { instr with imm := value } := by
    unfold ProgramRecord.cells ProgramRecord.setImm
    cases record.code <;> simp
  have hinstructions : (program.setImm index value).instructions =
      program.instructions.modify index fun instr => { instr with imm := value } := by
    have hcode : (program.setImm index value).code =
        program.code.map fun code => code.modify index fun instr => { instr with imm := value } := rfl
    unfold WaiProgram.instructions
    rw [hcode]
    cases program.code <;> simp
  constructor
  · exact h.count_eq
  · exact h.capacity_eq
  · exact Option.map_eq_none_iff.trans (h.null_iff.trans Option.map_eq_none_iff.symm)
  · rw [hcells, List.length_modify]
    exact h.length_cells
  · rw [hcells, hinstructions, ← h.take_cells]
    exact List.take_modify _ _ _ _

theorem resolveInto_refines {record : ProgramRecord} {program : OwnedProgram}
    (h : Holds record program) (labels : List LabelDef) (pending : List PendingRef) :
    (∀ result, resolvePending labels program pending = .error result →
      (resolveInto labels record pending).1 = some result) ∧
    ∀ program', resolvePending labels program pending = .ok program' →
      (resolveInto labels record pending).1 = none ∧
      Holds (resolveInto labels record pending).2 program' := by
  induction pending generalizing record program with
  | nil =>
    refine ⟨nofun, fun program' hok => ?_⟩
    cases hok
    exact ⟨rfl, h⟩
  | cons ref rest ih =>
    rw [resolvePending, resolveInto]
    cases labelFind labels ref.name with
    | none => exact ⟨fun result he => by cases he; rfl, nofun⟩
    | some target =>
      by_cases hlarge : target > 2 ^ 63 - 1
      · simp only [hlarge, if_true]
        exact ⟨fun result he => by cases he; rfl, nofun⟩
      · simp only [hlarge, if_false]
        exact ih (h.setImm _ _)

/-- The assembler does to `*out_program` what `waiAssembleSource` says, whatever was in it on
entry. -/
theorem assembleSourceInto_refines (alloc : AssemblerAlloc) (garbage : Nat → WaiInstruction)
    (source : Text) (out : ProgramRecord) :
    (assembleSourceInto alloc garbage source out).1 = (waiAssembleSource alloc source).1 ∧
    Holds (assembleSourceInto alloc garbage source out).2 (waiAssembleSource alloc source).2 := by
  unfold assembleSourceInto waiAssembleSource
  simp only [ProgramRecord.init_eq_empty, ProgramRecord.free_eq_empty]
  by_cases hcopy : (!alloc.copy) = true
  · rw [if_pos hcopy, if_pos hcopy]
    exact ⟨rfl, holds_empty⟩
  rw [if_neg hcopy, if_neg hcopy]
  have hlines := @linesInto_refines alloc garbage ⟨.zero, .empty⟩ ⟨.zero, waiProgramInit⟩ rfl
    holds_empty 0 (pieces (· == '\n') source)
  rcases hinto : linesInto alloc garbage 0 ⟨.zero, .empty⟩ (pieces (· == '\n') source) with
    ⟨failed, table, record⟩
  rw [hinto] at hlines
  cases hmodel : assembleLines alloc 0 ⟨.zero, waiProgramInit⟩ (pieces (· == '\n') source) with
  | error result =>
    rw [hmodel] at hlines
    cases (hlines : failed = some result)
    exact ⟨rfl, holds_empty⟩
  | ok state =>
    rw [hmodel] at hlines
    obtain ⟨hnone, htable, hholds⟩ := hlines
    cases (hnone : failed = none)
    cases (htable : table = state.table)
    obtain ⟨herror, hok⟩ := resolveInto_refines hholds state.table.labels state.table.pending
    simp only
    rcases hinto : resolveInto state.table.labels record state.table.pending with ⟨failed, record'⟩
    simp only [hinto] at herror hok
    cases hresolve : resolvePending state.table.labels state.program state.table.pending with
    | error result =>
      cases herror result hresolve
      exact ⟨rfl, holds_empty⟩
    | ok program =>
      obtain ⟨hnone, hholds'⟩ := hok program hresolve
      cases hnone
      exact ⟨rfl, hholds'⟩

end Assemble

/-! ## 3. The reader of bytecode -/

/-- `wai_bytecode_info` in memory, where nothing bounds the number of instructions. -/
structure InfoRecord where
  version : BitVec 16
  headerSize : BitVec 16
  instructionSize : BitVec 16
  registerCount : BitVec 16
  flags : BitVec 32
  codeCount : BitVec 64
  dataSize : BitVec 64
deriving DecidableEq

/-- `*out_info = info` -/
def WaiBytecodeInfo.toRecord (info : WaiBytecodeInfo) : InfoRecord where
  version := info.version
  headerSize := info.headerSize
  instructionSize := info.instructionSize
  registerCount := info.registerCount
  flags := info.flags
  codeCount := info.codeCount
  dataSize := info.dataSize

/-- How reading a file goes: whether there is a path, whether `fopen` succeeds, and the number
of bytes that come before a read error. -/
structure ReadIo where
  path : Bool
  opens : Bool
  reads : Nat

/-- The bytes that `fread` and `fgetc` get out of the file. -/
def ReadIo.stream (io : ReadIo) (content : List Byte) : List Byte :=
  content.take io.reads

/-- The cells that `calloc` clears. -/
def callocCode (alloc : Nat → Bool) (n : Nat) : Option (List WaiInstruction) :=
  if alloc n then some (List.replicate n ⟨0, 0, 0, 0, 0⟩) else none

/-- The loop of `wai_bytecode_read_file`, from instruction `i` on with `left` to come: whether
all of them could be read, what is left of the stream, and what is in `*out_program`. -/
def recordsInto : (left i : Nat) → List Byte → ProgramRecord → Bool × List Byte × ProgramRecord
  | 0, _, stream, out => (true, stream, out)
  | left + 1, i, stream, out =>
    let encoded := stream.take waiBytecodeInstructionSize
    if encoded.length ≠ waiBytecodeInstructionSize then
      (false, stream.drop waiBytecodeInstructionSize, out)
    else recordsInto left (i + 1) (stream.drop waiBytecodeInstructionSize)
      (out.store i (decodeInstruction encoded))

/-- `validate_program` -/
def ProgramRecord.validate (program : ProgramRecord) : WaiErrorCode :=
  validateFrom program.count (program.cells.take program.count)

/-- The allocation of the array of `wai_bytecode_read_file`; `none` when it fails. -/
def allocateInto (alloc : Nat → Bool) (info : WaiBytecodeInfo) (out : ProgramRecord) :
    Option ProgramRecord :=
  if 0 < info.codeCount then
    match callocCode alloc info.codeCount.toNat with
    | none => none
    | some code => some
      { out with code := some code, count := info.codeCount.toNat, capacity := info.codeCount.toNat }
  else some out

/-- What `wai_bytecode_read_file` does behind the header. -/
def bodyInto (alloc : Nat → Bool) (info : WaiBytecodeInfo) (stream : List Byte)
    (out : ProgramRecord) : WaiErrorCode × ProgramRecord :=
  let out := out.init
  match allocateInto alloc info out with
  | none => (.errOom, out)
  | some out =>
    match recordsInto out.count 0 stream out with
    | (false, _, out) => (.errParse, out.free)
    | (true, trailing, out) =>
      if trailing ≠ [] then (.errParse, out.free)
      else
        match out.validate with
        | .ok => (.ok, out)
        | status => (status, out.free)

/-- `wai_bytecode_read_file`: the status, and what is in `*out_program` and `*out_info`
afterwards. `out` and `outInfo` are what was there on entry; `outInfo` is `none` for a `NULL`
pointer. -/
def readFileInto (alloc : Nat → Bool) (io : ReadIo) (content : List Byte) (out : ProgramRecord)
    (outInfo : Option InfoRecord) : WaiErrorCode × ProgramRecord × Option InfoRecord :=
  if !io.path then (.errParse, out, outInfo)
  else if !io.opens then (.errIo, out, outInfo)
  else
    let header := (io.stream content).take waiBytecodeHeaderSize
    if header.length ≠ waiBytecodeHeaderSize then (.errParse, out, outInfo)
    else
      match decodeHeader header with
      | .error status => (status, out, outInfo)
      | .ok info =>
        match bodyInto alloc info ((io.stream content).drop waiBytecodeHeaderSize) out with
        | (.ok, out) => (.ok, out, outInfo.map fun _ => info.toRecord)
        | (status, out) => (status, out, outInfo)

section Read
variable {alloc : Nat → Bool} {io : ReadIo} {content : List Byte}

/-- A read comes up short exactly when fewer bytes are left. -/
theorem length_take_ne_iff {stream : List Byte} {n : Nat} :
    (stream.take n).length ≠ n ↔ stream.length < n := by
  rw [List.length_take, Ne, min_eq_left_iff, Nat.not_le]

/-- The loop writes the instructions that the records hold into the cells from `i` on, and
touches nothing else. -/
theorem recordsInto_refines (left : Nat) {i count capacity : Nat} {stream : List Byte}
    {cells : List WaiInstruction} (hcells : cells.length = i + left) :
    (readRecords left stream = none →
      (recordsInto left i stream ⟨some cells, count, capacity⟩).1 = false) ∧
    ∀ code rest, readRecords left stream = some (code, rest) →
      recordsInto left i stream ⟨some cells, count, capacity⟩ =
        (true, rest, ⟨some (cells.take i ++ code.toList), count, capacity⟩) := by
  induction left generalizing i stream cells with
  | zero =>
    refine ⟨fun hread => absurd hread (Option.some_ne_none _), fun code rest hread => ?_⟩
    cases hread
    have htake : cells.take i = cells := List.take_of_length_le (Nat.le_of_eq hcells)
    rw [htake, List.Vector.toList_nil, List.append_nil]
    rfl
  | succ left ih =>
    rw [readRecords, recordsInto]
    by_cases hshort : stream.length < waiBytecodeInstructionSize
    · rw [if_pos hshort, if_pos (length_take_ne_iff.mpr hshort)]
      exact ⟨fun _ => rfl, fun code rest hread => absurd hread.symm (Option.some_ne_none _)⟩
    rw [if_neg hshort, if_neg fun hne => hshort (length_take_ne_iff.mp hne)]
    have hlt : i < cells.length := hcells ▸ Nat.lt_add_of_pos_right (Nat.succ_pos left)
    obtain ⟨hnone, hsome⟩ := @ih (i + 1) (stream.drop waiBytecodeInstructionSize)
      (cells.set i (decodeInstruction (stream.take waiBytecodeInstructionSize)))
      (by rw [List.length_set, hcells, Nat.add_right_comm, Nat.add_assoc])
    constructor
    · intro hread
      exact hnone (Option.map_eq_none_iff.mp hread)
    · intro code rest hread
      obtain ⟨⟨code', rest'⟩, hread', heq⟩ := Option.map_eq_some_iff.mp hread
      cases heq
      refine (hsome code' rest hread').trans ?_
      rw [take_set_succ hlt, List.append_assoc, List.Vector.toList_cons]
      rfl

/-- The record of an array that is full holds the program of its cells. -/
theorem holds_ofArray {l : List WaiInstruction} {n : Nat} (hlen : l.length = n)
    (h : l.length ≤ maxInstructions) (hne : l ≠ []) : Holds ⟨some l, n, n⟩ (.ofArray l h) where
  count_eq := hlen.symm
  capacity_eq := hlen.symm
  null_iff := by
    show some l = none ↔ (if l = [] then none else some l) = none
    rw [if_neg hne]
  length_cells := hlen
  take_cells := by
    rw [OwnedProgram.ofArray_instructions]
    exact List.take_of_length_le (Nat.le_of_eq hlen)

theorem Holds.validate {record : ProgramRecord} {program : OwnedProgram}
    (h : Holds record program) : record.validate = validateProgram program := by
  rw [ProgramRecord.validate, h.take_cells, h.count_eq]
  rfl

/-- The allocation fails where there are instructions and `calloc` does not give the cells. -/
theorem allocateInto_eq_none_iff {info : WaiBytecodeInfo} {out : ProgramRecord} :
    allocateInto alloc info out = none ↔ 0 < info.codeCount ∧ (!alloc info.codeCount.toNat) = true := by
  unfold allocateInto callocCode
  by_cases hpos : 0 < info.codeCount
  · rw [if_pos hpos]
    cases alloc info.codeCount.toNat with
    | false => exact ⟨fun _ => ⟨hpos, rfl⟩, fun _ => rfl⟩
    | true => exact ⟨nofun, nofun⟩
  · rw [if_neg hpos]
    exact ⟨nofun, fun h => absurd h.1 hpos⟩

/-- The loop over all records, from the cells that were allocated. -/
theorem recordsInto_allocated {info : WaiBytecodeInfo} {out : ProgramRecord} {stream : List Byte}
    (hout : allocateInto alloc info .empty = some out) :
    (readRecords info.codeCount.toNat stream = none →
      (recordsInto out.count 0 stream out).1 = false) ∧
    ∀ code rest, readRecords info.codeCount.toNat stream = some (code, rest) →
      ∃ out', recordsInto out.count 0 stream out = (true, rest, out') ∧
        Holds out' (.ofArray code.toList (code.toList_length.symm ▸ info.code_count_le)) := by
  unfold allocateInto callocCode at hout
  by_cases hpos : 0 < info.codeCount
  · rw [if_pos hpos] at hout
    cases halloc : alloc info.codeCount.toNat with
    | false => simp [halloc] at hout
    | true =>
      simp only [halloc, if_true, Option.some.injEq] at hout
      subst hout
      obtain ⟨hnone, hsome⟩ := @recordsInto_refines info.codeCount.toNat 0 info.codeCount.toNat
        info.codeCount.toNat stream (List.replicate info.codeCount.toNat ⟨0, 0, 0, 0, 0⟩)
        (by rw [List.length_replicate, Nat.zero_add])
      refine ⟨hnone, fun code rest hread => ⟨_, hsome code rest hread, ?_⟩⟩
      have hne : code.toList ≠ [] := by
        intro hnil
        have hlen := code.toList_length
        rw [hnil] at hlen
        exact absurd hpos (by rw [BitVec.lt_def, ← hlen]; exact Nat.not_lt_zero _)
      exact holds_ofArray code.toList_length _ hne
  · rw [if_neg hpos, Option.some.injEq] at hout
    subst hout
    have hzero : info.codeCount.toNat = 0 :=
      Nat.eq_zero_of_not_pos fun h => hpos (BitVec.lt_def.mpr h)
    constructor
    · rw [hzero]
      nofun
    · intro code rest hread
      have hlen : code.toList.length = 0 := code.toList_length.trans hzero
      have hnil : code.toList = [] := List.length_eq_zero_iff.mp hlen
      have hrest := readRecords_eq_some_iff.mp hread
      rw [hnil] at hrest
      refine ⟨.empty, by rw [hrest]; rfl, ?_⟩
      simp only [hnil]
      exact holds_empty

section Body
variable {info : WaiBytecodeInfo} {stream : List Byte}

/-- `calloc` fails before the array is entered. -/
theorem bodyInto_oom (h : 0 < info.codeCount ∧ (!alloc info.codeCount.toNat) = true)
    (out : ProgramRecord) : bodyInto alloc info stream out = (.errOom, .empty) := by
  simp only [bodyInto, ProgramRecord.init_eq_empty, allocateInto_eq_none_iff.mpr h]

/-- A record that is cut short: the cells are given back. -/
theorem bodyInto_short (halloc : ¬ (0 < info.codeCount ∧ (!alloc info.codeCount.toNat) = true))
    (hread : readRecords info.codeCount.toNat stream = none) (out : ProgramRecord) :
    bodyInto alloc info stream out = (.errParse, .empty) := by
  unfold bodyInto
  simp only [ProgramRecord.init_eq_empty, ProgramRecord.free_eq_empty]
  cases hallocate : allocateInto alloc info .empty with
  | none => exact absurd (allocateInto_eq_none_iff.mp hallocate) halloc
  | some allocated =>
    have hfalse := (@recordsInto_allocated _ _ _ stream hallocate).1 hread
    simp only
    rcases hrecords : recordsInto allocated.count 0 stream allocated with ⟨done, rest, filled⟩
    rw [hrecords] at hfalse
    cases (hfalse : done = false)
    rfl

/-- All records are read: what follows them and what they hold decides. -/
theorem bodyInto_read (halloc : ¬ (0 < info.codeCount ∧ (!alloc info.codeCount.toNat) = true))
    {code : List.Vector WaiInstruction info.codeCount.toNat} {rest : List Byte}
    (hread : readRecords info.codeCount.toNat stream = some (code, rest)) (out : ProgramRecord) :
    let program : OwnedProgram :=
      .ofArray code.toList (code.toList_length.symm ▸ info.code_count_le)
    (rest ≠ [] → bodyInto alloc info stream out = (.errParse, .empty)) ∧
    (rest = [] → validateProgram program ≠ .ok →
      bodyInto alloc info stream out = (validateProgram program, .empty)) ∧
    (rest = [] → validateProgram program = .ok →
      ∃ filled, bodyInto alloc info stream out = (.ok, filled) ∧ Holds filled program) := by
  intro program
  cases hallocate : allocateInto alloc info .empty with
  | none => exact absurd (allocateInto_eq_none_iff.mp hallocate) halloc
  | some allocated =>
    obtain ⟨filled, hrecords, hholds⟩ :=
      (@recordsInto_allocated _ _ _ stream hallocate).2 code rest hread
    unfold bodyInto
    simp only [ProgramRecord.init_eq_empty, ProgramRecord.free_eq_empty, hallocate, hrecords,
      hholds.validate]
    refine ⟨fun htrailing => if_pos htrailing, fun hend hrefused => ?_, fun hend haccepted => ?_⟩
    · rw [if_neg (not_not_intro hend)]
      cases hstatus : validateProgram program with
      | ok => exact absurd hstatus hrefused
      | _ => rfl
    · rw [if_neg (not_not_intro hend)]
      simp only [program] at haccepted
      rw [haccepted]
      exact ⟨filled, rfl, hholds⟩

end Body

/-- The reader does to `*out_program` and `*out_info` what `waiBytecodeReadFile` says of the bytes
that come out of the stream. -/
theorem readFileInto_refines (hpath : io.path = true) {out : ProgramRecord} {program : OwnedProgram}
    (hout : Holds out program) (outInfo : Option WaiBytecodeInfo) :
    let file := if io.opens then some (io.stream content) else none
    let record := readFileInto alloc io content out (outInfo.map (·.toRecord))
    let model := waiBytecodeReadFile alloc file program outInfo
    record.1 = model.1 ∧ Holds record.2.1 model.2.1 ∧
      record.2.2 = model.2.2.map (·.toRecord) := by
  intro file record model
  simp only [record, model, file, readFileInto, hpath, Bool.not_true, Bool.false_eq_true, if_false]
  cases hopens : io.opens with
  | false => exact ⟨rfl, hout, rfl⟩
  | true =>
    simp only [Bool.not_true, Bool.false_eq_true, if_false, if_true, waiBytecodeReadFile]
    by_cases hshort : (io.stream content).length < waiBytecodeHeaderSize
    · rw [if_pos hshort, if_pos (length_take_ne_iff.mpr hshort)]
      exact ⟨rfl, hout, rfl⟩
    rw [if_neg hshort, if_neg fun hne => hshort (length_take_ne_iff.mp hne)]
    cases decodeHeader ((io.stream content).take waiBytecodeHeaderSize) with
    | error status => exact ⟨rfl, hout, rfl⟩
    | ok info =>
      dsimp only
      by_cases halloc : 0 < info.codeCount ∧ (!alloc info.codeCount.toNat) = true
      · rw [bodyInto_oom halloc, if_pos halloc]
        exact ⟨rfl, holds_empty, rfl⟩
      rw [if_neg halloc]
      cases hread : readRecords info.codeCount.toNat
          ((io.stream content).drop waiBytecodeHeaderSize) with
      | none =>
        rw [bodyInto_short halloc hread]
        exact ⟨rfl, holds_empty, rfl⟩
      | some result =>
        obtain ⟨code, rest⟩ := result
        obtain ⟨htrailing, hrefused, haccepted⟩ := bodyInto_read halloc hread out
        dsimp only
        by_cases hend : rest = []
        · rw [if_neg (not_not_intro hend)]
          cases hstatus : validateProgram (.ofArray code.toList _) with
          | ok =>
            obtain ⟨filled, hbody, hholds⟩ := haccepted hend hstatus
            rw [hbody]
            exact ⟨rfl, hholds, by cases outInfo <;> rfl⟩
          | _ =>
            rw [hrefused hend (by rw [hstatus]; nofun), hstatus]
            exact ⟨rfl, holds_empty, rfl⟩
        · rw [htrailing hend, if_pos hend]
          exact ⟨rfl, holds_empty, rfl⟩

end Read

/-! ## 4. What a load that fails leaves behind -/

/-- A failure before or in the header: no path, no file, or a header that is cut short or
refused. -/
def HeaderFails (io : ReadIo) (content : List Byte) : Prop :=
  io.path = false ∨ io.opens = false ∨
  ((io.stream content).take waiBytecodeHeaderSize).length ≠ waiBytecodeHeaderSize ∨
  ∃ status, decodeHeader ((io.stream content).take waiBytecodeHeaderSize) = .error status

/-- Whatever the lines or the labels fail at, `*out_program` is emptied again. -/
theorem assemble_failed (alloc : AssemblerAlloc) (garbage : Nat → WaiInstruction) (source : Text)
    (out : ProgramRecord) :
    (assembleSourceInto alloc garbage source out).1.error = .ok ∨
    (assembleSourceInto alloc garbage source out).2 = .empty := by
  unfold assembleSourceInto
  simp only [ProgramRecord.init_eq_empty, ProgramRecord.free_eq_empty]
  by_cases hcopy : (!alloc.copy) = true
  · rw [if_pos hcopy]
    exact .inr rfl
  rw [if_neg hcopy]
  rcases linesInto alloc garbage 0 ⟨.zero, .empty⟩ (pieces (· == '\n') source) with
    ⟨_ | result, state⟩
  · simp only
    rcases resolveInto state.table.labels state.out state.table.pending with ⟨_ | result, out'⟩
    · exact .inl rfl
    · exact .inr rfl
  · exact .inr rfl

/-- Behind the header every failure empties `*out_program`, the allocation included, which fails
before the array is entered. -/
theorem body_failed (alloc : Nat → Bool) (info : WaiBytecodeInfo) (stream : List Byte)
    (out : ProgramRecord) :
    (bodyInto alloc info stream out).1 = .ok ∨ (bodyInto alloc info stream out).2 = .empty := by
  unfold bodyInto
  simp only [ProgramRecord.init_eq_empty, ProgramRecord.free_eq_empty]
  rcases allocateInto alloc info .empty with _ | allocated
  · exact .inr rfl
  simp only
  rcases recordsInto allocated.count 0 stream allocated with ⟨_ | _, trailing, filled⟩
  · exact .inr rfl
  · simp only
    by_cases htrailing : trailing ≠ []
    · rw [if_pos htrailing]
      exact .inr rfl
    rw [if_neg htrailing]
    cases filled.validate with
    | ok => exact .inl rfl
    | _ => exact .inr rfl

/-- A read that fails leaves `*out_info` alone, and `*out_program` too unless the header was
accepted. -/
theorem read_failed (alloc : Nat → Bool) (io : ReadIo) (content : List Byte) (out : ProgramRecord)
    (outInfo : Option InfoRecord) (h : (readFileInto alloc io content out outInfo).1 ≠ .ok) :
    (readFileInto alloc io content out outInfo).2.2 = outInfo ∧
    (HeaderFails io content ∧ (readFileInto alloc io content out outInfo).2.1 = out ∨
      ¬ HeaderFails io content ∧ (readFileInto alloc io content out outInfo).2.1 = .empty) := by
  unfold readFileInto at h ⊢
  by_cases hpath : (!io.path) = true
  · simp only [hpath, if_true]
    exact ⟨trivial, .inl ⟨.inl (Bool.not_eq_true' _ ▸ hpath), trivial⟩⟩
  by_cases hopens : (!io.opens) = true
  · simp only [hpath, hopens, if_true]
    exact ⟨rfl, .inl ⟨.inr (.inl (Bool.not_eq_true' _ ▸ hopens)), rfl⟩⟩
  rw [if_neg hpath, if_neg hopens] at h ⊢
  by_cases hshort : ((io.stream content).take waiBytecodeHeaderSize).length ≠ waiBytecodeHeaderSize
  · rw [if_pos hshort]
    exact ⟨rfl, .inl ⟨.inr (.inr (.inl hshort)), rfl⟩⟩
  simp only [hshort, if_false] at h ⊢
  cases hdecode : decodeHeader ((io.stream content).take waiBytecodeHeaderSize) with
  | error status => exact ⟨rfl, .inl ⟨.inr (.inr (.inr ⟨status, hdecode⟩)), rfl⟩⟩
  | ok info =>
    rw [hdecode] at h
    have hheader : ¬ HeaderFails io content := by
      rintro (hno | hno | hno | ⟨status, hno⟩)
      · exact hpath (Bool.not_eq_true' _ ▸ hno)
      · exact hopens (Bool.not_eq_true' _ ▸ hno)
      · exact hshort hno
      · rw [hdecode] at hno
        cases hno
    have hbody := body_failed alloc info ((io.stream content).drop waiBytecodeHeaderSize) out
    rcases hinto : bodyInto alloc info ((io.stream content).drop waiBytecodeHeaderSize) out with
      ⟨status, out'⟩
    rw [hinto] at hbody
    simp only [hinto] at h ⊢
    cases status with
    | ok => exact absurd rfl h
    | _ => exact ⟨rfl, .inr ⟨hheader, hbody.resolve_left nofun⟩⟩

/-- A load that fails never hands out a partial program: the assembler leaves the empty one, the
reader what was there on entry or the empty one, with `*out_info` as it was. -/
theorem failed_load_exposes_nothing :
    (∀ alloc garbage source out,
      (assembleSourceInto alloc garbage source out).1.error ≠ .ok →
      (assembleSourceInto alloc garbage source out).2 = .empty) ∧
    ∀ alloc io content out outInfo, (readFileInto alloc io content out outInfo).1 ≠ .ok →
      (readFileInto alloc io content out outInfo).2.2 = outInfo ∧
      (HeaderFails io content ∧ (readFileInto alloc io content out outInfo).2.1 = out ∨
        ¬ HeaderFails io content ∧ (readFileInto alloc io content out outInfo).2.1 = .empty) :=
  ⟨fun alloc garbage source out h => (assemble_failed alloc garbage source out).resolve_left h,
    read_failed⟩

/-- Two loads that fail half way: `nop` is pushed before the line `x` fails, and of a file with
two records the second one cannot be read. -/
theorem failed_load_exposes_nothing_partial :
    ∃ alloc garbage out io content info,
      (linesInto alloc garbage 0 ⟨.zero, .empty⟩ [['n', 'o', 'p'], ['x']]).2.out.count = 1 ∧
      (assembleSourceInto alloc garbage ['n', 'o', 'p', '\n', 'x'] out).2 = .empty ∧
      ¬ HeaderFails io content ∧
      (readFileInto alloc.code io content out (some info)).2 = (.empty, some info) := by
  refine ⟨⟨true, true, fun _ => true, fun _ => true, fun _ => true⟩, fun _ => ⟨0, 0, 0, 0, 0⟩,
    ⟨none, 7, 7⟩, ⟨true, true, 44⟩, encodeWithFlags 0 [⟨15, 0, 0, 0, 0⟩, ⟨15, 0, 0, 0, 0⟩],
    ⟨0, 0, 0, 0, 0, 0, 0⟩, by decide, ?_, ?_⟩
  · exact failed_load_exposes_nothing.1 _ _ _ _ (by decide)
  · have hheader : ¬ HeaderFails ⟨true, true, 44⟩
        (encodeWithFlags 0 [⟨15, 0, 0, 0, 0⟩, ⟨15, 0, 0, 0, 0⟩]) := by
      rintro (hno | hno | hno | ⟨status, hno⟩)
      · cases hno
      · cases hno
      · exact hno (by decide)
      · exact absurd (show true = false from congrArg Except.toBool hno) nofun
    obtain ⟨hinfo, hout⟩ := failed_load_exposes_nothing.2 (fun _ => true) ⟨true, true, 44⟩
      (encodeWithFlags 0 [⟨15, 0, 0, 0, 0⟩, ⟨15, 0, 0, 0, 0⟩]) ⟨none, 7, 7⟩
      (some ⟨0, 0, 0, 0, 0, 0, 0⟩) (by decide)
    have hempty := (hout.resolve_left fun h => hheader h.1).2
    exact ⟨hheader, Prod.ext hempty hinfo⟩

end Waivm
