import Waivm.Lib.LittleEndian
import Waivm.Verifier

/-!
# The bytecode format (`bytecode.h`, `bytecode.c`)

A `.waibc` file is a header of 32 bytes and one record of 12 bytes for each
instruction, all words little-endian. This module has the validator and the
encoders and decoders of the header and of one record.

Results:
1. `validateProgram_ok_iff`: the validator accepts the programs of well-formed
   instructions.
2. `decodeInstruction_encode`, `encodeInstruction_decode`: records.
3. `decodeHeader_ok_iff`: `decode_header` accepts the headers that
   `encode_header` writes, with any word in place of the flags.
4. `readRecords_eq_some_iff`: the loop over the records reads back what the loop
   of the writer wrote.
-/

namespace Waivm

open LittleEndian (Byte bytes wordAt)

/-- `WAI_BYTECODE_MAGIC`, the text `WAI0`. -/
def waiBytecodeMagic : List Byte := [0x57, 0x41, 0x49, 0x30]

/-- `WAI_BYTECODE_VERSION` -/
def waiBytecodeVersion : BitVec 16 := 5

/-- `WAI_BYTECODE_HEADER_SIZE` -/
def waiBytecodeHeaderSize : Nat := 32

/-- `WAI_BYTECODE_INSTRUCTION_SIZE` -/
def waiBytecodeInstructionSize : Nat := 12

/-- `WAI_BYTECODE_REGISTER_COUNT` -/
def waiBytecodeRegisterCount : BitVec 16 := 8

/-- `wai_bytecode_info` of a header that was accepted: the number of
instructions fits in the address space. -/
@[ext]
structure WaiBytecodeInfo where
  version : BitVec 16
  headerSize : BitVec 16
  instructionSize : BitVec 16
  registerCount : BitVec 16
  flags : BitVec 32
  codeCount : BitVec 64
  dataSize : BitVec 64
  code_count_le : codeCount.toNat ≤ maxInstructions

/-! ## 1. The validator -/

/-- `instruction_registers_valid` -/
def instructionRegistersValid (ins : WaiInstruction) : Bool :=
  match WaiOpcode.ofByte ins.opcode with
  | .movImm | .addImm | .subImm | .mulImm | .divImm | .modImm | .andImm | .orImm | .xorImm
  | .shlImm | .shrImm | .jz | .jnz | .print | .loadAbs | .storeAbs | .push | .pop | .cmpImm
  | .not => waiRegisterIsValid ins.a
  | .movReg | .addReg | .subReg | .mulReg | .divReg | .modReg | .andReg | .orReg | .xorReg
  | .shlReg | .shrReg | .loadReg | .storeReg | .cmpReg =>
    waiRegisterIsValid ins.a && waiRegisterIsValid ins.b
  | .jmp | .call | .je | .jne | .halt | .ret | .nop => true
  | .invalid => false

/-- The body of the loop of `validate_program`, for a program of `count`
instructions. `opcode_known` is the same function as in the verifier. -/
def validateInstruction (count : Nat) (ins : WaiInstruction) : WaiErrorCode :=
  if ins.c ≠ 0 then .errParse
  else if !opcodeKnown ins.opcode then .errBadOpcode
  else if !instructionRegistersValid ins then .errBadRegister
  else if ins.op ∈ WaiOpcode.jumps ∧
      (ins.imm.toInt < 0 ∨ count ≤ ins.imm.toNat) then .errBadJump
  else if (ins.op = .divImm ∨ ins.op = .modImm) ∧ ins.imm = 0 then .errDivZero
  else if (ins.op = .loadAbs ∨ ins.op = .storeAbs) ∧
      (ins.imm.toInt < 0 ∨ waiMemorySize - sizeofWaiValue < ins.imm.toNat) then .errMemoryOob
  else if (ins.op = .shlImm ∨ ins.op = .shrImm) ∧
      (ins.imm.toInt < 0 ∨ 63 < ins.imm.toInt) then .errBadShift
  else .ok

/-- The loop of `validate_program`. -/
def validateFrom (count : Nat) : List WaiInstruction → WaiErrorCode
  | [] => .ok
  | ins :: rest =>
    match validateInstruction count ins with
    | .ok => validateFrom count rest
    | status => status

/-- `validate_program` -/
def validateProgram (program : OwnedProgram) : WaiErrorCode :=
  validateFrom program.count program.instructions

section Validate
variable {count : Nat} {ins : WaiInstruction}

/-- A check that fails with an error, before the rest of the checks. -/
theorem check_ok_iff {p : Prop} [Decidable p] {error status : WaiErrorCode} (h : error ≠ .ok) :
    (if p then error else status) = .ok ↔ ¬ p ∧ status = .ok := by
  split
  · next hp => exact ⟨fun he => absurd he h, fun he => absurd hp he.1⟩
  · next hp => exact ⟨fun he => ⟨hp, he⟩, fun he => he.2⟩

theorem instructionRegistersValid_iff (hop : ins.op ≠ .invalid) :
    instructionRegistersValid ins = true ↔
      (ins.op ∈ WaiOpcode.usesA → validReg ins.a = true) ∧
      (ins.op ∈ WaiOpcode.usesB → validReg ins.b = true) := by
  unfold instructionRegistersValid
  rw [show WaiOpcode.ofByte ins.opcode = ins.op from rfl]
  have hreg : ∀ r, waiRegisterIsValid r = validReg r := fun _ => rfl
  revert hop
  cases ins.op <;> simp [WaiOpcode.usesA, WaiOpcode.usesB, hreg]

theorem validateInstruction_ok_iff :
    validateInstruction count ins = .ok ↔ WellFormed count ins := by
  unfold validateInstruction
  rw [check_ok_iff (by decide), check_ok_iff (by decide), check_ok_iff (by decide),
    check_ok_iff (by decide), check_ok_iff (by decide), check_ok_iff (by decide),
    check_ok_iff (by decide)]
  simp only [Bool.not_eq_true', Bool.not_eq_false, not_and, not_or, Int.not_lt, Nat.not_le,
    Nat.not_lt, Classical.not_not, opcodeKnown_iff, and_true]
  constructor
  · rintro ⟨hc, hop, hreg, hjump, hdiv, haddr, hshift⟩
    obtain ⟨ha, hb⟩ := (instructionRegistersValid_iff hop).mp hreg
    exact ⟨hc, hop, ha, hb, hshift, hdiv, hjump,
      fun h => (validAddress_iff _).mpr (haddr h).2⟩
  · intro h
    refine ⟨h.reserved_zero, h.opcode_known, ?_, h.target, h.divisor, fun hop => ?_, h.shift⟩
    · exact (instructionRegistersValid_iff h.opcode_known).mpr ⟨h.register_a, h.register_b⟩
    · exact ⟨(h.address hop).1, (validAddress_iff _).mp (h.address hop)⟩

/-- What is wrong with an instruction that the validator gives an error: the first of its checks
that fails. -/
inductive Defect (count : Nat) (ins : WaiInstruction) : WaiErrorCode → Prop
  | reserved (h : ins.c ≠ 0) : Defect count ins .errParse
  | opcode (h : ins.op = .invalid) : Defect count ins .errBadOpcode
  | register (hop : ins.op ≠ .invalid) (h : instructionRegistersValid ins = false) :
      Defect count ins .errBadRegister
  | target (ha : ins.op ∈ WaiOpcode.usesA → validReg ins.a = true) (hop : ins.op ∈ WaiOpcode.jumps)
      (h : ins.imm.toInt < 0 ∨ count ≤ ins.imm.toNat) : Defect count ins .errBadJump
  | divisor (ha : validReg ins.a = true) (hop : ins.op = .divImm ∨ ins.op = .modImm)
      (h : ins.imm = 0) : Defect count ins .errDivZero
  | address (ha : validReg ins.a = true) (hop : ins.op = .loadAbs ∨ ins.op = .storeAbs)
      (h : ¬ ValidAddress ins.imm) : Defect count ins .errMemoryOob
  | shift (ha : validReg ins.a = true) (hop : ins.op = .shlImm ∨ ins.op = .shrImm)
      (h : ¬ ValidShift ins.imm) : Defect count ins .errBadShift

theorem defect_of_error {e : WaiErrorCode} (h : validateInstruction count ins = e) (hne : e ≠ .ok) :
    Defect count ins e := by
  unfold validateInstruction at h
  split at h
  · next hc => exact h ▸ .reserved hc
  split at h
  · next hknown =>
    refine h ▸ .opcode ?_
    by_contra hop
    rw [opcodeKnown_iff.mpr hop] at hknown
    cases hknown
  next hknown =>
  have hop : ins.op ≠ .invalid := opcodeKnown_iff.mp (by simpa using hknown)
  split at h
  · next hreg => exact h ▸ .register hop (by simpa using hreg)
  next hreg =>
  obtain ⟨ha, -⟩ := (instructionRegistersValid_iff hop).mp (by simpa using hreg)
  split at h
  · next hjump => exact h ▸ .target ha hjump.1 hjump.2
  split at h
  · next hdiv =>
    refine h ▸ .divisor (ha ?_) hdiv.1 hdiv.2
    rcases hdiv.1 with hop | hop <;> rw [hop] <;> decide
  split at h
  · next haddr =>
    refine h ▸ .address (ha ?_) haddr.1 fun hvalid => ?_
    · rcases haddr.1 with hop | hop <;> rw [hop] <;> decide
    · rcases haddr.2 with hneg | hgt
      · exact absurd hvalid.1 (Int.not_le.mpr hneg)
      · exact absurd ((validAddress_iff _).mp hvalid) (Nat.not_le.mpr hgt)
  split at h
  · next hshift =>
    refine h ▸ .shift (ha ?_) hshift.1 fun hvalid => ?_
    · rcases hshift.1 with hop | hop <;> rw [hop] <;> decide
    · rcases hshift.2 with hneg | hgt
      · exact absurd hvalid.1 (Int.not_le.mpr hneg)
      · exact absurd hvalid.2 (Int.not_le.mpr hgt)
  · exact absurd h.symm hne

theorem validateFrom_ok_iff {l : List WaiInstruction} :
    validateFrom count l = .ok ↔ ∀ ins ∈ l, WellFormed count ins := by
  induction l with
  | nil => exact ⟨fun _ _ h => absurd h List.not_mem_nil, fun _ => rfl⟩
  | cons ins rest ih =>
    rw [List.forall_mem_cons, ← ih, ← validateInstruction_ok_iff]
    rw [validateFrom]
    cases validateInstruction count ins <;> simp

/-- The validator accepts exactly the programs of well-formed instructions. -/
theorem validateProgram_ok_iff (program : OwnedProgram) :
    validateProgram program = .ok ↔
      ∀ ins ∈ program.instructions, WellFormed program.count ins :=
  validateFrom_ok_iff

end Validate

/-! ## 2. Records -/

/-- `encode_instruction` -/
def encodeInstruction (ins : WaiInstruction) : List Byte :=
  [ins.opcode, ins.a, ins.b, ins.c] ++ bytes 8 ins.imm

/-- `decode_instruction` -/
def decodeInstruction (src : List Byte) : WaiInstruction where
  opcode := src.getD 0 0
  a := src.getD 1 0
  b := src.getD 2 0
  c := src.getD 3 0
  imm := wordAt 64 8 src 4

theorem length_encodeInstruction (ins : WaiInstruction) :
    (encodeInstruction ins).length = waiBytecodeInstructionSize := by
  simp [encodeInstruction, waiBytecodeInstructionSize]

theorem decodeInstruction_encode (ins : WaiInstruction) :
    decodeInstruction (encodeInstruction ins) = ins := by
  have himm : wordAt 64 8 (encodeInstruction ins) 4 = ins.imm := by
    have h := LittleEndian.wordAt_append (n := 8) ins.imm (by decide)
      [ins.opcode, ins.a, ins.b, ins.c] []
    rwa [List.append_nil] at h
  cases ins
  simp only [decodeInstruction, himm]
  rfl

theorem encodeInstruction_decode {src : List Byte} (h : src.length = waiBytecodeInstructionSize) :
    encodeInstruction (decodeInstruction src) = src := by
  have h12 : src.length = 12 := h
  have himm : bytes 8 (wordAt 64 8 src 4) = src.drop 4 := by
    rw [LittleEndian.bytes_wordAt src (Nat.le_of_eq h12.symm) (by decide)]
    exact List.take_of_length_le (by rw [List.length_drop, h12])
  simp only [encodeInstruction, decodeInstruction, himm]
  match src, h12 with
  | o :: a :: b :: c :: rest, _ => rfl

/-- The loop of `wai_bytecode_read_file` over `n` records: the instructions and
what follows them, or nothing when a read comes up short. -/
def readRecords : (n : Nat) → List Byte → Option (List.Vector WaiInstruction n × List Byte)
  | 0, rest => some (.nil, rest)
  | n + 1, rest =>
    if rest.length < waiBytecodeInstructionSize then none
    else (readRecords n (rest.drop waiBytecodeInstructionSize)).map fun (code, rest') =>
      (.cons (decodeInstruction (rest.take waiBytecodeInstructionSize)) code, rest')

/-- The reader gets its instructions out of exactly the bytes that encode them. -/
theorem readRecords_eq_some_iff {n : Nat} {l rest : List Byte} {code : List.Vector WaiInstruction n} :
    readRecords n l = some (code, rest) ↔ l = code.toList.flatMap encodeInstruction ++ rest := by
  induction n generalizing l with
  | zero =>
    rw [code.eq_nil]
    simp only [readRecords, Option.some.injEq, Prod.mk.injEq, true_and, List.Vector.toList_nil,
      List.flatMap_nil, List.nil_append]
  | succ n ih =>
    rw [readRecords]
    constructor
    · intro h
      split at h
      · cases h
      · next hlen =>
        obtain ⟨⟨code', rest'⟩, hread, heq⟩ := Option.map_eq_some_iff.mp h
        cases heq
        have hl := ih.mp hread
        have htake : (l.take waiBytecodeInstructionSize).length = waiBytecodeInstructionSize :=
          List.length_take_of_le (Nat.not_lt.mp hlen)
        rw [List.Vector.toList_cons, List.flatMap_cons, encodeInstruction_decode htake,
          List.append_assoc, ← hl, List.take_append_drop]
    · rintro rfl
      obtain ⟨ins, code, rfl⟩ := code.exists_eq_cons
      have hsize := length_encodeInstruction ins
      rw [List.Vector.toList_cons, List.flatMap_cons, List.append_assoc]
      have hlen : ¬ (encodeInstruction ins ++ (code.toList.flatMap encodeInstruction ++ rest)).length <
          waiBytecodeInstructionSize :=
        Nat.not_lt.mpr (hsize ▸ (List.prefix_append _ _).length_le)
      rw [if_neg hlen, ← hsize, List.drop_left, List.take_left, ih.mpr rfl,
        decodeInstruction_encode]
      rfl

/-! ## 3. The header -/

/-- The header with the words that `decode_header` does not fix. -/
def headerBytes (flags : BitVec 32) (codeCount : BitVec 64) : List Byte :=
  waiBytecodeMagic ++ (bytes 2 waiBytecodeVersion ++ (bytes 2 (BitVec.ofNat 16 waiBytecodeHeaderSize) ++
    (bytes 2 (BitVec.ofNat 16 waiBytecodeInstructionSize) ++ (bytes 2 waiBytecodeRegisterCount ++
      (bytes 4 flags ++ (bytes 8 codeCount ++ bytes 8 (0 : BitVec 64)))))))

/-- `encode_header` -/
def encodeHeader (codeCount : BitVec 64) : List Byte :=
  headerBytes 0 codeCount

/-- `decode_header` -/
def decodeHeader (header : List Byte) : Except WaiErrorCode WaiBytecodeInfo :=
  if header.take 4 ≠ waiBytecodeMagic then .error .errParse
  else if wordAt 16 2 header 4 ≠ waiBytecodeVersion ∨
      wordAt 16 2 header 6 ≠ BitVec.ofNat 16 waiBytecodeHeaderSize ∨
      wordAt 16 2 header 8 ≠ BitVec.ofNat 16 waiBytecodeInstructionSize ∨
      wordAt 16 2 header 10 ≠ waiBytecodeRegisterCount ∨
      wordAt 64 8 header 24 ≠ 0 then .error .errParse
  else if h : (wordAt 64 8 header 16).toNat > maxInstructions then .error .errOom
  else .ok {
    version := wordAt 16 2 header 4
    headerSize := wordAt 16 2 header 6
    instructionSize := wordAt 16 2 header 8
    registerCount := wordAt 16 2 header 10
    flags := wordAt 32 4 header 12
    codeCount := wordAt 64 8 header 16
    dataSize := wordAt 64 8 header 24
    code_count_le := Nat.not_lt.mp h }

section Header
variable {header : List Byte} {flags : BitVec 32} {codeCount : BitVec 64}

@[simp] theorem length_headerBytes : (headerBytes flags codeCount).length = waiBytecodeHeaderSize := by
  simp [headerBytes, waiBytecodeMagic, waiBytecodeHeaderSize]

/-- A header of 32 bytes is made of its magic and its words. -/
theorem header_eq_words (h : header.length = waiBytecodeHeaderSize) :
    header = header.take 4 ++ (bytes 2 (wordAt 16 2 header 4) ++ (bytes 2 (wordAt 16 2 header 6) ++
      (bytes 2 (wordAt 16 2 header 8) ++ (bytes 2 (wordAt 16 2 header 10) ++
        (bytes 4 (wordAt 32 4 header 12) ++ (bytes 8 (wordAt 64 8 header 16) ++
          bytes 8 (wordAt 64 8 header 24))))))) := by
  have h32 : header.length = 32 := h
  have hend : (header.drop 24).take 8 = header.drop 24 :=
    List.take_of_length_le (by rw [List.length_drop, h32])
  have hsplit : ∀ offset n, (header.drop offset).take n ++ header.drop (offset + n) =
      header.drop offset := fun offset n => by
    rw [← List.drop_drop]
    exact List.take_append_drop n _
  rw [LittleEndian.bytes_wordAt header (by rw [h32]; decide) (by decide),
    LittleEndian.bytes_wordAt header (by rw [h32]; decide) (by decide),
    LittleEndian.bytes_wordAt header (by rw [h32]; decide) (by decide),
    LittleEndian.bytes_wordAt header (by rw [h32]; decide) (by decide),
    LittleEndian.bytes_wordAt header (by rw [h32]; decide) (by decide),
    LittleEndian.bytes_wordAt header (by rw [h32]; decide) (by decide),
    LittleEndian.bytes_wordAt header (by rw [h32]) (by decide),
    hend, hsplit 16 8, hsplit 12 4, hsplit 10 2, hsplit 8 2, hsplit 6 2, hsplit 4 2,
    List.take_append_drop]

/-- The words of a header, read back. -/
theorem words_headerBytes :
    wordAt 16 2 (headerBytes flags codeCount) 4 = waiBytecodeVersion ∧
    wordAt 16 2 (headerBytes flags codeCount) 6 = BitVec.ofNat 16 waiBytecodeHeaderSize ∧
    wordAt 16 2 (headerBytes flags codeCount) 8 = BitVec.ofNat 16 waiBytecodeInstructionSize ∧
    wordAt 16 2 (headerBytes flags codeCount) 10 = waiBytecodeRegisterCount ∧
    wordAt 32 4 (headerBytes flags codeCount) 12 = flags ∧
    wordAt 64 8 (headerBytes flags codeCount) 16 = codeCount ∧
    wordAt 64 8 (headerBytes flags codeCount) 24 = 0 := by
  have word : ∀ {w n offset : Nat} (v : BitVec w), w ≤ n * 8 →
      (∀ i < n, (headerBytes flags codeCount).getD (offset + i) 0 = LittleEndian.byteAt v i) →
      wordAt w n (headerBytes flags codeCount) offset = v := fun v hw h =>
    (LittleEndian.join_congr h).trans (LittleEndian.join_byteAt v hw)
  refine ⟨?_, ?_, ?_, ?_, ?_, ?_, ?_⟩
  all_goals
    refine word _ (by decide) fun i hi => ?_
    interval_cases i <;> rfl

/-- What `decode_header` reports of an accepted header. -/
def headerInfo (flags : BitVec 32) (codeCount : BitVec 64) (h : codeCount.toNat ≤ maxInstructions) :
    WaiBytecodeInfo where
  version := waiBytecodeVersion
  headerSize := BitVec.ofNat 16 waiBytecodeHeaderSize
  instructionSize := BitVec.ofNat 16 waiBytecodeInstructionSize
  registerCount := waiBytecodeRegisterCount
  flags := flags
  codeCount := codeCount
  dataSize := 0
  code_count_le := h

theorem decodeHeader_ne_ok : decodeHeader header ≠ .error .ok := by
  unfold decodeHeader
  split
  · exact fun h => nomatch h
  · split
    · exact fun h => nomatch h
    · split <;> exact fun h => nomatch h

/-- `decode_header` accepts the headers of `encode_header` with any flags. -/
theorem decodeHeader_ok_iff {info : WaiBytecodeInfo} (hlen : header.length = waiBytecodeHeaderSize) :
    decodeHeader header = .ok info ↔
      ∃ flags codeCount h, header = headerBytes flags codeCount ∧
        info = headerInfo flags codeCount h := by
  constructor
  · intro h
    unfold decodeHeader at h
    split at h
    · cases h
    · next hmagic =>
      split at h
      · cases h
      · next hwords =>
        split at h
        · cases h
        · next hcount =>
          cases h
          simp only [not_or, Classical.not_not] at hmagic hwords
          obtain ⟨h4, h6, h8, h10, h24⟩ := hwords
          have hheader := header_eq_words hlen
          rw [hmagic, h4, h6, h8, h10, h24] at hheader
          refine ⟨wordAt 32 4 header 12, wordAt 64 8 header 16, Nat.not_lt.mp hcount, hheader, ?_⟩
          simp only [headerInfo, h4, h6, h8, h10, h24]
  · rintro ⟨flags, codeCount, hcount, rfl, rfl⟩
    obtain ⟨h4, h6, h8, h10, h12, h16, h24⟩ := @words_headerBytes flags codeCount
    unfold decodeHeader
    have hmagic : (headerBytes flags codeCount).take 4 = waiBytecodeMagic := rfl
    rw [if_neg (not_not_intro hmagic),
      if_neg (by simp [h4, h6, h8, h10, h24]),
      dif_neg (Nat.not_lt.mpr (h16.symm ▸ hcount))]
    simp only [headerInfo, h4, h6, h8, h10, h12, h16, h24]

end Header

end Waivm
