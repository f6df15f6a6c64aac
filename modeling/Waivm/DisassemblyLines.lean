import Waivm.Disassembler
import Waivm.AssemblerOutput

/-!
# The lines of a disassembly

The disassembler prints an instruction in the words that the assembler reads it
from; only a jump has a number where the assembler wants a label.

Results:
1. `tokensOf_operation`, `stripLine_operation`: how the assembler takes a printed
   line apart.
2. `form_of_printed`: what the words of a line say when it is no jump.
3. `form_of_jump`: what they say when the last word is replaced by a label.
-/

namespace Waivm

open CString Printf
open LittleEndian (Byte)

/-! ## 1. Words on a line -/

section Words
variable {mnemonic x y : Text} {operands : List Text}

theorem not_separator_of_word {text : Text} (h : Word text) : ∀ c ∈ text, isSeparator c = false :=
  fun c hc => (special_of_tokenChar (h.chars c hc)).1

theorem splitOnP_word {text : Text} (h : Word text) : text.splitOnP isSeparator = [text] :=
  List.splitOnP_eq_singleton (not_separator_of_word h)

/-- The tokens of a printed line are the mnemonic and the operands. -/
theorem tokensOf_operation (hlength : operands.length ≤ 2)
    (hwords : ∀ word ∈ mnemonic :: operands, Word word) :
    tokensOf (operation mnemonic operands) = mnemonic :: operands := by
  rw [List.forall_mem_cons] at hwords
  obtain ⟨hm, hwords⟩ := hwords
  unfold tokensOf
  match operands, hlength, hwords with
  | [], _, _ =>
    rw [operation, splitOnP_word hm]
    simp [hm.ne_nil]
  | [x], _, hwords =>
    have hx := hwords x List.mem_cons_self
    rw [operation, List.splitOnP_append_cons_of_forall_mem (not_separator_of_word hm) ' ' rfl,
      splitOnP_word hx]
    simp [hm.ne_nil, hx.ne_nil]
  | [x, y], _, hwords =>
    have hx := hwords x List.mem_cons_self
    have hy := hwords y (List.mem_cons_of_mem _ List.mem_cons_self)
    -- between the comma and the blank there is an empty piece
    rw [operation, List.append_assoc, List.cons_append,
      List.splitOnP_append_cons_of_forall_mem (not_separator_of_word hm) ' ' rfl,
      List.splitOnP_append_cons_of_forall_mem (not_separator_of_word hx) ',' rfl,
      ← List.nil_append (' ' :: y),
      List.splitOnP_append_cons_of_forall_mem (fun _ h => absurd h List.not_mem_nil) ' ' rfl,
      splitOnP_word hy]
    simp [hm.ne_nil, hx.ne_nil, hy.ne_nil]

/-- The characters of a printed line. -/
theorem mem_operation {c : Char} (hc : c ∈ operation mnemonic operands) :
    (∃ word ∈ mnemonic :: operands, c ∈ word) ∨ c = ' ' ∨ c = ',' := by
  match operands with
  | [] => exact .inl ⟨mnemonic, List.mem_cons_self, hc⟩
  | [x] =>
    simp only [operation, List.mem_append, List.mem_cons] at hc
    rcases hc with hc | rfl | hc
    · exact .inl ⟨mnemonic, List.mem_cons_self, hc⟩
    · exact .inr (.inl rfl)
    · exact .inl ⟨x, by simp, hc⟩
  | x :: y :: rest =>
    simp only [operation, List.mem_append, List.mem_cons] at hc
    rcases hc with (hc | rfl | hc) | rfl | rfl | hc
    · exact .inl ⟨mnemonic, List.mem_cons_self, hc⟩
    · exact .inr (.inl rfl)
    · exact .inl ⟨x, by simp, hc⟩
    · exact .inr (.inr rfl)
    · exact .inr (.inl rfl)
    · exact .inl ⟨y, by simp, hc⟩

theorem not_mem_operation {c : Char} (hwords : ∀ word ∈ mnemonic :: operands, Word word)
    (hc : isTokenChar c = false) (hblank : c ≠ ' ') (hcomma : c ≠ ',') :
    c ∉ operation mnemonic operands := by
  intro hmem
  rcases mem_operation hmem with ⟨word, hword, hmem⟩ | h | h
  · exact Bool.false_ne_true (hc.symm.trans ((hwords word hword).chars c hmem))
  · exact hblank h
  · exact hcomma h

/-- A printed line begins with the mnemonic and ends with a word. -/
theorem operation_ends (mnemonic : Text) (operands : List Text) :
    (∃ rest, operation mnemonic operands = mnemonic ++ rest) ∧
      ∃ front word, word ∈ mnemonic :: operands ∧ operation mnemonic operands = front ++ word := by
  match operands with
  | [] => exact ⟨⟨[], (List.append_nil _).symm⟩, [], mnemonic, List.mem_cons_self, rfl⟩
  | [x] => exact ⟨⟨_, rfl⟩, mnemonic ++ [' '], x, by simp, by simp [operation]⟩
  | x :: y :: _ =>
    exact ⟨⟨_, List.append_assoc _ _ _⟩, mnemonic ++ ' ' :: x ++ [',', ' '], y, by simp,
      by simp [operation]⟩

/-- A printed line has no comment, and no blanks around it. -/
theorem stripLine_operation (hwords : ∀ word ∈ mnemonic :: operands, Word word) :
    stripLine (operation mnemonic operands) = operation mnemonic operands := by
  have hcomment : (operation mnemonic operands).takeWhile (· != ';') =
      operation mnemonic operands := by
    rw [List.takeWhile_eq_self_iff]
    rintro c hc
    rw [bne_iff_ne]
    rintro rfl
    exact not_mem_operation hwords rfl (by decide) (by decide) hc
  have hfree : ∀ word ∈ mnemonic :: operands, ∀ c ∈ word, isspace c = false :=
    fun word hword c hc => (Bool.or_eq_false_iff.mp (not_separator_of_word (hwords word hword) c hc)).1
  rw [stripLine, hcomment]
  obtain ⟨⟨rest, hrest⟩, front, word, hword, hfront⟩ := operation_ends mnemonic operands
  apply trim_of_ends
  · intro c hc
    rw [hrest, List.head?_append_of_ne_nil _ (hwords _ List.mem_cons_self).ne_nil] at hc
    exact hfree _ List.mem_cons_self c (List.mem_of_mem_head? hc)
  · intro c hc
    rw [hfront, List.getLast?_append_of_ne_nil _ (hwords _ hword).ne_nil] at hc
    exact hfree _ hword c (List.mem_of_getLast? hc)

/-- A printed line is read as the instruction that its words make. -/
theorem lineItem_operation {instr : WaiInstruction} {target : Option Text}
    (hlength : operands.length ≤ 2)
    (h : InstructionForm (mnemonic :: operands) instr target) :
    LineItem (stripLine (operation mnemonic operands)) (.instruction instr target) := by
  have hwords := words_of_form h
  apply LineItem.instruction
  rw [stripLine_operation hwords, tokensOf_operation hlength hwords]
  exact h

end Words

/-! ## 2. The words of an instruction -/

section Printed
variable {ins : WaiInstruction} {opcode : WaiOpcode} {name : Text}

theorem register_printReg {reg : Byte} (h : validReg reg = true) :
    RegisterToken (printReg reg) reg := by
  have hlt : reg.toNat < 8 := by
    revert h
    revert reg
    decide
  have hprint : printReg reg = ['r', Nat.digitChar reg.toNat] := by
    rw [printReg, unsigned, Nat.toDigits_of_lt_base (Nat.lt_trans hlt (by decide))]
  have htoken := RegisterToken.mk ⟨reg.toNat, hlt⟩
  rw [← hprint, BitVec.ofNat_toNat, BitVec.setWidth_eq] at htoken
  exact htoken

/-- The whole range of the immediate operands is printed so that it is read back. -/
theorem integer_signed (imm : WaiValue) : IntegerToken (signed imm.toInt) imm := by
  refine ⟨imm.toInt, literal_signed _, ?_, ?_, (BitVec.ofInt_toInt).symm⟩
  · exact BitVec.le_toInt imm
  · exact BitVec.toInt_lt

theorem memory_register {reg : Byte} (h : validReg reg = true) :
    MemoryToken (bracketed (printReg reg)) (.reg reg) := by
  have hlength : ∀ {text : Text} {reg : Byte}, RegisterToken text reg → text.length ≤ 63 := by
    rintro _ _ ⟨n⟩
    exact Nat.le_of_ble_eq_true rfl
  exact .reg (hlength (register_printReg h)) (register_printReg h)

theorem memory_signed (imm : WaiValue) :
    MemoryToken (bracketed (signed imm.toInt)) (.abs imm) := by
  have hlo : -2 ^ 63 ≤ imm.toInt := BitVec.le_toInt imm
  have hhi : imm.toInt < 2 ^ 63 := BitVec.toInt_lt
  refine .abs ?_ (integer_signed imm)
  exact (length_signed_le (by omega)).trans (by decide)

/-- An instruction is made of its opcode and the fields that the opcode uses. -/
theorem instruction_eq (h : OperandsFit ins) (hop : ins.op = opcode) {a b : Byte} {imm : WaiValue}
    (ha : ins.a = a) (hb : ins.b = b) (himm : ins.imm = imm) :
    { makeInstr opcode with a := a, b := b, imm := imm } = ins := by
  have hvalue : ins.opcode = opcode.value := by
    rw [← hop]
    exact (value_ofByte h.opcode_known).symm
  subst ha hb himm
  obtain ⟨_, a, b, c, imm⟩ := ins
  obtain rfl : c = 0 := h.reserved_zero
  subst hvalue
  rfl

/-! The two tables, the one of the assembler and the one of the disassembler, agree. -/

theorem printed_alu {opcodes : WaiOpcode × WaiOpcode} (hname : (name, opcodes) ∈ aluOpcodes) :
    (ins.op = opcodes.1 → disassembleSwitch ins = printRegReg name ins) ∧
      (ins.op = opcodes.2 → disassembleSwitch ins = printImm name ins) := by
  have hop : ∀ {op}, ins.op = op → WaiOpcode.ofByte ins.opcode = op := id
  fin_cases hname <;>
    exact ⟨fun h => by rw [disassembleSwitch, hop h], fun h => by rw [disassembleSwitch, hop h]⟩

theorem printed_oneRegister (hname : (name, opcode) ∈ oneRegisterOpcodes) (hop : ins.op = opcode) :
    disassembleSwitch ins = printOne name ins := by
  replace hop : WaiOpcode.ofByte ins.opcode = opcode := hop
  fin_cases hname <;> rw [disassembleSwitch, hop]

theorem printed_label (hname : (name, opcode) ∈ labelOpcodes) (hop : ins.op = opcode) :
    disassembleSwitch ins = printTarget name ins := by
  replace hop : WaiOpcode.ofByte ins.opcode = opcode := hop
  fin_cases hname <;> rw [disassembleSwitch, hop]

theorem printed_registerLabel (hname : (name, opcode) ∈ registerLabelOpcodes)
    (hop : ins.op = opcode) : disassembleSwitch ins = printImm name ins := by
  replace hop : WaiOpcode.ofByte ins.opcode = opcode := hop
  fin_cases hname <;> rw [disassembleSwitch, hop]

theorem printed_bare (hname : (name, opcode) ∈ bareOpcodes) (hop : ins.op = opcode) :
    disassembleSwitch ins = name := by
  replace hop : WaiOpcode.ofByte ins.opcode = opcode := hop
  fin_cases hname <;> rw [disassembleSwitch, hop]

/-- Every opcode is in one of the tables of the assembler, or belongs to `load` or `store`. -/
theorem opcode_cases (h : opcode ≠ .invalid) :
    (∃ entry ∈ aluOpcodes, opcode = entry.2.1 ∨ opcode = entry.2.2) ∨
    (opcode = .loadAbs ∨ opcode = .storeAbs) ∨ (opcode = .loadReg ∨ opcode = .storeReg) ∨
    (∃ entry ∈ oneRegisterOpcodes, opcode = entry.2) ∨ (∃ entry ∈ labelOpcodes, opcode = entry.2) ∨
    (∃ entry ∈ registerLabelOpcodes, opcode = entry.2) ∨ ∃ entry ∈ bareOpcodes, opcode = entry.2 := by
  cases opcode with
  | invalid => exact absurd rfl h
  | _ => decide

theorem form_of_eq {tokens : List Text} {instr : WaiInstruction} {target : Option Text}
    (h : InstructionForm tokens instr target) (heq : instr = ins) :
    InstructionForm tokens ins target :=
  heq ▸ h

/-- The line of `ins` is printed in the words of an instruction line that makes `ins`. -/
def PrintedAsForm (ins : WaiInstruction) : Prop :=
  ∃ mnemonic operands, operands.length ≤ 2 ∧ disassembleSwitch ins = operation mnemonic operands ∧
    InstructionForm (mnemonic :: operands) ins none

theorem printed_form_alu {opcodes : WaiOpcode × WaiOpcode} (h : OperandsFit ins)
    (hname : (name, opcodes) ∈ aluOpcodes) (hop : ins.op = opcodes.1 ∨ ins.op = opcodes.2) :
    PrintedAsForm ins := by
  obtain ⟨⟨_, hA, hB, hImm, _⟩, _, hA', hB', _, _⟩ := uses_of_alu _ hname
  rcases hop with hop | hop
  · rw [← hop] at hA hB hImm
    refine ⟨name, [printReg ins.a, printReg ins.b], le_rfl, (printed_alu hname).1 hop, ?_⟩
    exact form_of_eq (.aluReg hname (register_printReg (h.register_a hA))
      (register_printReg (h.register_b hB))) (instruction_eq h hop rfl rfl (h.unused_imm hImm))
  · rw [← hop] at hA' hB'
    refine ⟨name, [printReg ins.a, signed ins.imm.toInt], le_rfl, (printed_alu hname).2 hop, ?_⟩
    exact form_of_eq (.aluImm hname (register_printReg (h.register_a hA')) (integer_signed ins.imm))
      (instruction_eq h hop rfl (h.unused_b hB') rfl)

/-- `load` and `store` with an address. The operands of `store` are printed the other way round. -/
theorem printed_form_abs (h : OperandsFit ins) (hop : ins.op = .loadAbs ∨ ins.op = .storeAbs) :
    PrintedAsForm ins := by
  have hA : ins.op ∈ WaiOpcode.usesA := by rcases hop with hop | hop <;> rw [hop] <;> decide
  have hB : ins.op ∉ WaiOpcode.usesB := by rcases hop with hop | hop <;> rw [hop] <;> decide
  have ha := register_printReg (h.register_a hA)
  have hmem := memory_signed ins.imm
  have hopcode : ∀ {op}, ins.op = op → WaiOpcode.ofByte ins.opcode = op := id
  rcases hop with hop | hop
  · refine ⟨['l', 'o', 'a', 'd'], [printReg ins.a, bracketed (signed ins.imm.toInt)], le_rfl, ?_, ?_⟩
    · rw [disassembleSwitch, hopcode hop]
    · exact form_of_eq (.loadAbs ha hmem) (instruction_eq h hop rfl (h.unused_b hB) rfl)
  · refine ⟨['s', 't', 'o', 'r', 'e'], [bracketed (signed ins.imm.toInt), printReg ins.a], le_rfl, ?_,
      ?_⟩
    · rw [disassembleSwitch, hopcode hop]
    · exact form_of_eq (.storeAbs hmem ha) (instruction_eq h hop rfl (h.unused_b hB) rfl)

/-- `load` and `store` with the address in a register. -/
theorem printed_form_reg (h : OperandsFit ins) (hop : ins.op = .loadReg ∨ ins.op = .storeReg) :
    PrintedAsForm ins := by
  have hA : ins.op ∈ WaiOpcode.usesA := by rcases hop with hop | hop <;> rw [hop] <;> decide
  have hB : ins.op ∈ WaiOpcode.usesB := by rcases hop with hop | hop <;> rw [hop] <;> decide
  have hImm : ins.op ∉ WaiOpcode.usesImm := by rcases hop with hop | hop <;> rw [hop] <;> decide
  have ha := register_printReg (h.register_a hA)
  have hmem := memory_register (h.register_b hB)
  have hopcode : ∀ {op}, ins.op = op → WaiOpcode.ofByte ins.opcode = op := id
  rcases hop with hop | hop
  · refine ⟨['l', 'o', 'a', 'd'], [printReg ins.a, bracketed (printReg ins.b)], le_rfl, ?_, ?_⟩
    · rw [disassembleSwitch, hopcode hop]
    · exact form_of_eq (.loadReg ha hmem) (instruction_eq h hop rfl rfl (h.unused_imm hImm))
  · refine ⟨['s', 't', 'o', 'r', 'e'], [bracketed (printReg ins.b), printReg ins.a], le_rfl, ?_, ?_⟩
    · rw [disassembleSwitch, hopcode hop]
    · exact form_of_eq (.storeReg hmem ha) (instruction_eq h hop rfl rfl (h.unused_imm hImm))

/-- An instruction that is no jump is printed as a line that it is made of. -/
theorem form_of_plain (h : OperandsFit ins) (hjump : ins.op ∉ WaiOpcode.jumps) : PrintedAsForm ins := by
  rcases opcode_cases h.opcode_known with ⟨⟨name, opcodes⟩, hname, hop⟩ | hop | hop |
      ⟨⟨name, opcode⟩, hname, hop⟩ | ⟨⟨name, opcode⟩, hname, hop⟩ |
      ⟨⟨name, opcode⟩, hname, hop⟩ | ⟨⟨name, opcode⟩, hname, hop⟩
  · exact printed_form_alu h hname hop
  · exact printed_form_abs h hop
  · exact printed_form_reg h hop
  · obtain ⟨_, hA, hB, hImm, _⟩ := uses_of_oneRegister _ hname
    rw [← hop] at hA hB hImm
    refine ⟨name, [printReg ins.a], Nat.le_succ 1, printed_oneRegister hname hop, ?_⟩
    exact form_of_eq (.oneRegister hname (register_printReg (h.register_a hA)))
      (instruction_eq h hop rfl (h.unused_b hB) (h.unused_imm hImm))
  -- the other tables are those of the jumps and of the mnemonics without an operand
  · obtain ⟨_, _, _, hmem⟩ := uses_of_label _ hname
    exact absurd (hop ▸ hmem) hjump
  · obtain ⟨_, _, _, hmem⟩ := uses_of_registerLabel _ hname
    exact absurd (hop ▸ hmem) hjump
  · obtain ⟨_, hA, hB, hImm, _⟩ := uses_of_bare _ hname
    rw [← hop] at hA hB hImm
    refine ⟨name, [], Nat.zero_le _, printed_bare hname hop, ?_⟩
    exact form_of_eq (.bare hname)
      (instruction_eq h hop (h.unused_a hA) (h.unused_b hB) (h.unused_imm hImm))

/-- The opcodes of the jumps are in the two tables of mnemonics with a label. -/
theorem jump_cases (h : opcode ∈ WaiOpcode.jumps) :
    (∃ entry ∈ labelOpcodes, opcode = entry.2) ∨ ∃ entry ∈ registerLabelOpcodes, opcode = entry.2 := by
  revert h
  cases opcode <;> decide

/-- A jump is printed as a line that it is made of when a label stands for its target. -/
theorem form_of_jump (h : OperandsFit ins) (hjump : ins.op ∈ WaiOpcode.jumps) :
    ∃ mnemonic before, before.length ≤ 1 ∧
      disassembleSwitch ins = operation mnemonic (before ++ [signed ins.imm.toInt]) ∧
      ∀ label, Identifier label →
        InstructionForm (mnemonic :: (before ++ [label])) { ins with imm := 0 } (some label) := by
  have hfits := h.withTarget hjump 0
  rcases jump_cases hjump with ⟨⟨name, opcode⟩, hname, hop⟩ | ⟨⟨name, opcode⟩, hname, hop⟩
  · obtain ⟨_, hA, hB, _⟩ := uses_of_label _ hname
    rw [← hop] at hA hB
    refine ⟨name, [], Nat.zero_le _, printed_label hname hop, fun label hlabel => ?_⟩
    exact form_of_eq (.labelJump hname hlabel)
      (instruction_eq hfits hop (h.unused_a hA) (h.unused_b hB) rfl)
  · obtain ⟨_, hA, hB, _⟩ := uses_of_registerLabel _ hname
    rw [← hop] at hA hB
    refine ⟨name, [printReg ins.a], le_rfl, printed_registerLabel hname hop, fun label hlabel => ?_⟩
    exact form_of_eq (.registerJump hname (register_printReg (h.register_a hA)) hlabel)
      (instruction_eq hfits hop rfl (h.unused_b hB) rfl)

end Printed

end Waivm
