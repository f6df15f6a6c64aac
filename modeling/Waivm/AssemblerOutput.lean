import Waivm.AssemblerRefinement
import Waivm.VerifierAgreement

/-!
# What the assembler emits

Every line of a source becomes an instruction in which the fields that its
opcode does not use are zero, and the registers are valid. Only the immediate
operands are left for the verifier to refuse: literals, and the targets of
labels with no instruction behind them. The table of labels keeps 63 characters
of a name, so that a jump may find such a label under another name than its own.

Results:
1. `fits_of_form`: the operands of an instruction line.
2. `sharedTarget_eq_iff`: the jumps to the end of the program.
3. `Assembled.outputFits`: the instructions of an accepted source, and what the
   verifier can find wrong with them.
4. `assembler_output_iff`: when the label of a jump to the end is the one that
   is defined there.
-/

namespace Waivm

open CString
open LittleEndian (Byte)

namespace WaiOpcode

/-- Opcodes with a number in `imm`. -/
def usesLiteral : List WaiOpcode :=
  [movImm, addImm, subImm, mulImm, divImm, modImm, andImm, orImm, xorImm, cmpImm, loadAbs, storeAbs,
    shlImm, shrImm]

/-- Opcodes that use `imm`. -/
def usesImm : List WaiOpcode := usesLiteral ++ jumps

end WaiOpcode

/-- The opcode of `ins` is known, its registers are valid, and the fields that the opcode does
not use are zero. -/
structure OperandsFit (ins : WaiInstruction) : Prop where
  reserved_zero : ins.c = 0
  opcode_known : ins.op ≠ .invalid
  register_a : ins.op ∈ WaiOpcode.usesA → validReg ins.a = true
  register_b : ins.op ∈ WaiOpcode.usesB → validReg ins.b = true
  unused_a : ins.op ∉ WaiOpcode.usesA → ins.a = 0
  unused_b : ins.op ∉ WaiOpcode.usesB → ins.b = 0
  unused_imm : ins.op ∉ WaiOpcode.usesImm → ins.imm = 0

/-- An instruction as the assembler emits it into a program of `count` instructions. -/
structure Emitted (count : Nat) (ins : WaiInstruction) : Prop extends OperandsFit ins where
  target : ins.op ∈ WaiOpcode.jumps → 0 ≤ ins.imm.toInt ∧ ins.imm.toNat ≤ count

section Lines
variable {tokens : List Text} {instr : WaiInstruction} {target : Option Text}

/-! ## 1. Instruction lines -/

theorem valid_of_register {text : Text} {reg : Byte} (h : RegisterToken text reg) :
    validReg reg = true := by
  obtain ⟨n⟩ := h
  revert n
  decide

/-- A line makes an instruction of an opcode and of the operands that the opcode uses; the jumps
are the lines with a label. -/
theorem fits_instruction {opcode : WaiOpcode} {a b : Byte} {imm : WaiValue}
    (hknown : opcode ≠ .invalid) (ha : if opcode ∈ WaiOpcode.usesA then validReg a = true else a = 0)
    (hb : if opcode ∈ WaiOpcode.usesB then validReg b = true else b = 0)
    (himm : opcode ∉ WaiOpcode.usesImm → imm = 0)
    (hjump : opcode ∈ WaiOpcode.jumps ↔ target.isSome = true) :
    OperandsFit ⟨opcode.value, a, b, 0, imm⟩ ∧
      ((⟨opcode.value, a, b, 0, imm⟩ : WaiInstruction).op ∈ WaiOpcode.jumps ↔
        target.isSome = true) := by
  have hop : (⟨opcode.value, a, b, 0, imm⟩ : WaiInstruction).op = opcode := ofByte_value opcode
  rw [hop]
  refine ⟨⟨rfl, ?_, ?_, ?_, ?_, ?_, ?_⟩, hjump⟩ <;> rw [hop]
  · exact hknown
  · exact fun h => by rwa [if_pos h] at ha
  · exact fun h => by rwa [if_pos h] at hb
  · exact fun h => by rwa [if_neg h] at ha
  · exact fun h => by rwa [if_neg h] at hb
  · exact himm

/-- What the tables of mnemonics say about the fields that their opcodes use. -/
theorem uses_of_alu : ∀ entry ∈ aluOpcodes,
    (entry.2.1 ≠ .invalid ∧ entry.2.1 ∈ WaiOpcode.usesA ∧ entry.2.1 ∈ WaiOpcode.usesB ∧
      entry.2.1 ∉ WaiOpcode.usesImm ∧ entry.2.1 ∉ WaiOpcode.jumps) ∧
    (entry.2.2 ≠ .invalid ∧ entry.2.2 ∈ WaiOpcode.usesA ∧ entry.2.2 ∉ WaiOpcode.usesB ∧
      entry.2.2 ∈ WaiOpcode.usesLiteral ∧ entry.2.2 ∉ WaiOpcode.jumps) := by
  decide

theorem uses_of_oneRegister : ∀ entry ∈ oneRegisterOpcodes,
    entry.2 ≠ .invalid ∧ entry.2 ∈ WaiOpcode.usesA ∧ entry.2 ∉ WaiOpcode.usesB ∧
      entry.2 ∉ WaiOpcode.usesImm ∧ entry.2 ∉ WaiOpcode.jumps := by
  decide

theorem uses_of_label : ∀ entry ∈ labelOpcodes,
    entry.2 ≠ .invalid ∧ entry.2 ∉ WaiOpcode.usesA ∧ entry.2 ∉ WaiOpcode.usesB ∧
      entry.2 ∈ WaiOpcode.jumps := by
  decide

theorem uses_of_registerLabel : ∀ entry ∈ registerLabelOpcodes,
    entry.2 ≠ .invalid ∧ entry.2 ∈ WaiOpcode.usesA ∧ entry.2 ∉ WaiOpcode.usesB ∧
      entry.2 ∈ WaiOpcode.jumps := by
  decide

theorem uses_of_bare : ∀ entry ∈ bareOpcodes,
    entry.2 ≠ .invalid ∧ entry.2 ∉ WaiOpcode.usesA ∧ entry.2 ∉ WaiOpcode.usesB ∧
      entry.2 ∉ WaiOpcode.usesImm ∧ entry.2 ∉ WaiOpcode.jumps := by
  decide

/-- The operands of an instruction line fit its opcode, and it has a label when it jumps. -/
theorem fits_of_form (h : InstructionForm tokens instr target) :
    OperandsFit instr ∧ (instr.op ∈ WaiOpcode.jumps ↔ target.isSome = true) := by
  cases h with
  | aluReg hname ha hb =>
    obtain ⟨⟨hknown, hA, hB, _, hjump⟩, _⟩ := uses_of_alu _ hname
    exact fits_instruction hknown (by rw [if_pos hA]; exact valid_of_register ha)
      (by rw [if_pos hB]; exact valid_of_register hb) (fun _ => rfl) (by simp [hjump])
  | aluImm hname ha himm =>
    obtain ⟨_, hknown, hA, hB, hImm, hjump⟩ := uses_of_alu _ hname
    exact fits_instruction hknown (by rw [if_pos hA]; exact valid_of_register ha)
      (by rw [if_neg hB]; rfl) (fun h => absurd (List.mem_append_left _ hImm) h) (by simp [hjump])
  | loadReg ha hmem | storeReg hmem ha =>
    cases hmem with
    | reg _ hb =>
      exact fits_instruction (by decide) (valid_of_register ha) (valid_of_register hb)
        (fun _ => rfl) (by decide)
  | loadAbs ha hmem | storeAbs hmem ha =>
    exact fits_instruction (by decide) (valid_of_register ha) rfl
      (fun h => absurd (by decide) h) (by decide)
  | oneRegister hname ha =>
    obtain ⟨hknown, hA, hB, _, hjump⟩ := uses_of_oneRegister _ hname
    exact fits_instruction hknown (by rw [if_pos hA]; exact valid_of_register ha)
      (by rw [if_neg hB]; rfl) (fun _ => rfl) (by simp [hjump])
  -- the target of a jump is filled in later, so its immediate is still zero
  | labelJump hname _ =>
    obtain ⟨hknown, hA, hB, hjump⟩ := uses_of_label _ hname
    exact fits_instruction hknown (by rw [if_neg hA]) (by rw [if_neg hB]) (fun _ => rfl)
      (by simp [hjump])
  | registerJump hname ha _ =>
    obtain ⟨hknown, hA, hB, hjump⟩ := uses_of_registerLabel _ hname
    exact fits_instruction hknown (by rw [if_pos hA]; exact valid_of_register ha)
      (by rw [if_neg hB]; rfl) (fun _ => rfl) (by simp [hjump])
  | bare hname =>
    obtain ⟨hknown, hA, hB, _, hjump⟩ := uses_of_bare _ hname
    exact fits_instruction hknown (by rw [if_neg hA]) (by rw [if_neg hB]) (fun _ => rfl)
      (by simp [hjump])

end Lines

/-! ## 2. Where the jumps go -/

/-- The definition of `label` stands behind the last instruction. -/
def DefinedLast (items : List Item) (label : Text) : Prop :=
  ∃ before after, items = before ++ .label label :: after ∧ instructionLines after = []

/-- An instruction stands behind a definition of `label`. -/
def Followed (items : List Item) (label : Text) : Prop :=
  ∃ before after, items = before ++ .label label :: after ∧ instructionLines after ≠ []

/-- No instruction stands behind a label that the table takes for `name`. -/
def FindsLast (items : List Item) (name : Text) : Prop :=
  ∀ label, storedName label = storedName name → ¬ Followed items label

section Targets
variable {items : List Item} {name : Text} {ins : WaiInstruction} {count : Nat}

theorem mem_of_definedLast (h : DefinedLast items name) : name ∈ labelNames items := by
  obtain ⟨before, after, rfl, _⟩ := h
  exact mem_labelNames_iff.mpr (List.mem_append_right _ List.mem_cons_self)

/-- A label without an instruction behind it stands behind the last one. -/
theorem definedLast_of_not_followed (h : name ∈ labelNames items) (hnot : ¬ Followed items name) :
    DefinedLast items name := by
  obtain ⟨before, after, rfl⟩ := List.append_of_mem (mem_labelNames_iff.mp h)
  exact ⟨before, after, rfl, by_contra fun hne => hnot ⟨before, after, rfl, hne⟩⟩

/-- The items from the first definition of a label on that a reference may mean. -/
theorem split_at_definition {isName : Text → Bool}
    (hfound : ∃ label ∈ labelNames items, isName label = true) :
    ∃ before label after, items = before ++ .label label :: after ∧ isName label = true ∧
      instructionsBefore isName items = (instructionLines before).length := by
  obtain ⟨label, hlabel, hname⟩ := hfound
  induction items with
  | nil => exact absurd hlabel List.not_mem_nil
  | cons item rest ih =>
    cases item with
    | label first =>
      by_cases hfirst : isName first = true
      · refine ⟨[], first, rest, rfl, hfirst, ?_⟩
        rw [instructionsBefore_label, if_pos hfirst]
        rfl
      · have hrest : label ∈ labelNames rest := by
          rcases List.mem_cons.mp hlabel with rfl | hrest
          · exact absurd hname hfirst
          · exact hrest
        obtain ⟨before, label', after, rfl, hlabel', hcount⟩ := ih hrest
        refine ⟨.label first :: before, label', after, rfl, hlabel', ?_⟩
        rw [instructionsBefore_label, if_neg hfirst, hcount]
        rfl
    | instruction instr target =>
      obtain ⟨before, label', after, rfl, hlabel', hcount⟩ := ih hlabel
      refine ⟨.instruction instr target :: before, label', after, rfl, hlabel', ?_⟩
      rw [instructionsBefore_instruction, hcount]
      rfl

/-- The first definition comes no later than any other. -/
theorem instructionsBefore_append_le {isName : Text → Bool} {label : Text}
    (h : isName label = true) (before after : List Item) :
    instructionsBefore isName (before ++ .label label :: after) ≤
      (instructionLines before).length := by
  induction before with
  | nil =>
    rw [List.nil_append, instructionsBefore_label, if_pos h]
    exact Nat.zero_le _
  | cons item rest ih =>
    cases item with
    | label first =>
      rw [List.cons_append, instructionsBefore_label]
      split
      · exact Nat.zero_le _
      · exact ih
    | instruction instr target =>
      rw [List.cons_append, instructionsBefore_instruction]
      exact Nat.succ_le_succ ih

theorem length_instructionLines_split (before after : List Item) (label : Text) :
    (instructionLines (before ++ .label label :: after)).length =
      (instructionLines before).length + (instructionLines after).length := by
  rw [instructionLines_append, List.length_append]
  rfl

/-- The target of a reference is the number of instructions exactly when no instruction stands
behind a label that the table takes for it. -/
theorem sharedTarget_eq_iff
    (hfound : ∃ label ∈ labelNames items, storedName label = storedName name) :
    sharedTarget items name = (instructionLines items).length ↔ FindsLast items name := by
  constructor
  · rintro hlast label hshared ⟨before, after, rfl, hafter⟩
    have hle : sharedTarget (before ++ .label label :: after) name ≤ (instructionLines before).length :=
      instructionsBefore_append_le (decide_eq_true hshared) before after
    rw [hlast, length_instructionLines_split] at hle
    exact hafter (List.eq_nil_of_length_eq_zero (by omega))
  · intro hlast
    obtain ⟨before, label, after, rfl, hlabel, hcount⟩ :=
      @split_at_definition items (fun label => storedName label = storedName name) (by simpa using hfound)
    have hafter : instructionLines after = [] := by
      by_contra hne
      exact hlast label (of_decide_eq_true hlabel) ⟨before, after, rfl, hne⟩
    rw [length_instructionLines_split, hafter]
    exact hcount

theorem OperandsFit.withTarget (h : OperandsFit ins) (hop : ins.op ∈ WaiOpcode.jumps)
    (imm : WaiValue) : OperandsFit { ins with imm := imm } :=
  { h with unused_imm := fun hunused => absurd (List.mem_append_right _ hop) hunused }

/-- The instruction of a line, in a program of the instruction lines `items`. -/
theorem emitted_of_line {line : WaiInstruction × Option Text} (hcount : count ≤ maxInstructions)
    (hfits : OperandsFit line.1 ∧ (line.1.op ∈ WaiOpcode.jumps ↔ line.2.isSome = true))
    {target : Text → Nat} (htarget : ∀ name, target name ≤ count) :
    Emitted count (linkLine target line) := by
  obtain ⟨instr, reference⟩ := line
  obtain ⟨hfit, hjump⟩ := hfits
  cases reference with
  | none => exact ⟨hfit, fun hop => absurd (hjump.mp hop) Bool.false_ne_true⟩
  | some name =>
    refine ⟨hfit.withTarget (hjump.mpr rfl) _, fun _ => ?_⟩
    have hlt : target name < 2 ^ 63 :=
      Nat.lt_of_le_of_lt ((htarget name).trans hcount) (by decide)
    have hnat : (BitVec.ofNat 64 (target name)).toNat = target name := by
      rw [BitVec.toNat_ofNat]
      exact Nat.mod_eq_of_lt (Nat.lt_trans hlt (by decide))
    show 0 ≤ (BitVec.ofNat 64 (target name)).toInt ∧ (BitVec.ofNat 64 (target name)).toNat ≤ count
    rw [BitVec.toInt_eq_toNat_of_lt (by omega), hnat]
    exact ⟨Int.natCast_nonneg _, htarget name⟩

end Targets

/-! ## 3. What the verifier finds -/

/-- What the verifier can find wrong with an emitted instruction. -/
theorem emitted_error {count : Nat} {ins : WaiInstruction} {e : WaiErrorCode}
    (h : Emitted count ins) (hv : validateInstruction count ins = e) (hne : e ≠ .ok) :
    (e = .errBadJump ∧ ins.op ∈ WaiOpcode.jumps ∧ ins.imm.toNat = count) ∨
    (e = .errDivZero ∧ (ins.op = .divImm ∨ ins.op = .modImm) ∧ ins.imm = 0) ∨
    (e = .errMemoryOob ∧ (ins.op = .loadAbs ∨ ins.op = .storeAbs) ∧ ¬ ValidAddress ins.imm) ∨
    (e = .errBadShift ∧ (ins.op = .shlImm ∨ ins.op = .shrImm) ∧ ¬ ValidShift ins.imm) := by
  cases defect_of_error hv hne with
  | reserved hc => exact absurd h.reserved_zero hc
  | opcode hop => exact absurd hop h.opcode_known
  | register hop hreg =>
    rw [(instructionRegistersValid_iff hop).mpr ⟨h.register_a, h.register_b⟩] at hreg
    cases hreg
  | target _ hop htarget =>
    obtain ⟨hle, hcount⟩ := h.target hop
    refine .inl ⟨rfl, hop, ?_⟩
    rcases htarget with hneg | hge
    · exact absurd hle (Int.not_le.mpr hneg)
    · exact Nat.le_antisymm hcount hge
  | divisor _ hop h0 => exact .inr (.inl ⟨rfl, hop, h0⟩)
  | address _ hop haddr => exact .inr (.inr (.inl ⟨rfl, hop, haddr⟩))
  | shift _ hop hshift => exact .inr (.inr (.inr ⟨rfl, hop, hshift⟩))

/-- How the verifier can reject what the assembler makes of an instruction line. `Last` holds of
the labels behind the last instruction. -/
inductive Rejection (Last : Text → Prop) : WaiErrorCode → WaiInstruction × Option Text → Prop
  | trailingLabel {instr : WaiInstruction} {name : Text} :
      Last name → Rejection Last .errBadJump (instr, some name)
  | zeroDivisor {instr : WaiInstruction} :
      instr.op = .divImm ∨ instr.op = .modImm → instr.imm = 0 →
      Rejection Last .errDivZero (instr, none)
  | address {instr : WaiInstruction} :
      instr.op = .loadAbs ∨ instr.op = .storeAbs → ¬ ValidAddress instr.imm →
      Rejection Last .errMemoryOob (instr, none)
  | shift {instr : WaiInstruction} :
      instr.op = .shlImm ∨ instr.op = .shrImm → ¬ ValidShift instr.imm →
      Rejection Last .errBadShift (instr, none)

/-- The program of a source that says `items` consists of emitted instructions. A jump to its end
is one to a label of which `Last` holds, and the verifier finds nothing but such a jump, or a
literal operand out of its range. -/
structure OutputFits (items : List Item) (Last : Text → Prop) (program : OwnedProgram) : Prop where
  emitted : ∀ ins ∈ program.instructions, Emitted program.count ins
  trailing : ∀ (i : Nat) (ins : WaiInstruction), program.instructions[i]? = some ins →
    ins.op ∈ WaiOpcode.jumps → ins.imm.toNat = program.count →
    ∃ instr name, (instructionLines items)[i]? = some (instr, some name) ∧ Last name
  rejected : ∀ e report, waiVerifyProgram program.toWaiProgram = (e, report) →
    e = .ok ∨ ∃ line, (instructionLines items)[report.ip]? = some line ∧ Rejection Last e line

/-- A label that satisfies `Last` may be replaced by one that satisfies `Last'`, for the names
that jumps refer to. -/
theorem OutputFits.imp {items : List Item} {Last Last' : Text → Prop} {program : OwnedProgram}
    (h : OutputFits items Last program)
    (himp : ∀ name ∈ references items, Last name → Last' name) :
    OutputFits items Last' program := by
  refine ⟨h.emitted, fun i ins hget hop hlast => ?_, fun e report hverify => ?_⟩
  · obtain ⟨instr, name, hline, hname⟩ := h.trailing i ins hget hop hlast
    have href : name ∈ references items :=
      mem_references_iff.mpr ⟨instr, List.mem_of_getElem? hline⟩
    exact ⟨instr, name, hline, himp name href hname⟩
  · rcases h.rejected e report hverify with hok | ⟨line, hline, hrejected⟩
    · exact .inl hok
    · refine .inr ⟨line, hline, ?_⟩
      cases hrejected with
      | @trailingLabel instr name hname =>
        have href : name ∈ references items :=
          mem_references_iff.mpr ⟨instr, List.mem_of_getElem? hline⟩
        exact .trailingLabel (himp name href hname)
      | zeroDivisor hop hzero => exact .zeroDivisor hop hzero
      | address hop haddr => exact .address hop haddr
      | shift hop hshift => exact .shift hop hshift

/-- `program` is what the assembler makes of a source that says `items`. -/
structure Assembled (source : Text) (items : List Item) (program : OwnedProgram) : Prop where
  reads : ReadsAs (sourceLines source) items
  accepts : TableAccepts items
  instructions : program.instructions = (instructionLines items).map (linkLine (sharedTarget items))

theorem assembled_of_accepted {alloc : AssemblerAlloc} {source : Text}
    (h : (waiAssembleSource alloc source).1.error = .ok) :
    ∃ items, Assembled source items (waiAssembleSource alloc source).2 := by
  obtain ⟨items, hreads, haccepts, hprogram⟩ := assembled_items h
  exact ⟨items, hreads, haccepts, hprogram⟩

namespace Assembled
variable {source : Text} {items : List Item} {program : OwnedProgram}

theorem count_eq (h : Assembled source items program) :
    program.count = (instructionLines items).length := by
  rw [OwnedProgram.count_eq_length, h.instructions, List.length_map]

/-- The instruction of a line of the program. -/
theorem getElem?_iff (h : Assembled source items program) {i : Nat} {ins : WaiInstruction} :
    program.instructions[i]? = some ins ↔
      ∃ line, (instructionLines items)[i]? = some line ∧
        linkLine (sharedTarget items) line = ins := by
  rw [h.instructions, List.getElem?_map]
  exact Option.map_eq_some_iff

/-- The operands of every instruction line of a source fit. -/
theorem fits (h : Assembled source items program) {line : WaiInstruction × Option Text}
    (hline : line ∈ instructionLines items) :
    OperandsFit line.1 ∧ (line.1.op ∈ WaiOpcode.jumps ↔ line.2.isSome = true) := by
  obtain ⟨instr, target⟩ := line
  obtain ⟨text, _, hitem⟩ := exists_line_of_readsAs h.reads (mem_instructionLines_iff.mp hline)
  cases hitem with
  | instruction h => exact fits_of_form h

theorem emitted (h : Assembled source items program) :
    ∀ ins ∈ program.instructions, Emitted program.count ins := by
  intro ins hins
  rw [h.instructions] at hins
  obtain ⟨line, hline, rfl⟩ := List.mem_map.mp hins
  refine emitted_of_line (WaiProgram.count_le _) (h.fits hline) fun name => ?_
  rw [h.count_eq]
  exact instructionsBefore_le _ _

/-- The immediate of a jump is the number of instructions exactly when the table finds a label
behind the last one. -/
theorem target_eq_count_iff (h : Assembled source items program) {instr : WaiInstruction}
    {name : Text} (hline : (instr, some name) ∈ instructionLines items) :
    (linkLine (sharedTarget items) (instr, some name)).imm.toNat = program.count ↔
      FindsLast items name := by
  have hlt : sharedTarget items name < 2 ^ 64 :=
    calc
      sharedTarget items name ≤ (instructionLines items).length := instructionsBefore_le _ _
      _ = program.count := h.count_eq.symm
      _ ≤ maxInstructions := WaiProgram.count_le _
      _ < 2 ^ 64 := maxInstructions_lt
  have himm : (linkLine (sharedTarget items) (instr, some name)).imm.toNat = sharedTarget items name :=
    Nat.mod_eq_of_lt hlt
  rw [himm, h.count_eq]
  exact sharedTarget_eq_iff (h.accepts.found name (mem_references_iff.mpr ⟨instr, hline⟩))

/-- A jump to the end of the program is one to a label behind the last instruction. -/
theorem trailing (h : Assembled source items program) {line : WaiInstruction × Option Text}
    (hline : line ∈ instructionLines items)
    (hop : (linkLine (sharedTarget items) line).op ∈ WaiOpcode.jumps)
    (hlast : (linkLine (sharedTarget items) line).imm.toNat = program.count) :
    ∃ instr name, line = (instr, some name) ∧ FindsLast items name := by
  obtain ⟨instr, target⟩ := line
  cases target with
  | none => exact absurd ((h.fits hline).2.mp hop) Bool.false_ne_true
  | some name => exact ⟨instr, name, rfl, (h.target_eq_count_iff hline).mp hlast⟩

/-- The instruction of a line that refers to no label is that of the program. -/
theorem line_of_not_jump (h : Assembled source items program)
    {line : WaiInstruction × Option Text} (hline : line ∈ instructionLines items)
    {target : Text → Nat} (hop : (linkLine target line).op ∉ WaiOpcode.jumps) :
    line = (linkLine target line, none) := by
  obtain ⟨instr, reference⟩ := line
  cases reference with
  | none => rfl
  | some name => exact absurd ((h.fits hline).2.mpr rfl) hop

/-- What the verifier finds wrong with a line is a trailing label or a literal. -/
theorem rejection (h : Assembled source items program) {line : WaiInstruction × Option Text}
    (hline : line ∈ instructionLines items)
    (hemitted : Emitted program.count (linkLine (sharedTarget items) line))
    {e : WaiErrorCode} (hne : e ≠ .ok)
    (herror : validateInstruction program.count (linkLine (sharedTarget items) line) = e) :
    Rejection (FindsLast items) e line := by
  -- an instruction with a literal operand is the one that its line says
  have hliteral : ∀ {op op' : WaiOpcode}, op ∉ WaiOpcode.jumps → op' ∉ WaiOpcode.jumps →
      (linkLine (sharedTarget items) line).op = op ∨ (linkLine (sharedTarget items) line).op = op' →
      line = (linkLine (sharedTarget items) line, none) := by
    intro op op' hop hop' hcase
    refine h.line_of_not_jump hline ?_
    rcases hcase with h | h <;> rw [h] <;> assumption
  rcases emitted_error hemitted herror hne with ⟨rfl, hop, hlast⟩ | ⟨rfl, hop, hzero⟩ |
      ⟨rfl, hop, haddr⟩ | ⟨rfl, hop, hshift⟩
  · obtain ⟨instr, name, rfl, hname⟩ := h.trailing hline hop hlast
    exact .trailingLabel hname
  · rw [hliteral (by decide) (by decide) hop]
    exact .zeroDivisor hop hzero
  · rw [hliteral (by decide) (by decide) hop]
    exact .address hop haddr
  · rw [hliteral (by decide) (by decide) hop]
    exact .shift hop hshift

/-- The program of an accepted source fits, when a label behind the last instruction is one that
the table finds there. -/
theorem outputFits (h : Assembled source items program) :
    OutputFits items (FindsLast items) program := by
  refine ⟨h.emitted, ?_, ?_⟩
  · intro i ins hget hop hlast
    obtain ⟨line, hline, rfl⟩ := h.getElem?_iff.mp hget
    obtain ⟨instr, name, rfl, hname⟩ := h.trailing (List.mem_of_getElem? hline) hop hlast
    exact ⟨instr, name, hline, hname⟩
  · intro e report hverify
    unfold waiVerifyProgram at hverify
    rw [if_neg (OwnedProgram.not_null _)] at hverify
    cases hv : verifyFrom program.toWaiProgram 0 program.instructions with
    | ok u =>
      rw [hv] at hverify
      cases hverify
      exact .inl rfl
    | error report' =>
      rw [hv] at hverify
      cases hverify
      -- the verifier stopped at an instruction to which the validator gives the same error
      obtain ⟨⟨ins, hget, herror⟩, _⟩ := verifyFrom_stops hv
      obtain ⟨line, hline, rfl⟩ := h.getElem?_iff.mp hget
      exact .inr ⟨line, hline, h.rejection (List.mem_of_getElem? hline)
        (h.emitted _ (List.mem_of_getElem? hget)) (reportsErrors_from _ hv) herror⟩

end Assembled

/-! ## 4. Labels that are not defined -/

/-- Whatever a jump refers to is defined, or an instruction stands behind a label that shares
its first 63 characters. -/
def UndefinedHarmless (items : List Item) : Prop :=
  ∀ name ∈ references items, name ∈ labelNames items ∨
    ∃ label, label.take 63 = name.take 63 ∧ Followed items label

/-- A jump to the end of an accepted program is one to a label behind the last instruction
exactly when the names that are not defined are harmless. -/
theorem assembler_output_iff {alloc : AssemblerAlloc} {source : Text}
    (h : (waiAssembleSource alloc source).1.error = .ok) :
    ∃ items, ReadsAs (sourceLines source) items ∧
      (OutputFits items (DefinedLast items) (waiAssembleSource alloc source).2 ↔
        UndefinedHarmless items) := by
  obtain ⟨items, hassembled⟩ := assembled_of_accepted h
  refine ⟨items, hassembled.reads, ?_⟩
  constructor
  · intro hfits name hname
    rw [or_iff_not_imp_left]
    intro hundefined
    by_contra hnone
    have hlast : FindsLast items name :=
      fun label hshared hfollowed => hnone ⟨label, hshared, hfollowed⟩
    obtain ⟨instr, hmem⟩ := mem_references_iff.mp hname
    obtain ⟨i, hline⟩ := List.mem_iff_getElem?.mp hmem
    -- the jump goes to the end, and so its own label would be defined there
    obtain ⟨instr', name', hline', hdefined⟩ := hfits.trailing i _
      (hassembled.getElem?_iff.mpr ⟨_, hline, rfl⟩) ((hassembled.fits hmem).2.mpr rfl)
      ((hassembled.target_eq_count_iff hmem).mpr hlast)
    cases hline.symm.trans hline'
    exact hundefined (mem_of_definedLast hdefined)
  · intro hharmless
    refine hassembled.outputFits.imp fun name hname hlast => ?_
    rcases hharmless name hname with hdefined | ⟨label, hshared, hfollowed⟩
    · exact definedLast_of_not_followed hdefined (hlast name rfl)
    · exact absurd hfollowed (hlast label hshared)

/-- `jmp a`, and the label `a` behind it. -/
def trailingSource : Text :=
  ['j', 'm', 'p', ' ', 'a', '\n', 'a', ':', '\n']

theorem trailing_reads : ReadsAs (sourceLines trailingSource)
    [.instruction (makeInstr .jmp) (some ['a']), .label ['a']] := by
  have hjump : LineItem ['j', 'm', 'p', ' ', 'a'] (.instruction (makeInstr .jmp) (some ['a'])) :=
    (lineItem_of_no_colon (by decide)).mpr ⟨_, _, by decide, rfl⟩
  have hlabel : LineItem (['a'] ++ [':']) (.label ['a']) :=
    (lineItem_of_colon fun c hc => by cases hc; rfl).mpr ⟨by decide, by decide⟩
  have hlines : sourceLines trailingSource =
      [['j', 'm', 'p', ' ', 'a'], ['a'] ++ [':'], []] := by decide
  rw [hlines]
  exact .item hjump (.item hlabel (.blank nofun .nil))

/-- The jump of `trailingSource` is refused, and its label stands behind the last instruction. -/
theorem assembler_output_iff_trailing :
    (waiVerifyProgram (waiAssembleSource .unlimited trailingSource).2.toWaiProgram).1 =
      .errBadJump ∧
    ∃ items, ReadsAs (sourceLines trailingSource) items ∧
      OutputFits items (DefinedLast items) (waiAssembleSource .unlimited trailingSource).2 := by
  obtain ⟨items, hreads, hiff⟩ := @assembler_output_iff .unlimited trailingSource (by decide +kernel)
  refine ⟨by decide +kernel, items, hreads, hiff.mpr fun name hname => .inl ?_⟩
  obtain rfl := readsAs_unique hreads trailing_reads
  exact hname

/-- The jump of `confusedSource` goes to the end of the program, and nothing defines its label. -/
theorem undefined_label_trails :
    (waiAssembleSource .unlimited confusedSource).1.error = .ok ∧
    ∀ items, ReadsAs (sourceLines confusedSource) items →
      ¬ OutputFits items (DefinedLast items) (waiAssembleSource .unlimited confusedSource).2 := by
  refine ⟨by decide, fun items hitems hfits => ?_⟩
  obtain rfl := readsAs_unique hitems confused_reads
  obtain ⟨instr, name, hline, hlast⟩ := hfits.trailing 0 ⟨WaiOpcode.jmp.value, 0, 0, 0, 1⟩
    (by decide) (by decide) (by decide)
  cases hline
  have hdefined := mem_of_definedLast hlast
  revert hdefined
  decide

end Waivm
