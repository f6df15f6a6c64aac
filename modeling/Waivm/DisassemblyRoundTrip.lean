import Waivm.DisassemblyLines

/-!
# Disassembly and assembly

The text of a disassembly becomes a source text when the indices are dropped, and
labels stand for the targets of the jumps: the jumps name them, and a line before the
instruction defines them (`relabel`).

Results:
1. `relabel`: the source text that a disassembly becomes.
2. `relabelled_line`: an instruction is read from its line, with a label for its target.
3. `readsAs_relabel`, `targets_relabelled`: the lines of the text, and where its labels stand.
4. `disassembly_round_trip`: the assembler makes the same program of it.
-/

namespace Waivm

open CString Printf
open LittleEndian (Byte)

/-! ## 1. The source text of a disassembly -/

/-- The lines of a text in which every line ends in a newline. -/
def textLines (text : Text) : List Text :=
  (text.splitOn '\n').dropLast

/-- A line without the index before it, a number and two blanks. -/
def dropIndex (line : Text) : Text :=
  (line.dropWhile isdigit).drop 2

/-- The mnemonics whose last operand is a target. -/
def jumpMnemonics : List Text :=
  [['j', 'm', 'p'], ['j', 'z'], ['j', 'n', 'z'], ['j', 'e'], ['j', 'n', 'e'], ['c', 'a', 'l', 'l']]

/-- The number `N` of the instruction that a line jumps to: its last word. -/
def numericTarget (line : Text) : Option Text :=
  if line.takeWhile (· != ' ') ∈ jumpMnemonics then some (line.rtakeWhile (· != ' ')) else none

/-- The label `L_N`. -/
def targetLabel (number : Text) : Text :=
  'L' :: '_' :: number

/-- A line with `L_N` in place of the target `N`. -/
def relabelLine (line : Text) : Text :=
  match numericTarget line with
  | none => line
  | some number => line.rdropWhile (· != ' ') ++ targetLabel number

/-- The line `L_N:`, when `N` is among the targets. -/
def labelLine (targets : List Text) (n : Nat) : List Text :=
  if unsigned 10 n ∈ targets then [targetLabel (unsigned 10 n) ++ [':']] else []

/-- The instruction lines from number `n` on, with the lines of the labels between them
and behind the last one. -/
def insertLabels (targets : List Text) : Nat → List Text → List Text
  | n, [] => labelLine targets n
  | n, line :: rest => labelLine targets n ++ line :: insertLabels targets (n + 1) rest

/-- The source text that the text of a disassembly becomes. -/
def relabel (disassembly : Text) : Text :=
  let lines := (textLines disassembly).map dropIndex
  (insertLabels (lines.filterMap numericTarget) 0 (lines.map relabelLine)).flatMap (· ++ ['\n'])

/-! ## 2. One line -/

section Line
variable {mnemonic : Text} {operands before : List Text} {ins : WaiInstruction} {count : Nat}

/-- The mnemonics of the jumps are those of the lines with a label. -/
theorem jumpMnemonic_iff {instr : WaiInstruction} {target : Option Text}
    (h : InstructionForm (mnemonic :: operands) instr target) :
    mnemonic ∈ jumpMnemonics ↔ target.isSome = true := by
  have halu : ∀ entry ∈ aluOpcodes, entry.1 ∉ jumpMnemonics := by decide
  have hone : ∀ entry ∈ oneRegisterOpcodes, entry.1 ∉ jumpMnemonics := by decide
  have hbare : ∀ entry ∈ bareOpcodes, entry.1 ∉ jumpMnemonics := by decide
  have hlabel : ∀ entry ∈ labelOpcodes, entry.1 ∈ jumpMnemonics := by decide
  have hregister : ∀ entry ∈ registerLabelOpcodes, entry.1 ∈ jumpMnemonics := by decide
  cases h with
  | aluReg hname | aluImm hname => simpa using halu _ hname
  | loadReg | loadAbs | storeReg | storeAbs => decide
  | oneRegister hname => simpa using hone _ hname
  | labelJump hname => simpa using hlabel _ hname
  | registerJump hname => simpa using hregister _ hname
  | bare hname => simpa using hbare _ hname

theorem ne_blank_of_word {text : Text} (h : Word text) : ∀ c ∈ text, (c != ' ') = true := by
  intro c hc
  rw [bne_iff_ne]
  rintro rfl
  exact absurd (h.chars _ hc) Bool.false_ne_true

/-- What stands before the first blank of a printed line. -/
theorem takeWhile_operation (h : Word mnemonic) :
    (operation mnemonic operands).takeWhile (· != ' ') = mnemonic := by
  have hword := ne_blank_of_word h
  match operands with
  | [] => exact List.takeWhile_eq_self_iff.mpr hword
  | [x] =>
    rw [operation, List.takeWhile_append_of_pos hword, List.takeWhile_cons_of_neg (by simp),
      List.append_nil]
  | x :: y :: _ =>
    rw [operation, List.append_assoc, List.takeWhile_append_of_pos hword, List.cons_append,
      List.takeWhile_cons_of_neg (by simp), List.append_nil]

/-- The last word of a printed line, and what stands before it. -/
theorem operation_concat (hlength : before.length ≤ 1) :
    ∃ front, ∀ x, operation mnemonic (before ++ [x]) = front ++ ' ' :: x := by
  match before, hlength with
  | [], _ => exact ⟨mnemonic, fun _ => rfl⟩
  | [y], _ => exact ⟨mnemonic ++ ' ' :: y ++ [','], fun x => by simp [operation]⟩

theorem last_word {front text : Text} (h : ∀ c ∈ text, (c != ' ') = true) :
    (front ++ ' ' :: text).rtakeWhile (· != ' ') = text ∧
      (front ++ ' ' :: text).rdropWhile (· != ' ') = front ++ [' '] := by
  have hreverse : ∀ c ∈ text.reverse, (c != ' ') = true := fun c hc => h c (List.mem_reverse.mp hc)
  have hsplit : (front ++ ' ' :: text).reverse = text.reverse ++ ' ' :: front.reverse := by simp
  rw [List.rtakeWhile, List.rdropWhile, hsplit, List.takeWhile_append_of_pos hreverse,
    List.dropWhile_append_of_pos hreverse, List.takeWhile_cons_of_neg (by simp),
    List.dropWhile_cons_of_neg (by simp)]
  simp

theorem newline_not_mem (h : ∀ word ∈ mnemonic :: operands, Word word) :
    '\n' ∉ operation mnemonic operands :=
  not_mem_operation h rfl (by decide) (by decide)

theorem identifier_targetLabel (n : Nat) : Identifier (targetLabel (unsigned 10 n)) := by
  refine ⟨'L', '_' :: unsigned 10 n, rfl, .inl rfl, List.forall_mem_cons.mpr ⟨.inr rfl, ?_⟩⟩
  exact fun c hc => .inl (alnum_of_digit (isdigit_of_mem_unsigned hc))

/-- What the assembler makes of the line of an instruction: a jump is without its target,
and names a label for it. -/
def unlinked (ins : WaiInstruction) : WaiInstruction × Option Text :=
  if ins.op ∈ WaiOpcode.jumps then
    ({ ins with imm := 0 }, some (targetLabel (unsigned 10 ins.imm.toNat)))
  else (ins, none)

/-- What the printed line of an instruction is good for. -/
structure Reassembles (ins : WaiInstruction) (line : Text) : Prop where
  no_newline : '\n' ∉ line
  numericTarget_eq : numericTarget line =
    if ins.op ∈ WaiOpcode.jumps then some (unsigned 10 ins.imm.toNat) else none
  relabelled_no_newline : '\n' ∉ relabelLine line
  reads : LineItem (stripLine (relabelLine line)) (.instruction (unlinked ins).1 (unlinked ins).2)

theorem reassembles_plain (h : OperandsFit ins) (hjump : ins.op ∉ WaiOpcode.jumps) :
    Reassembles ins (disassembleSwitch ins) := by
  obtain ⟨mnemonic, operands, hlength, hline, hform⟩ := form_of_plain h hjump
  have hwords := words_of_form hform
  have htarget : numericTarget (disassembleSwitch ins) = none := by
    rw [numericTarget, hline, takeWhile_operation (hwords _ List.mem_cons_self), if_neg]
    exact fun hmem => Bool.false_ne_true ((jumpMnemonic_iff hform).mp hmem)
  have hsame : relabelLine (disassembleSwitch ins) = disassembleSwitch ins := by
    rw [relabelLine, htarget]
  refine ⟨?_, ?_, ?_, ?_⟩
  · exact hline ▸ newline_not_mem hwords
  · rw [htarget, if_neg hjump]
  · rw [hsame, hline]
    exact newline_not_mem hwords
  · rw [hsame, hline, unlinked, if_neg hjump]
    exact lineItem_operation hlength hform

theorem reassembles_jump (h : OperandsFit ins) (hjump : ins.op ∈ WaiOpcode.jumps)
    (hpos : 0 ≤ ins.imm.toInt) : Reassembles ins (disassembleSwitch ins) := by
  obtain ⟨mnemonic, before, hlength, hline, hforms⟩ := form_of_jump h hjump
  have hform := hforms _ (identifier_targetLabel ins.imm.toNat)
  have hwords := words_of_form hform
  obtain ⟨front, hfront⟩ := @operation_concat mnemonic before hlength
  -- the target is a word as well
  have hnumber : Word (signed ins.imm.toInt) := word_of_integer (integer_signed ins.imm)
  have hprinted : ∀ word ∈ mnemonic :: (before ++ [signed ins.imm.toInt]), Word word := by
    intro word hword
    rw [← List.cons_append, List.mem_append, List.mem_singleton] at hword
    rcases hword with hword | rfl
    · exact hwords word (List.cons_append ▸ List.mem_append_left _ hword)
    · exact hnumber
  have hdigits : signed ins.imm.toInt = unsigned 10 ins.imm.toNat := by
    rw [signed_of_nonneg hpos, toInt_eq_toNat_of_nonneg hpos, Int.toNat_natCast]
  obtain ⟨hlast, hrest⟩ := @last_word front _ (ne_blank_of_word hnumber)
  have htarget : numericTarget (disassembleSwitch ins) = some (unsigned 10 ins.imm.toNat) := by
    rw [numericTarget, hline, takeWhile_operation (hwords _ List.mem_cons_self),
      if_pos ((jumpMnemonic_iff hform).mpr rfl), hfront, hlast, hdigits]
  have hlabel : relabelLine (disassembleSwitch ins) =
      operation mnemonic (before ++ [targetLabel (unsigned 10 ins.imm.toNat)]) := by
    rw [relabelLine, htarget, hline, hfront, hfront]
    simp only [hrest, List.append_assoc, List.singleton_append]
  refine ⟨?_, ?_, ?_, ?_⟩
  · exact hline ▸ newline_not_mem hprinted
  · rw [htarget, if_pos hjump]
  · exact hlabel ▸ newline_not_mem hwords
  · rw [hlabel, unlinked, if_pos hjump]
    exact lineItem_operation (by simpa using hlength) hform

/-- An emitted instruction is read from its line, with a label for its target. -/
theorem relabelled_line (h : Emitted count ins) : Reassembles ins (disassembleSwitch ins) := by
  by_cases hjump : ins.op ∈ WaiOpcode.jumps
  · exact reassembles_jump h.toOperandsFit hjump (h.target hjump).1
  · exact reassembles_plain h.toOperandsFit hjump

end Line

/-! ## 3. The lines of the text -/

section Text
variable {lines : List Text} {program : List WaiInstruction} {targets : List Text} {count n : Nat}

/-- A text of lines that end in a newline has these lines, and an empty one behind them. -/
theorem splitOn_lines (h : ∀ line ∈ lines, '\n' ∉ line) :
    (lines.flatMap (· ++ ['\n'])).splitOn '\n' = lines ++ [[]] := by
  induction lines with
  | nil => rfl
  | cons line rest ih =>
    rw [List.forall_mem_cons] at h
    rw [List.flatMap_cons, List.append_assoc, List.singleton_append,
      List.splitOn_append_cons_self_of_not_mem h.1, ih h.2, List.cons_append]

theorem textLines_lines (h : ∀ line ∈ lines, '\n' ∉ line) :
    textLines (lines.flatMap (· ++ ['\n'])) = lines := by
  rw [textLines, splitOn_lines h, List.dropLast_concat]

theorem dropIndex_line (n : Nat) (text : Text) :
    dropIndex (zeroFilled 4 (unsigned 10 n) ++ ' ' :: ' ' :: text) = text := by
  rw [dropIndex, List.dropWhile_append_of_pos fun _ => isdigit_of_mem_zeroFilled,
    List.dropWhile_cons_of_neg (by decide)]
  rfl

/-- A disassembly is made of a line for each instruction, with its index before it. -/
theorem lines_disassembleFrom (hlines : ∀ ins ∈ program, '\n' ∉ disassembleSwitch ins) (n : Nat) :
    ∃ lines : List Text, disassembleFrom n program = lines.flatMap (· ++ ['\n']) ∧
      (∀ line ∈ lines, '\n' ∉ line) ∧ lines.map dropIndex = program.map disassembleSwitch := by
  induction program generalizing n with
  | nil => exact ⟨[], rfl, fun _ h => absurd h List.not_mem_nil, rfl⟩
  | cons ins rest ih =>
    rw [List.forall_mem_cons] at hlines
    obtain ⟨lines, htext, hnewline, hdrop⟩ := ih hlines.2 (n + 1)
    refine ⟨(zeroFilled 4 (unsigned 10 n) ++ ' ' :: ' ' :: disassembleSwitch ins) :: lines, ?_, ?_, ?_⟩
    -- neither the digits of the index nor the instruction hold a newline
    · rw [disassembleFrom, htext, List.flatMap_cons, waiDisassembleInstruction]
    · refine List.forall_mem_cons.mpr ⟨fun hmem => ?_, hnewline⟩
      rcases List.mem_append.mp hmem with hdigit | hrest
      · exact absurd (isdigit_of_mem_zeroFilled hdigit) (by decide)
      · exact hlines.1 (by simpa using hrest)
    · rw [List.map_cons, List.map_cons, dropIndex_line, hdrop]

theorem lines_disassembly (hlines : ∀ ins ∈ program, '\n' ∉ disassembleSwitch ins) :
    (textLines (disassembleFrom 0 program)).map dropIndex = program.map disassembleSwitch := by
  obtain ⟨lines, htext, hnewline, hdrop⟩ := lines_disassembleFrom hlines 0
  rw [htext, textLines_lines hnewline, hdrop]

/-! What the lines say: the instructions, and the labels between them. -/

/-- What the line `L_N:` says. -/
def labelItem (targets : List Text) (n : Nat) : List Item :=
  if unsigned 10 n ∈ targets then [.label (targetLabel (unsigned 10 n))] else []

/-- What the lines of a relabelled text say. -/
def relabelledItems (targets : List Text) : Nat → List WaiInstruction → List Item
  | n, [] => labelItem targets n
  | n, ins :: rest => labelItem targets n ++
      .instruction (unlinked ins).1 (unlinked ins).2 :: relabelledItems targets (n + 1) rest

/-- The numeric targets of the jumps of a program. -/
def numericTargets (program : List WaiInstruction) : List Text :=
  (program.map disassembleSwitch).filterMap numericTarget

theorem lineItem_label (n : Nat) :
    LineItem (stripLine (targetLabel (unsigned 10 n) ++ [':']))
      (.label (targetLabel (unsigned 10 n))) := by
  have hname := identifier_targetLabel n
  have hchar : ∀ c ∈ targetLabel (unsigned 10 n) ++ [':'], isspace c = false ∧ c ≠ ';' := by
    refine List.forall_mem_append.mpr ⟨fun c hc => ?_, ?_⟩
    · exact ⟨free_of_identifier hname c hc,
        (special_of_tokenChar ((word_of_identifier hname).chars c hc)).2.1⟩
    · exact List.forall_mem_singleton.mpr (by decide)
  have hstrip : stripLine (targetLabel (unsigned 10 n) ++ [':']) =
      targetLabel (unsigned 10 n) ++ [] ++ [':'] := by
    rw [stripLine, List.takeWhile_eq_self_iff.mpr fun c hc => bne_iff_ne.mpr (hchar c hc).2,
      trim_of_free fun c hc => (hchar c hc).1, List.append_nil]
  rw [hstrip]
  exact .label hname fun _ h => absurd h List.not_mem_nil

theorem readsAs_labelLine {tail : List Text} {items : List Item} (h : ReadsAs tail items) :
    ReadsAs ((labelLine targets n).map stripLine ++ tail) (labelItem targets n ++ items) := by
  unfold labelLine labelItem
  split
  · exact .item (lineItem_label n) h
  · exact h

/-- The lines of a relabelled text, with something that says nothing behind them. -/
theorem readsAs_insertLabels {tail : List Text} (htail : ReadsAs tail [])
    (h : ∀ ins ∈ program, Reassembles ins (disassembleSwitch ins)) :
    ReadsAs ((insertLabels targets n ((program.map disassembleSwitch).map relabelLine)).map stripLine
      ++ tail) (relabelledItems targets n program) := by
  induction program generalizing n with
  | nil =>
    rw [← List.append_nil (relabelledItems targets n [])]
    exact readsAs_labelLine htail
  | cons ins rest ih =>
    rw [List.forall_mem_cons] at h
    simp only [List.map_cons, insertLabels, List.map_append, List.append_assoc, List.cons_append]
    exact readsAs_labelLine (.item h.1.reads (ih h.2))

theorem newline_not_mem_insertLabels
    (h : ∀ ins ∈ program, Reassembles ins (disassembleSwitch ins)) :
    ∀ line ∈ insertLabels targets n ((program.map disassembleSwitch).map relabelLine), '\n' ∉ line := by
  have hlabel : ∀ n, ∀ line ∈ labelLine targets n, '\n' ∉ line := by
    intro n line hline
    unfold labelLine at hline
    split at hline
    · rw [List.mem_singleton.mp hline, List.mem_append, not_or]
      refine ⟨fun hmem => ?_, by decide⟩
      exact absurd (free_of_identifier (identifier_targetLabel n) _ hmem) (by decide)
    · exact absurd hline List.not_mem_nil
  induction program generalizing n with
  | nil => exact hlabel n
  | cons ins rest ih =>
    rw [List.forall_mem_cons] at h
    refine List.forall_mem_append.mpr ⟨hlabel n, List.forall_mem_cons.mpr ⟨?_, ih h.2⟩⟩
    exact h.1.relabelled_no_newline

/-- What a relabelled disassembly says. -/
theorem readsAs_relabel (h : ∀ ins ∈ program, Reassembles ins (disassembleSwitch ins)) :
    ReadsAs (sourceLines (relabel (disassembleFrom 0 program)))
      (relabelledItems (numericTargets program) 0 program) := by
  have hblank : ReadsAs [stripLine []] [] := .blank (fun _ h => absurd h List.not_mem_nil) .nil
  have hlines := lines_disassembly fun ins hins => (h ins hins).no_newline
  simp only [relabel, hlines, sourceLines]
  rw [splitOn_lines (newline_not_mem_insertLabels h), List.map_append]
  exact readsAs_insertLabels hblank h

end Text

/-! ## 4. The labels of the text -/

section Labels
variable {program : List WaiInstruction} {targets : List Text} {count n : Nat}

theorem targetLabel_injective {m n : Nat}
    (h : targetLabel (unsigned 10 m) = targetLabel (unsigned 10 n)) : m = n :=
  unsigned_injective (List.cons.inj (List.cons.inj h).2).2

theorem instructionLines_labelItem (targets : List Text) (n : Nat) :
    instructionLines (labelItem targets n) = [] := by
  unfold labelItem
  split <;> rfl

theorem instructionLines_relabelled :
    instructionLines (relabelledItems targets n program) = program.map unlinked := by
  induction program generalizing n with
  | nil => exact instructionLines_labelItem targets n
  | cons ins rest ih =>
    rw [relabelledItems, instructionLines_append, instructionLines_labelItem, List.nil_append,
      List.map_cons, ← ih]
    rfl

theorem labelNames_labelItem (targets : List Text) (n : Nat) :
    labelNames (labelItem targets n) =
      ([n].filter (unsigned 10 · ∈ targets)).map fun k => targetLabel (unsigned 10 k) := by
  unfold labelItem
  split
  · next h => simp [labelNames, h]
  · next h => simp [labelNames, h]

/-- The labels are those of the targets, in their order. -/
theorem labelNames_relabelled :
    labelNames (relabelledItems targets n program) =
      ((List.range' n (program.length + 1)).filter (unsigned 10 · ∈ targets)).map
        fun k => targetLabel (unsigned 10 k) := by
  induction program generalizing n with
  | nil => exact labelNames_labelItem targets n
  | cons ins rest ih =>
    have hrest : labelNames (.instruction (unlinked ins).1 (unlinked ins).2 ::
        relabelledItems targets (n + 1) rest) = labelNames (relabelledItems targets (n + 1) rest) := rfl
    rw [relabelledItems, labelNames_append, labelNames_labelItem, hrest, ih, ← List.map_append,
      ← List.filter_append, List.length_cons, List.singleton_append, ← List.range'_succ]

theorem instructionsBefore_labelItem {name : Text} (items : List Item)
    (h : targetLabel (unsigned 10 n) ≠ name) :
    instructionsBefore (· = name) (labelItem targets n ++ items) =
      instructionsBefore (· = name) items := by
  unfold labelItem
  split
  · rw [List.singleton_append, instructionsBefore_label, if_neg (by simpa using h)]
  · rfl

theorem labelTarget_first (items : List Item) (hmem : unsigned 10 n ∈ targets) :
    labelTarget (labelItem targets n ++ items) (targetLabel (unsigned 10 n)) = 0 := by
  rw [labelTarget, labelItem, if_pos hmem, List.singleton_append, instructionsBefore_label,
    if_pos (decide_eq_true rfl)]

/-- A label stands before the instruction with its number. -/
theorem labelTarget_relabelled {k : Nat} (hle : k ≤ program.length)
    (htarget : unsigned 10 (n + k) ∈ targets) :
    labelTarget (relabelledItems targets n program) (targetLabel (unsigned 10 (n + k))) = k := by
  induction program generalizing n k with
  | nil =>
    obtain rfl : k = 0 := Nat.le_zero.mp hle
    have h := labelTarget_first [] htarget
    rwa [List.append_nil] at h
  | cons ins rest ih =>
    cases k with
    | zero => exact labelTarget_first _ htarget
    -- the label of another number is passed over, and then one instruction
    | succ k =>
      rw [← Nat.succ_add_eq_add_succ] at htarget ⊢
      have hne : targetLabel (unsigned 10 n) ≠ targetLabel (unsigned 10 (n.succ + k)) :=
        fun h => absurd (targetLabel_injective h) (by omega)
      rw [labelTarget, relabelledItems, instructionsBefore_labelItem _ hne,
        instructionsBefore_instruction]
      exact congrArg (· + 1) (ih (Nat.le_of_succ_le_succ hle) htarget)

/-! The table stores the names as they are. -/

theorem storedName_targetLabel (h : n ≤ maxInstructions) :
    storedName (targetLabel (unsigned 10 n)) = targetLabel (unsigned 10 n) := by
  have hdigits : (unsigned 10 n).length ≤ 20 :=
    (Nat.length_toDigits_le_iff (by decide) (by decide)).mpr (Nat.lt_of_le_of_lt h (by decide))
  refine storedName_of_fit ?_
  simp only [targetLabel, List.length_cons]
  omega

/-- Every label of a relabelled program is that of a number up to the end of the program. -/
theorem label_of_mem {label : Text} (h : label ∈ labelNames (relabelledItems targets 0 program)) :
    ∃ k ≤ program.length, label = targetLabel (unsigned 10 k) := by
  rw [labelNames_relabelled, List.mem_map] at h
  obtain ⟨k, hk, rfl⟩ := h
  have hrange := List.mem_range'_1.mp (List.mem_of_mem_filter hk)
  exact ⟨k, by omega, rfl⟩

theorem mem_labelNames_relabelled {k : Nat} (hle : k ≤ program.length)
    (htarget : unsigned 10 k ∈ targets) :
    targetLabel (unsigned 10 k) ∈ labelNames (relabelledItems targets 0 program) := by
  rw [labelNames_relabelled]
  refine List.mem_map.mpr ⟨k, List.mem_filter.mpr ⟨?_, decide_eq_true htarget⟩, rfl⟩
  exact List.mem_range'_1.mpr (by omega)

/-- The jumps of a program have their numbers among the targets. -/
theorem mem_numericTargets (h : ∀ ins ∈ program, Reassembles ins (disassembleSwitch ins))
    {ins : WaiInstruction} (hins : ins ∈ program) (hjump : ins.op ∈ WaiOpcode.jumps) :
    unsigned 10 ins.imm.toNat ∈ numericTargets program := by
  refine List.mem_filterMap.mpr ⟨_, List.mem_map_of_mem hins, ?_⟩
  rw [(h ins hins).numericTarget_eq, if_pos hjump]

/-- A reference is that of a jump to its target. -/
theorem reference_of_mem {name : Text}
    (h : name ∈ references (relabelledItems targets 0 program)) :
    ∃ ins ∈ program, ins.op ∈ WaiOpcode.jumps ∧ name = targetLabel (unsigned 10 ins.imm.toNat) := by
  rw [references, instructionLines_relabelled, List.filterMap_map, List.mem_filterMap] at h
  obtain ⟨ins, hins, hname⟩ := h
  by_cases hjump : ins.op ∈ WaiOpcode.jumps
  · rw [Function.comp_apply, unlinked, if_pos hjump] at hname
    exact ⟨ins, hins, hjump, (Option.some.inj hname).symm⟩
  · rw [Function.comp_apply, unlinked, if_neg hjump] at hname
    cases hname

/-- The labels of the text are accepted. -/
theorem tableAccepts_relabelled (hlength : program.length ≤ maxInstructions)
    (h : ∀ ins ∈ program, Emitted program.length ins) :
    TableAccepts (relabelledItems (numericTargets program) 0 program) := by
  constructor
  · have hnodup : (labelNames (relabelledItems (numericTargets program) 0 program)).Nodup := by
      rw [labelNames_relabelled]
      exact ((List.nodup_range' 1).filter _).map fun _ _ => targetLabel_injective
    refine hnodup.imp_of_mem fun hearlier _ hne => ?_
    obtain ⟨k, hk, rfl⟩ := label_of_mem hearlier
    rwa [storedName_targetLabel (hk.trans hlength)]
  · intro name hname
    obtain ⟨ins, hins, hjump, rfl⟩ := reference_of_mem hname
    refine ⟨_, mem_labelNames_relabelled ((h ins hins).target hjump).2 ?_, rfl⟩
    exact mem_numericTargets (fun ins hins => relabelled_line (h ins hins)) hins hjump

/-- The assembler gives every jump its target back. -/
theorem linkLine_unlinked (hlength : program.length ≤ maxInstructions)
    (h : ∀ ins ∈ program, Emitted program.length ins) {ins : WaiInstruction} (hins : ins ∈ program) :
    linkLine (sharedTarget (relabelledItems (numericTargets program) 0 program)) (unlinked ins) =
      ins := by
  by_cases hjump : ins.op ∈ WaiOpcode.jumps
  · have hle := ((h ins hins).target hjump).2
    have hmem := mem_numericTargets (fun ins hins => relabelled_line (h ins hins)) hins hjump
    have hshared : sharedTarget (relabelledItems (numericTargets program) 0 program)
        (targetLabel (unsigned 10 ins.imm.toNat)) = ins.imm.toNat := by
      rw [← Nat.zero_add ins.imm.toNat] at hmem
      have htarget := labelTarget_relabelled hle hmem
      rw [Nat.zero_add] at htarget
      refine (instructionsBefore_congr fun label hlabel => ?_).trans htarget
      obtain ⟨k, hk, rfl⟩ := label_of_mem hlabel
      rw [storedName_targetLabel (hk.trans hlength), storedName_targetLabel (hle.trans hlength)]
    rw [unlinked, if_pos hjump, linkLine, hshared, BitVec.ofNat_toNat, BitVec.setWidth_eq]
  · rw [unlinked, if_neg hjump, linkLine]

end Labels

/-! ## 5. Whole programs -/

/-- The assembler, run on the relabelled disassembly of a program. -/
def reassemble (alloc : AssemblerAlloc) (program : WaiProgram) : WaiAssemblerResult × OwnedProgram :=
  waiAssembleSource alloc (relabel (waiDisassembleProgram program))

/-- A program of emitted instructions is assembled from its disassembly, unless memory runs out. -/
theorem assembles_relabelled {alloc : AssemblerAlloc} {program : List WaiInstruction}
    (hlength : program.length ≤ maxInstructions) (h : ∀ ins ∈ program, Emitted program.length ins) :
    (waiAssembleSource alloc (relabel (disassembleFrom 0 program))).1.error = .errOom ∨
      (waiAssembleSource alloc (relabel (disassembleFrom 0 program))).1.error = .ok ∧
      (waiAssembleSource alloc (relabel (disassembleFrom 0 program))).2.instructions = program := by
  have hreads := readsAs_relabel fun ins hins => relabelled_line (h ins hins)
  rcases @assembles_of_items alloc _ _ hreads (tableAccepts_relabelled hlength h) with hok | hoom
  · refine .inr ⟨hok, ?_⟩
    -- the text says one thing only, so these are the items that the assembler read
    obtain ⟨items, hreads', _, hprogram⟩ := assembled_items hok
    obtain rfl := readsAs_unique hreads' hreads
    rw [instructionLines_relabelled, List.map_map] at hprogram
    exact hprogram.trans ((List.map_congr_left fun ins hins => linkLine_unlinked hlength h hins).trans
      (List.map_id' _))
  · exact .inl hoom

/-- The disassembly of a program that the assembler made is, with labels for the targets, a
source text of the same program. A failed allocation is what the assembler reports as
`WAI_ERR_OOM`. -/
theorem disassembly_round_trip {alloc alloc' : AssemblerAlloc} {source : Text}
    (h : (waiAssembleSource alloc source).1.error = .ok)
    (halloc : (reassemble alloc' (waiAssembleSource alloc source).2.toWaiProgram).1.error ≠ .errOom) :
    (reassemble alloc' (waiAssembleSource alloc source).2.toWaiProgram).1.error = .ok ∧
      (reassemble alloc' (waiAssembleSource alloc source).2.toWaiProgram).2.instructions =
        (waiAssembleSource alloc source).2.instructions := by
  obtain ⟨_, hassembled⟩ := assembled_of_accepted h
  have hemitted := hassembled.emitted
  have hlength := WaiProgram.count_le (waiAssembleSource alloc source).2.toWaiProgram
  rw [OwnedProgram.count_eq_length] at hemitted hlength
  exact (assembles_relabelled hlength hemitted).resolve_left halloc

/-- A jump to a label at the end, and the smallest immediate operand. -/
def extremeSource : Text :=
  ['j', 'z', ' ', 'r', '1', ',', ' ', 'a', '\n', 's', 't', 'o', 'r', 'e', ' ', '[', '-', '9',
    '2', '2', '3', '3', '7', '2', '0', '3', '6', '8', '5', '4', '7', '7', '5', '8', '0', '8',
    ']', ',', ' ', 'r', '7', '\n', 'a', ':', '\n']

theorem disassembly_round_trip_extreme :
    (reassemble .unlimited (waiAssembleSource .unlimited extremeSource).2.toWaiProgram).2.instructions =
      [⟨WaiOpcode.jz.value, 1, 0, 0, 2⟩, ⟨WaiOpcode.storeAbs.value, 7, 0, 0, BitVec.ofInt 64 (-2 ^ 63)⟩] := by
  have hok : (waiAssembleSource .unlimited extremeSource).1.error = .ok := by decide +kernel
  have hprogram : (waiAssembleSource .unlimited extremeSource).2.instructions =
      [⟨WaiOpcode.jz.value, 1, 0, 0, 2⟩,
        ⟨WaiOpcode.storeAbs.value, 7, 0, 0, BitVec.ofInt 64 (-2 ^ 63)⟩] := by decide +kernel
  have halloc : (reassemble .unlimited
      (waiAssembleSource .unlimited extremeSource).2.toWaiProgram).1.error ≠ .errOom :=
    not_oom AssemblerAlloc.unlimited_grants (by decide +kernel)
  exact (disassembly_round_trip hok halloc).2.trans hprogram

end Waivm
