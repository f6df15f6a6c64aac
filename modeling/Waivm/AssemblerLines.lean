import Waivm.AssemblerReference

/-!
# The lines that the assembler accepts

The parsers of `assembler.c` decide the reference grammar: `parseTokens_iff` for the
tokens of an instruction, `lineItem_of_colon` and `lineItem_of_no_colon` for a whole
line. So a line says at most one thing.
-/

namespace Waivm

open CString
open LittleEndian (Byte)

/-! ## Operands -/

theorem isIdentifier_iff {text : Text} : isIdentifier text = true ↔ Identifier text := by
  cases text with
  | nil =>
    constructor
    · intro h
      cases h
    · rintro ⟨_, _, h, _⟩
      cases h
  | cons c rest =>
    simp only [isIdentifier, Identifier, Bool.and_eq_true, Bool.or_eq_true, beq_iff_eq,
      List.all_eq_true, List.cons.injEq]
    constructor
    · intro h
      exact ⟨c, rest, ⟨rfl, rfl⟩, h⟩
    · rintro ⟨_, _, ⟨rfl, rfl⟩, h⟩
      exact h

theorem parseRegister_iff {text : Text} {reg : Byte} :
    parseRegister text = some reg ↔ RegisterToken text reg := by
  constructor
  · intro h
    unfold parseRegister at h
    split at h
    · next c =>
      split at h
      · cases h
      · next hc =>
        cases h
        have hn : c.toNat - '0'.toNat < 8 := by
          simp only [Char.reduceToNat] at hc ⊢
          omega
        have hdigit : ∀ n : Fin 8, (Nat.digitChar n).toNat = n + '0'.toNat := by decide
        -- the two comparisons leave the eight digits
        have hchar : c = Nat.digitChar (⟨c.toNat - '0'.toNat, hn⟩ : Fin 8) := by
          rw [← Char.toNat_inj, hdigit]
          simp only [Char.reduceToNat] at hc ⊢
          omega
        have h := RegisterToken.mk ⟨c.toNat - '0'.toNat, hn⟩
        rwa [← hchar] at h
    · cases h
  · rintro ⟨n⟩
    revert n
    decide

/-- A register is no number. -/
theorem not_integer_of_register {text : Text} {reg : Byte} {value : WaiValue}
    (h : RegisterToken text reg) : ¬ IntegerToken text value := by
  obtain ⟨n⟩ := h
  rintro ⟨_, hlit, _⟩
  cases hlit with
  | bare hn =>
    cases hn with
    | decimal hc _ => cases hc

theorem parseI64_iff {text : Text} {value : WaiValue} (hfree : ∀ c ∈ text, isspace c = false) :
    parseI64 text = some value ↔ IntegerToken text value := by
  have hblank : ∀ c ∈ text.head?, isspace c = false := fun c hc =>
    hfree c (List.mem_of_mem_head? hc)
  constructor
  · intro h
    unfold parseI64 at h
    split at h
    · cases h
    · next n rest hread =>
      split at h
      · cases h
      · next hrange =>
        cases h
        rw [not_or, not_or, not_lt, not_le, not_not] at hrange
        rw [hrange.2.2] at hread
        exact ⟨n, (strtoll_iff hblank).mp hread, hrange.1, hrange.2.1, rfl⟩
  · rintro ⟨n, hlit, hlo, hhi, rfl⟩
    rw [parseI64, (strtoll_iff hblank).mpr hlit]
    refine if_neg ?_
    rw [not_or, not_or, not_lt, not_le, not_not]
    exact ⟨hlo, hhi, rfl⟩

theorem dropWhile_of_head {text : Text} (h : ∀ c ∈ text.head?, isspace c = false) :
    text.dropWhile isspace = text := by
  cases text with
  | nil => rfl
  | cons c rest =>
    rw [List.dropWhile_cons_of_neg]
    rw [h c rfl]
    exact Bool.false_ne_true

theorem rdropWhile_of_last {text : Text} (h : ∀ c ∈ text.getLast?, isspace c = false) :
    text.rdropWhile isspace = text := by
  rw [List.rdropWhile_eq_self_iff]
  intro hne
  rw [h _ (List.getLast?_eq_getLast_of_ne_nil hne)]
  exact Bool.false_ne_true

/-- A text without blanks at its ends is left alone. -/
theorem trim_of_ends {text : Text} (hhead : ∀ c ∈ text.head?, isspace c = false)
    (hlast : ∀ c ∈ text.getLast?, isspace c = false) : trim text = text := by
  rw [trim, dropWhile_of_head hhead, rdropWhile_of_last hlast]

theorem trim_of_free {text : Text} (hfree : ∀ c ∈ text, isspace c = false) : trim text = text :=
  trim_of_ends (fun c hc => hfree c (List.mem_of_mem_head? hc))
    fun c hc => hfree c (List.mem_of_getLast? hc)

/-- What is in the brackets of a memory operand is a register, or else a number. -/
theorem parseMemoryOperand_bracketed {inner : Text} (hne : inner ≠ []) (hlength : inner.length ≤ 63)
    (htrim : trim inner = inner) :
    parseMemoryOperand ('[' :: inner ++ [']']) =
      (parseRegister inner).elim ((parseI64 inner).map .abs) fun reg => some (.reg reg) := by
  have hlen : ('[' :: inner ++ [']']).length = inner.length + 2 := by
    rw [List.length_append]
    rfl
  have hpos := List.length_pos_of_ne_nil hne
  have htake : (('[' :: inner ++ [']']).drop 1).take inner.length = inner := List.take_left
  rw [parseMemoryOperand, hlen, if_neg, if_neg, Nat.add_sub_cancel, htake]
  · cases hreg : parseRegister inner <;> simp only [htrim, hreg, Option.elim]
  · omega
  · rw [List.getLast?_concat]
    rintro (h | h | h)
    · omega
    · exact h rfl
    · exact h rfl

/-- A text that is accepted as a memory operand has something between brackets. -/
theorem bracketed_of_parse {text : Text} {operand : MemOperand}
    (h : parseMemoryOperand text = some operand) :
    ∃ inner, text = '[' :: inner ++ [']'] ∧ inner ≠ [] ∧ inner.length ≤ 63 := by
  unfold parseMemoryOperand at h
  split at h
  · cases h
  next hshape =>
  split at h
  · cases h
  next hlength =>
  rw [not_or, not_or, not_not, not_not] at hshape
  obtain ⟨hlen, hhead, hlast⟩ := hshape
  obtain ⟨tail, rfl⟩ := List.head?_eq_some_iff.mp hhead
  have htail : tail ≠ [] := by
    rintro rfl
    exact hlen (by decide)
  rw [List.getLast?_cons_of_ne_nil htail] at hlast
  obtain ⟨inner, rfl⟩ := List.getLast?_eq_some_iff.mp hlast
  simp only [List.length_cons, List.length_append, List.length_nil] at hlength hlen
  refine ⟨inner, rfl, ?_, by omega⟩
  rintro rfl
  exact hlen (by decide)

theorem parseMemoryOperand_iff {text : Text} {operand : MemOperand}
    (hfree : ∀ c ∈ text, isspace c = false) :
    parseMemoryOperand text = some operand ↔ MemoryToken text operand := by
  constructor
  · intro h
    obtain ⟨inner, rfl, hne, hlength⟩ := bracketed_of_parse h
    have hfree' : ∀ c ∈ inner, isspace c = false := fun c hc =>
      hfree c (List.mem_append_left _ (List.mem_cons_of_mem _ hc))
    rw [parseMemoryOperand_bracketed hne hlength (trim_of_free hfree')] at h
    cases hreg : parseRegister inner with
    | some reg =>
      rw [hreg] at h
      cases h
      exact .reg hlength (parseRegister_iff.mp hreg)
    | none =>
      rw [hreg] at h
      obtain ⟨address, haddress, rfl⟩ := Option.map_eq_some_iff.mp h
      exact .abs hlength ((parseI64_iff hfree').mp haddress)
  · intro h
    cases h with
    | @reg inner reg hlength hreg =>
      have hne : inner ≠ [] := by
        rintro rfl
        cases hreg
      have hfree' : ∀ c ∈ inner, isspace c = false := fun c hc =>
        hfree c (List.mem_append_left _ (List.mem_cons_of_mem _ hc))
      rw [parseMemoryOperand_bracketed hne hlength (trim_of_free hfree'),
        parseRegister_iff.mpr hreg, Option.elim_some]
    | @abs inner address hlength haddress =>
      have hne : inner ≠ [] := by
        rintro rfl
        obtain ⟨_, hlit, _⟩ := haddress
        cases hlit with
        | bare hn => cases hn
      have hfree' : ∀ c ∈ inner, isspace c = false := fun c hc =>
        hfree c (List.mem_append_left _ (List.mem_cons_of_mem _ hc))
      -- the parser tries a register first, and a number is none
      have hreg : parseRegister inner = none := by
        rw [Option.eq_none_iff_forall_ne_some]
        intro reg hreg
        exact not_integer_of_register (parseRegister_iff.mp hreg) haddress
      rw [parseMemoryOperand_bracketed hne hlength (trim_of_free hfree'), hreg,
        (parseI64_iff hfree').mpr haddress]
      rfl

/-! ## Mnemonics -/

/-- In a table in which no name stands twice, a name has one entry. -/
theorem lookup_iff_mem {α β : Type} [BEq α] [LawfulBEq α] {table : List (α × β)} {name : α} {entry : β}
    (hnodup : (table.map Prod.fst).Nodup) :
    table.lookup name = some entry ↔ (name, entry) ∈ table := by
  induction table with
  | nil =>
    constructor
    · intro h
      cases h
    · intro h
      cases h
  | cons row rest ih =>
    rw [List.map_cons, List.nodup_cons] at hnodup
    rw [List.lookup_cons, List.mem_cons]
    cases hrow : name == row.1 with
    | true =>
      rw [beq_iff_eq] at hrow
      constructor
      · intro h
        cases h
        exact .inl (by rw [hrow])
      · rintro (h | h)
        · cases h
          rfl
        · exact absurd (List.mem_map_of_mem (f := Prod.fst) h) (hrow ▸ hnodup.1)
    | false =>
      rw [beq_eq_false_iff_ne] at hrow
      rw [ih hnodup.2]
      exact ⟨.inr, fun h => h.resolve_left fun h => hrow (by rw [← h])⟩

theorem lookup_mnemonics_iff {name : Text} {form : MnemonicForm} :
    mnemonics.lookup name = some form ↔ (name, form) ∈ mnemonics := by
  have hnodup : (mnemonics.map Prod.fst).Nodup := by decide
  exact lookup_iff_mem hnodup

/-- The mnemonics of each form. -/
theorem mem_mnemonics_iff {name : Text} {form : MnemonicForm} :
    (name, form) ∈ mnemonics ↔
      match form with
      | .alu opcodes => (name, opcodes) ∈ aluOpcodes
      | .load => name = ['l', 'o', 'a', 'd']
      | .store => name = ['s', 't', 'o', 'r', 'e']
      | .oneRegister opcode => (name, opcode) ∈ oneRegisterOpcodes
      | .labelJump opcode => (name, opcode) ∈ labelOpcodes
      | .registerJump opcode => (name, opcode) ∈ registerLabelOpcodes
      | .noOperand opcode => (name, opcode) ∈ bareOpcodes := by
  cases form <;>
    simp [mnemonics, aluOpcodes, oneRegisterOpcodes, labelOpcodes, registerLabelOpcodes, bareOpcodes]

/-! ## Instructions -/

section Tokens
variable {name : Text} {operands tokens : List Text} {instr : WaiInstruction} {target : Option Text}
  {opcode : WaiOpcode}

theorem form_of_parseTwoOperandAlu {opcodes : WaiOpcode × WaiOpcode}
    (hfree : ∀ token ∈ operands, ∀ c ∈ token, isspace c = false)
    (hname : (name, opcodes) ∈ aluOpcodes)
    (h : parseTwoOperandAlu opcodes (name :: operands) = some instr) :
    InstructionForm (name :: operands) instr none := by
  unfold parseTwoOperandAlu at h
  split at h
  · next heq =>
    obtain ⟨rfl, rfl⟩ := List.cons.inj heq
    split at h
    · cases h
    · next dst hdst =>
      split at h
      · next src _ hsrc =>
        cases h
        exact .aluReg hname (parseRegister_iff.mp hdst) (parseRegister_iff.mp hsrc)
      · next imm _ himm =>
        cases h
        have himm := (parseI64_iff (hfree _ (by simp))).mp himm
        exact .aluImm hname (parseRegister_iff.mp hdst) himm
      · cases h
  · cases h

theorem form_of_parseLoad (hfree : ∀ token ∈ operands, ∀ c ∈ token, isspace c = false)
    (h : parseLoad (['l', 'o', 'a', 'd'] :: operands) = some instr) :
    InstructionForm (['l', 'o', 'a', 'd'] :: operands) instr none := by
  unfold parseLoad at h
  split at h
  · next heq =>
    obtain ⟨_, rfl⟩ := List.cons.inj heq
    split at h
    · next hdst hmem =>
      cases h
      exact .loadReg (parseRegister_iff.mp hdst)
        ((parseMemoryOperand_iff (hfree _ (by simp))).mp hmem)
    · next hdst hmem =>
      cases h
      exact .loadAbs (parseRegister_iff.mp hdst)
        ((parseMemoryOperand_iff (hfree _ (by simp))).mp hmem)
    · cases h
  · cases h

theorem form_of_parseStore (hfree : ∀ token ∈ operands, ∀ c ∈ token, isspace c = false)
    (h : parseStore (['s', 't', 'o', 'r', 'e'] :: operands) = some instr) :
    InstructionForm (['s', 't', 'o', 'r', 'e'] :: operands) instr none := by
  unfold parseStore at h
  split at h
  · next heq =>
    obtain ⟨_, rfl⟩ := List.cons.inj heq
    split at h
    · next hmem hsrc =>
      cases h
      exact .storeReg ((parseMemoryOperand_iff (hfree _ (by simp))).mp hmem)
        (parseRegister_iff.mp hsrc)
    · next hmem hsrc =>
      cases h
      exact .storeAbs ((parseMemoryOperand_iff (hfree _ (by simp))).mp hmem)
        (parseRegister_iff.mp hsrc)
    · cases h
  · cases h

theorem form_of_parseOneRegister (hname : (name, opcode) ∈ oneRegisterOpcodes)
    (h : parseOneRegister opcode (name :: operands) = some instr) :
    InstructionForm (name :: operands) instr none := by
  unfold parseOneRegister at h
  split at h
  · next heq =>
    obtain ⟨rfl, rfl⟩ := List.cons.inj heq
    obtain ⟨reg, hreg, rfl⟩ := Option.map_eq_some_iff.mp h
    exact .oneRegister hname (parseRegister_iff.mp hreg)
  · cases h

theorem form_of_parseLabelJump {label : Text} (hname : (name, opcode) ∈ labelOpcodes)
    (h : parseLabelJump opcode (name :: operands) = some (instr, label)) :
    InstructionForm (name :: operands) instr (some label) := by
  unfold parseLabelJump at h
  split at h
  · next heq =>
    obtain ⟨rfl, rfl⟩ := List.cons.inj heq
    split at h
    · next hlabel =>
      cases h
      exact .labelJump hname (isIdentifier_iff.mp hlabel)
    · cases h
  · cases h

theorem form_of_parseRegisterJump {label : Text} (hname : (name, opcode) ∈ registerLabelOpcodes)
    (h : parseRegisterJump opcode (name :: operands) = some (instr, label)) :
    InstructionForm (name :: operands) instr (some label) := by
  unfold parseRegisterJump at h
  split at h
  · next heq =>
    obtain ⟨rfl, rfl⟩ := List.cons.inj heq
    split at h
    · next hlabel =>
      obtain ⟨reg, hreg, heq⟩ := Option.map_eq_some_iff.mp h
      cases heq
      exact .registerJump hname (parseRegister_iff.mp hreg) (isIdentifier_iff.mp hlabel)
    · cases h
  · cases h

theorem form_of_parseNoOperand (hname : (name, opcode) ∈ bareOpcodes)
    (h : parseNoOperand opcode (name :: operands) = some instr) :
    InstructionForm (name :: operands) instr none := by
  unfold parseNoOperand at h
  split at h
  · next heq =>
    obtain ⟨rfl, rfl⟩ := List.cons.inj heq
    cases h
    exact .bare hname
  · cases h

/-- What a parser accepts is an instruction form. -/
theorem form_of_parse {form : MnemonicForm} (hmem : (name, form) ∈ mnemonics)
    (hfree : ∀ token ∈ operands, ∀ c ∈ token, isspace c = false)
    (h : form.parse (name :: operands) = some (instr, target)) :
    InstructionForm (name :: operands) instr target := by
  have hname := mem_mnemonics_iff.mp hmem
  cases form with
  | alu opcodes =>
    obtain ⟨_, hparse, heq⟩ := Option.map_eq_some_iff.mp h
    cases heq
    exact form_of_parseTwoOperandAlu hfree hname hparse
  | load =>
    obtain ⟨_, hparse, heq⟩ := Option.map_eq_some_iff.mp h
    cases heq
    obtain rfl : name = _ := hname
    exact form_of_parseLoad hfree hparse
  | store =>
    obtain ⟨_, hparse, heq⟩ := Option.map_eq_some_iff.mp h
    cases heq
    obtain rfl : name = _ := hname
    exact form_of_parseStore hfree hparse
  | oneRegister opcode =>
    obtain ⟨_, hparse, heq⟩ := Option.map_eq_some_iff.mp h
    cases heq
    exact form_of_parseOneRegister hname hparse
  | labelJump opcode =>
    obtain ⟨_, hparse, heq⟩ := Option.map_eq_some_iff.mp h
    cases heq
    exact form_of_parseLabelJump hname hparse
  | registerJump opcode =>
    obtain ⟨_, hparse, heq⟩ := Option.map_eq_some_iff.mp h
    cases heq
    exact form_of_parseRegisterJump hname hparse
  | noOperand opcode =>
    obtain ⟨_, hparse, heq⟩ := Option.map_eq_some_iff.mp h
    cases heq
    exact form_of_parseNoOperand hname hparse

/-- The branch that a mnemonic takes. -/
theorem parseTokens_eq {form : MnemonicForm} (h : (name, form) ∈ mnemonics) :
    parseTokens (name :: operands) = form.parse (name :: operands) := by
  rw [parseTokens, lookup_mnemonics_iff.mpr h]

/-- The parsers accept every instruction form. -/
theorem parse_of_form (hfree : ∀ token ∈ tokens, ∀ c ∈ token, isspace c = false)
    (h : InstructionForm tokens instr target) : parseTokens tokens = some (instr, target) := by
  cases h with
  | @aluReg name dst src opcodes a b hname ha hb =>
    rw [parseTokens_eq ((@mem_mnemonics_iff name (.alu opcodes)).mpr hname)]
    simp only [MnemonicForm.parse, parseTwoOperandAlu, parseRegister_iff.mpr ha,
      parseRegister_iff.mpr hb, Option.map_some]
  | @aluImm name dst src opcodes a imm hname ha himm =>
    have hsrc : parseRegister src = none := by
      rw [Option.eq_none_iff_forall_ne_some]
      intro reg hreg
      exact not_integer_of_register (parseRegister_iff.mp hreg) himm
    rw [parseTokens_eq ((@mem_mnemonics_iff name (.alu opcodes)).mpr hname)]
    simp only [MnemonicForm.parse, parseTwoOperandAlu, parseRegister_iff.mpr ha, hsrc,
      (parseI64_iff (hfree src (by simp))).mpr himm, Option.map_some]
  | @loadReg dst mem a b ha hmem =>
    rw [parseTokens_eq ((@mem_mnemonics_iff _ .load).mpr rfl)]
    simp only [MnemonicForm.parse, parseLoad, parseRegister_iff.mpr ha,
      (parseMemoryOperand_iff (hfree mem (by simp))).mpr hmem, Option.map_some]
  | @loadAbs dst mem a address ha hmem =>
    rw [parseTokens_eq ((@mem_mnemonics_iff _ .load).mpr rfl)]
    simp only [MnemonicForm.parse, parseLoad, parseRegister_iff.mpr ha,
      (parseMemoryOperand_iff (hfree mem (by simp))).mpr hmem, Option.map_some]
  | @storeReg mem src a b hmem ha =>
    rw [parseTokens_eq ((@mem_mnemonics_iff _ .store).mpr rfl)]
    simp only [MnemonicForm.parse, parseStore, parseRegister_iff.mpr ha,
      (parseMemoryOperand_iff (hfree mem (by simp))).mpr hmem, Option.map_some]
  | @storeAbs mem src a address hmem ha =>
    rw [parseTokens_eq ((@mem_mnemonics_iff _ .store).mpr rfl)]
    simp only [MnemonicForm.parse, parseStore, parseRegister_iff.mpr ha,
      (parseMemoryOperand_iff (hfree mem (by simp))).mpr hmem, Option.map_some]
  | @oneRegister name reg opcode a hname ha =>
    rw [parseTokens_eq ((@mem_mnemonics_iff name (.oneRegister opcode)).mpr hname)]
    simp only [MnemonicForm.parse, parseOneRegister, parseRegister_iff.mpr ha, Option.map_some]
  | @labelJump name label opcode hname hlabel =>
    rw [parseTokens_eq ((@mem_mnemonics_iff name (.labelJump opcode)).mpr hname)]
    simp only [MnemonicForm.parse, parseLabelJump, isIdentifier_iff.mpr hlabel, if_true,
      Option.map_some]
  | @registerJump name reg label opcode a hname ha hlabel =>
    rw [parseTokens_eq ((@mem_mnemonics_iff name (.registerJump opcode)).mpr hname)]
    simp only [MnemonicForm.parse, parseRegisterJump, isIdentifier_iff.mpr hlabel, if_true,
      parseRegister_iff.mpr ha, Option.map_some]
  | @bare name opcode hname =>
    rw [parseTokens_eq ((@mem_mnemonics_iff name (.noOperand opcode)).mpr hname)]
    rfl

/-- The parsers accept the instruction forms and give their instructions. -/
theorem parseTokens_iff (hfree : ∀ token ∈ tokens, ∀ c ∈ token, isspace c = false) :
    parseTokens tokens = some (instr, target) ↔ InstructionForm tokens instr target := by
  constructor
  · intro h
    cases tokens with
    | nil => cases h
    | cons name operands =>
      unfold parseTokens at h
      simp only at h
      split at h
      · cases h
      · next form hform =>
        exact form_of_parse (lookup_mnemonics_iff.mp hform)
          (fun token htoken => hfree token (List.mem_cons_of_mem _ htoken)) h
  · exact parse_of_form hfree

end Tokens

/-! ## Tokens -/

/-- The loop of `tokenize` collects the pieces, and gives up when there are too many. -/
theorem tokenizeFrom_eq {maxTokens : Nat} {tokens : List Text} {token : Option Text} (text : Text)
    (hnone : token = none → tokens.length ≤ maxTokens)
    (hsome : ∀ t, token = some t → t ≠ [] ∧ tokens.length < maxTokens) :
    tokenizeFrom maxTokens tokens token text =
      if (tokens ++ piecesFrom isSeparator (token.getD []) text).length ≤ maxTokens then
        some (tokens ++ piecesFrom isSeparator (token.getD []) text)
      else none := by
  induction text generalizing tokens token with
  | nil =>
    cases token with
    | none =>
      rw [Option.getD_none, piecesFrom, List.isEmpty_nil, if_pos rfl, List.append_nil,
        if_pos (hnone rfl)]
      rfl
    | some t =>
      obtain ⟨ht, hlt⟩ := hsome t rfl
      rw [Option.getD_some, piecesFrom_nil ht, List.length_append,
        if_pos (show tokens.length + [t].length ≤ maxTokens from hlt)]
      rfl
  | cons c rest ih =>
    cases token with
    | none =>
      rw [tokenizeFrom, Option.getD_none]
      split
      · next hc =>
        rw [piecesFrom_nil_cons_delim hc]
        exact ih hnone (fun _ h => by cases h)
      · next hc =>
        rw [piecesFrom_cons hc]
        split
        · next hfull =>
          have hne : piecesFrom isSeparator [c] rest ≠ [] :=
            piecesFrom_ne_nil (List.cons_ne_nil c []) rest
          have hpos := List.length_pos_of_ne_nil hne
          rw [if_neg]
          rw [List.length_append, List.nil_append]
          omega
        · next hfull =>
          refine ih (fun h => by cases h) fun t ht => ?_
          cases ht
          exact ⟨List.cons_ne_nil _ _, Nat.not_le.mp hfull⟩
    | some t =>
      obtain ⟨ht, hlt⟩ := hsome t rfl
      rw [tokenizeFrom, Option.getD_some]
      split
      · next hc =>
        have hlen : (tokens ++ [t]).length ≤ maxTokens := by
          rw [List.length_append]
          exact hlt
        rw [piecesFrom_cons_delim ht hc, ih (fun _ => hlen) (fun _ h => by cases h),
          List.append_assoc]
        rfl
      · next hc =>
        rw [piecesFrom_cons hc]
        refine ih (fun h => by cases h) fun t' ht' => ?_
        cases ht'
        exact ⟨List.append_ne_nil_of_right_ne_nil _ (List.cons_ne_nil _ _), hlt⟩

theorem tokensOf_eq (line : Text) : tokensOf line = pieces isSeparator line :=
  (pieces_eq line).symm

theorem tokenize_eq (line : Text) (maxTokens : Nat) :
    tokenize line maxTokens =
      if (tokensOf line).length ≤ maxTokens then some (tokensOf line) else none := by
  rw [tokenize, tokenizeFrom_eq line (fun _ => Nat.zero_le _) (fun _ h => by cases h), tokensOf_eq]
  rfl

/-- No token holds a blank. -/
theorem tokensOf_free (line : Text) : ∀ token ∈ tokensOf line, ∀ c ∈ token, isspace c = false := by
  intro token htoken c hc
  rw [tokensOf_eq] at htoken
  exact (Bool.or_eq_false_iff.mp ((mem_pieces htoken).2 c hc)).1

theorem tokensOf_eq_nil_iff {line : Text} :
    tokensOf line = [] ↔ ∀ c ∈ line, isSeparator c = true := by
  rw [tokensOf_eq, pieces_eq_nil_iff]

/-! ## Lines -/

/-- The characters of the tokens of an instruction. -/
def isTokenChar (c : Char) : Bool :=
  isalnum c || c == '_' || c == '+' || c == '-' || c == '[' || c == ']'

/-- A text that can be a token of an instruction. -/
structure Word (text : Text) : Prop where
  ne_nil : text ≠ []
  chars : ∀ c ∈ text, isTokenChar c = true

theorem tokenChar_of_alnum {c : Char} (h : isalnum c = true) : isTokenChar c = true := by
  simp only [isTokenChar, h, Bool.true_or]

theorem alnum_of_digit {c : Char} (h : isdigit c = true) : isalnum c = true :=
  Bool.or_eq_true_iff.mpr (.inr h)

/-- No token holds a separator, and none begins a comment or ends a label. -/
theorem special_of_tokenChar {c : Char} (h : isTokenChar c = true) :
    isSeparator c = false ∧ c ≠ ';' ∧ c ≠ ':' := by
  have hspecial : ∀ d, isTokenChar d = false → c ≠ d := by
    rintro d hd rfl
    exact Bool.false_ne_true (hd.symm.trans h)
  have hrange : ¬ (9 ≤ c.toNat ∧ c.toNat ≤ 13) := by
    intro hc
    simp only [isTokenChar, isalnum, isalpha, isdigit, between, Bool.or_eq_true, Bool.and_eq_true,
      decide_eq_true_eq, Char.reduceToNat, beq_iff_eq] at h
    rcases h with ((((h | rfl) | rfl) | rfl) | rfl) | rfl
    · omega
    all_goals exact absurd hc (by decide)
  refine ⟨?_, hspecial ';' rfl, hspecial ':' rfl⟩
  simp only [isSeparator, isspace, between, Bool.or_eq_false_iff, beq_eq_false_iff_ne,
    Bool.and_eq_false_iff, decide_eq_false_iff_not, Char.reduceToNat]
  exact ⟨⟨hspecial ' ' rfl, by omega⟩, hspecial ',' rfl⟩

theorem word_of_register {text : Text} {reg : Byte} (h : RegisterToken text reg) : Word text := by
  have hdigit : ∀ n : Fin 8, isalnum (Nat.digitChar n) = true := by decide
  obtain ⟨n⟩ := h
  refine ⟨List.cons_ne_nil _ _, List.forall_mem_cons.mpr ⟨rfl, ?_⟩⟩
  exact List.forall_mem_singleton.mpr (tokenChar_of_alnum (hdigit n))

theorem word_of_identifier {text : Text} (h : Identifier text) : Word text := by
  have hchar : ∀ c, isalnum c = true ∨ c = '_' → isTokenChar c = true := by
    rintro c (hc | rfl)
    · exact tokenChar_of_alnum hc
    · rfl
  obtain ⟨c, rest, rfl, hc, hrest⟩ := h
  refine ⟨List.cons_ne_nil _ _, List.forall_mem_cons.mpr ⟨?_, fun d hd => hchar d (hrest d hd)⟩⟩
  exact hchar c (hc.imp_left fun h => Bool.or_eq_true_iff.mpr (.inl h))

/-- A number consists of digits and letters. -/
theorem alnum_of_numeral {text : Text} {n : Nat} (h : Numeral text n) :
    text ≠ [] ∧ ∀ c ∈ text, isalnum c = true := by
  have hbetween : ∀ {lo hi c : Char}, '0'.toNat ≤ lo.toNat → hi.toNat ≤ '9'.toNat →
      between lo hi c = true → isalnum c = true := by
    intro lo hi c hlo hhi hc
    apply alnum_of_digit
    simp only [isdigit, between, Bool.and_eq_true, decide_eq_true_eq] at hc ⊢
    exact ⟨hlo.trans hc.1, hc.2.trans hhi⟩
  have hhex : ∀ c, isxdigit c = true → isalnum c = true := by
    intro c hc
    simp only [isxdigit, isalnum, isalpha, isdigit, between, Bool.or_eq_true, Bool.and_eq_true,
      decide_eq_true_eq, Char.reduceToNat] at hc ⊢
    omega
  cases h with
  | decimal hc hdigits =>
    exact ⟨List.cons_ne_nil _ _, List.forall_mem_cons.mpr
      ⟨hbetween (by decide) (by decide) hc, fun d hd => alnum_of_digit (hdigits d hd)⟩⟩
  | octal hdigits =>
    exact ⟨List.cons_ne_nil _ _, List.forall_mem_cons.mpr
      ⟨rfl, fun d hd => hbetween (by decide) (by decide) (hdigits d hd)⟩⟩
  | hexadecimal hx hdigits =>
    refine ⟨List.cons_ne_nil _ _, List.forall_mem_cons.mpr ⟨rfl, List.forall_mem_cons.mpr
      ⟨?_, fun d hd => hhex d (hdigits d hd)⟩⟩⟩
    rcases hx with rfl | rfl <;> rfl

theorem word_of_integer {text : Text} {value : WaiValue} (h : IntegerToken text value) :
    Word text := by
  have hnumeral : ∀ {digits : Text} {n : Nat}, Numeral digits n →
      ∀ c ∈ digits, isTokenChar c = true := fun hn c hc =>
    tokenChar_of_alnum ((alnum_of_numeral hn).2 c hc)
  obtain ⟨_, hlit, _⟩ := h
  cases hlit with
  | bare hn => exact ⟨(alnum_of_numeral hn).1, hnumeral hn⟩
  | plus hn | minus hn =>
    exact ⟨List.cons_ne_nil _ _, List.forall_mem_cons.mpr ⟨rfl, hnumeral hn⟩⟩

theorem word_of_memory {text : Text} {operand : MemOperand} (h : MemoryToken text operand) :
    Word text := by
  have hinner : ∀ {inner : Text}, Word inner → Word ('[' :: inner ++ [']']) := by
    intro inner hinner
    refine ⟨List.cons_ne_nil _ _, List.forall_mem_append.mpr
      ⟨List.forall_mem_cons.mpr ⟨rfl, hinner.chars⟩, ?_⟩⟩
    exact List.forall_mem_singleton.mpr rfl
  cases h with
  | reg _ hreg => exact hinner (word_of_register hreg)
  | abs _ haddress => exact hinner (word_of_integer haddress)

theorem word_of_mnemonic {name : Text} {form : MnemonicForm} (h : (name, form) ∈ mnemonics) :
    Word name := by
  have hall : (mnemonics.map Prod.fst).all (fun known => !known.isEmpty && known.all isalpha) = true := by
    decide +kernel
  have hname := List.all_eq_true.mp hall name (List.mem_map_of_mem (f := Prod.fst) h)
  rw [Bool.and_eq_true, List.all_eq_true] at hname
  exact ⟨by simpa using hname.1, fun c hc =>
    tokenChar_of_alnum (Bool.or_eq_true_iff.mpr (.inl (hname.2 c hc)))⟩

/-- The tokens of an instruction are words. -/
theorem words_of_form {tokens : List Text} {instr : WaiInstruction} {target : Option Text}
    (h : InstructionForm tokens instr target) : ∀ token ∈ tokens, Word token := by
  cases h with
  | @aluReg name _ _ opcodes _ _ hname ha hb =>
    have hword := word_of_mnemonic ((@mem_mnemonics_iff name (.alu opcodes)).mpr hname)
    simpa using ⟨hword, word_of_register ha, word_of_register hb⟩
  | @aluImm name _ _ opcodes _ _ hname ha himm =>
    have hword := word_of_mnemonic ((@mem_mnemonics_iff name (.alu opcodes)).mpr hname)
    simpa using ⟨hword, word_of_register ha, word_of_integer himm⟩
  | loadReg ha hmem | loadAbs ha hmem =>
    have hword := @word_of_mnemonic ['l', 'o', 'a', 'd'] .load (by simp [mnemonics])
    simpa using ⟨hword, word_of_register ha, word_of_memory hmem⟩
  | storeReg hmem ha | storeAbs hmem ha =>
    have hword := @word_of_mnemonic ['s', 't', 'o', 'r', 'e'] .store (by simp [mnemonics])
    simpa using ⟨hword, word_of_memory hmem, word_of_register ha⟩
  | @oneRegister name _ opcode _ hname ha =>
    have hword := word_of_mnemonic ((@mem_mnemonics_iff name (.oneRegister opcode)).mpr hname)
    simpa using ⟨hword, word_of_register ha⟩
  | @labelJump name _ opcode hname hlabel =>
    have hword := word_of_mnemonic ((@mem_mnemonics_iff name (.labelJump opcode)).mpr hname)
    simpa using ⟨hword, word_of_identifier hlabel⟩
  | @registerJump name _ _ opcode _ hname ha hlabel =>
    have hword := word_of_mnemonic ((@mem_mnemonics_iff name (.registerJump opcode)).mpr hname)
    simpa using ⟨hword, word_of_register ha, word_of_identifier hlabel⟩
  | @bare name opcode hname =>
    have hword := word_of_mnemonic ((@mem_mnemonics_iff name (.noOperand opcode)).mpr hname)
    simpa using hword

theorem not_colon_mem {text : Text} (h : Word text) : ':' ∉ text :=
  fun hmem => (special_of_tokenChar (h.chars _ hmem)).2.2 rfl

/-- An identifier holds no blank. -/
theorem free_of_identifier {name : Text} (h : Identifier name) : ∀ c ∈ name, isspace c = false :=
  fun c hc => (Bool.or_eq_false_iff.mp
    (special_of_tokenChar ((word_of_identifier h).chars c hc)).1).1

/-- What is left of an identifier and blanks behind it. -/
theorem trim_identifier {name blanks : Text} (hname : Identifier name)
    (hblanks : ∀ c ∈ blanks, isspace c = true) : trim (name ++ blanks) = name := by
  have hfree := free_of_identifier hname
  have hhead : ∀ c ∈ (name ++ blanks).head?, isspace c = false := by
    obtain ⟨first, rest, rfl, _⟩ := hname
    rintro c ⟨rfl⟩
    exact hfree first List.mem_cons_self
  have hright : (name ++ blanks).rdropWhile isspace = name.rdropWhile isspace := by
    rw [List.rdropWhile, List.reverse_append, List.dropWhile_append_of_pos]
    · rfl
    · exact fun c hc => hblanks c (List.mem_reverse.mp hc)
  rw [trim, dropWhile_of_head hhead, hright,
    rdropWhile_of_last fun c hc => hfree c (List.mem_of_getLast? hc)]

/-- `trim` leaves no blank at the beginning. -/
theorem head_trim {text : Text} {c : Char} (h : (trim text).head? = some c) : isspace c = false := by
  obtain ⟨rest, hrest⟩ := List.rdropWhile_prefix isspace (l := text.dropWhile isspace)
  have hhead := List.head?_dropWhile_not isspace text
  have htrim : ((text.dropWhile isspace).rdropWhile isspace).head? = some c := h
  rw [← hrest, List.head?_append, htrim] at hhead
  exact hhead

/-- A line that ends in a colon says nothing but a label. -/
theorem lineItem_of_colon {line : Text} {item : Item}
    (hhead : ∀ c ∈ (line ++ [':']).head?, isspace c = false) :
    LineItem (line ++ [':']) item ↔
      isIdentifier (trim line) = true ∧ item = .label (trim line) := by
  constructor
  · intro h
    generalize htext : line ++ [':'] = text at h
    cases h with
    | label hname hblanks =>
      obtain ⟨rfl, _⟩ := List.append_inj' htext rfl
      rw [trim_identifier hname hblanks]
      exact ⟨isIdentifier_iff.mpr hname, rfl⟩
    | instruction h =>
      have hmem : ':' ∈ text := htext ▸ List.mem_append_right _ List.mem_cons_self
      have hpiece : ∃ token ∈ pieces isSeparator text, ':' ∈ token := exists_piece_of_mem hmem rfl
      rw [← tokensOf_eq] at hpiece
      obtain ⟨token, htoken, hcolon⟩ := hpiece
      exact absurd hcolon (not_colon_mem (words_of_form h token htoken))
  · rintro ⟨hname, rfl⟩
    rw [isIdentifier_iff] at hname
    have hleft : line.dropWhile isspace = line := by
      refine dropWhile_of_head fun c hc => hhead c ?_
      rw [List.head?_append, hc]
      rfl
    have hline : trim line ++ line.rtakeWhile isspace = line := by
      rw [trim, hleft]
      exact List.rdropWhile_append_rtakeWhile
    have hblanks : ∀ c ∈ line.rtakeWhile isspace, isspace c = true := fun c hc =>
      List.mem_rtakeWhile_imp hc
    have hitem := LineItem.label hname hblanks
    rwa [hline] at hitem

/-- A line that does not end in a colon says nothing but an instruction. -/
theorem lineItem_of_no_colon {line : Text} {item : Item} (hlast : line.getLast? ≠ some ':') :
    LineItem line item ↔
      ∃ instr target, parseTokens (tokensOf line) = some (instr, target) ∧
        item = .instruction instr target := by
  constructor
  · intro h
    cases h with
    | label => exact absurd List.getLast?_concat hlast
    | instruction h => exact ⟨_, _, (parseTokens_iff (tokensOf_free line)).mpr h, rfl⟩
  · rintro ⟨instr, target, hparse, rfl⟩
    exact .instruction ((parseTokens_iff (tokensOf_free line)).mp hparse)

/-- A line of separators says nothing. -/
theorem not_lineItem_of_blank {line : Text} {item : Item}
    (hblank : ∀ c ∈ line, isSeparator c = true) : ¬ LineItem line item := by
  intro h
  cases h with
  | label => cases hblank ':' (List.mem_append_right _ List.mem_cons_self)
  | instruction h =>
    rw [tokensOf_eq_nil_iff.mpr hblank] at h
    cases h

/-- A line without blanks before it says at most one thing. -/
theorem lineItem_unique {line : Text} {item item' : Item}
    (hhead : ∀ c ∈ line.head?, isspace c = false) (h : LineItem line item)
    (h' : LineItem line item') : item = item' := by
  by_cases hlast : line.getLast? = some ':'
  · obtain ⟨body, rfl⟩ := List.getLast?_eq_some_iff.mp hlast
    rw [((lineItem_of_colon hhead).mp h).2, ((lineItem_of_colon hhead).mp h').2]
  · obtain ⟨_, _, hparse, rfl⟩ := (lineItem_of_no_colon hlast).mp h
    obtain ⟨_, _, hparse', rfl⟩ := (lineItem_of_no_colon hlast).mp h'
    rw [hparse] at hparse'
    cases hparse'
    rfl

/-- The lines of a text say at most one thing. -/
theorem readsAs_unique {rawLines : List Text} {items items' : List Item}
    (h : ReadsAs (rawLines.map stripLine) items) (h' : ReadsAs (rawLines.map stripLine) items') :
    items = items' := by
  induction rawLines generalizing items items' with
  | nil =>
    cases h
    cases h'
    rfl
  | cons rawLine rest ih =>
    rw [List.map_cons] at h h'
    cases h with
    | blank hblank hrest =>
      cases h' with
      | blank _ hrest' => exact ih hrest hrest'
      | item hitem' _ => exact absurd hitem' (not_lineItem_of_blank hblank)
    | item hitem hrest =>
      cases h' with
      | blank hblank' _ => exact absurd hitem (not_lineItem_of_blank hblank')
      | item hitem' hrest' =>
        rw [lineItem_unique (fun c hc => head_trim hc) hitem hitem', ih hrest hrest']

/-- The empty lines, which `strtok_r` skips, say nothing. -/
theorem readsAs_filter_iff {rawLines : List Text} {items : List Item} :
    ReadsAs ((rawLines.filter (!·.isEmpty)).map stripLine) items ↔
      ReadsAs (rawLines.map stripLine) items := by
  induction rawLines generalizing items with
  | nil => rfl
  | cons rawLine rest ih =>
    cases rawLine with
    | nil =>
      have hblank : ∀ c ∈ stripLine [], isSeparator c = true := fun c hc => by cases hc
      rw [List.filter_cons_of_neg (by simp), List.map_cons, ih]
      constructor
      · exact .blank hblank
      · intro h
        cases h with
        | blank _ hrest => exact hrest
        | item hitem _ => exact absurd hitem (not_lineItem_of_blank hblank)
    | cons c cs =>
      rw [List.filter_cons_of_pos (by simp), List.map_cons, List.map_cons]
      constructor
      · intro h
        cases h with
        | blank hblank hrest => exact .blank hblank (ih.mp hrest)
        | item hitem hrest => exact .item hitem (ih.mp hrest)
      · intro h
        cases h with
        | blank hblank hrest => exact .blank hblank (ih.mpr hrest)
        | item hitem hrest => exact .item hitem (ih.mpr hrest)

end Waivm
