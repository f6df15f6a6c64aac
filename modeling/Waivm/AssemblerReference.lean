import Waivm.Assembler

/-!
# The two-pass reading of a source text

What a source text says, without a label table and without back-patching. The first
pass reads every line by itself: it is blank, it defines a label, or it is an
instruction that may refer to a label (`ReadsAs`). The second pass counts: a label stands
for the number of instructions before its definition (`translate`).
-/

namespace Waivm

open CString
open LittleEndian (Byte)

/-! ## Operands -/

/-- An identifier: a letter or `_`, then letters, digits and `_`. -/
def Identifier (text : Text) : Prop :=
  ∃ c rest, text = c :: rest ∧ (isalpha c = true ∨ c = '_') ∧
    ∀ d ∈ rest, isalnum d = true ∨ d = '_'

/-- `r0`, …, `r7` -/
inductive RegisterToken : Text → Byte → Prop
  | mk (n : Fin 8) : RegisterToken ['r', Nat.digitChar n] (BitVec.ofNat 8 n)

/-- An integer literal of C whose value is in the range of `int64_t`. -/
def IntegerToken (text : Text) (value : WaiValue) : Prop :=
  ∃ n : Int, Literal text n ∧ -2 ^ 63 ≤ n ∧ n < 2 ^ 63 ∧ value = BitVec.ofInt 64 n

/-- A register or an integer in brackets, with at most 63 characters between them. -/
inductive MemoryToken : Text → MemOperand → Prop
  | reg {inner : Text} {reg : Byte} (hlength : inner.length ≤ 63) (h : RegisterToken inner reg) :
      MemoryToken ('[' :: inner ++ [']']) (.reg reg)
  | abs {inner : Text} {address : WaiValue} (hlength : inner.length ≤ 63)
      (h : IntegerToken inner address) : MemoryToken ('[' :: inner ++ [']']) (.abs address)

/-! ## Instructions -/

/-- The mnemonics with one register operand. -/
def oneRegisterOpcodes : List (Text × WaiOpcode) :=
  [(['p', 'u', 's', 'h'], .push), (['p', 'o', 'p'], .pop), (['p', 'r', 'i', 'n', 't'], .print),
    (['n', 'o', 't'], .not)]

/-- The mnemonics with a label operand. -/
def labelOpcodes : List (Text × WaiOpcode) :=
  [(['j', 'm', 'p'], .jmp), (['c', 'a', 'l', 'l'], .call), (['j', 'e'], .je),
    (['j', 'n', 'e'], .jne)]

/-- The mnemonics with a register and a label operand. -/
def registerLabelOpcodes : List (Text × WaiOpcode) :=
  [(['j', 'z'], .jz), (['j', 'n', 'z'], .jnz)]

/-- The mnemonics without an operand. -/
def bareOpcodes : List (Text × WaiOpcode) :=
  [(['r', 'e', 't'], .ret), (['n', 'o', 'p'], .nop), (['h', 'a', 'l', 't'], .halt)]

/-- The instruction forms over tokens: the instruction, and the label that it refers to. -/
inductive InstructionForm : List Text → WaiInstruction → Option Text → Prop
  | aluReg {name dst src : Text} {opcodes : WaiOpcode × WaiOpcode} {a b : Byte}
      (hname : (name, opcodes) ∈ aluOpcodes) (ha : RegisterToken dst a)
      (hb : RegisterToken src b) :
      InstructionForm [name, dst, src] { makeInstr opcodes.1 with a := a, b := b } none
  | aluImm {name dst src : Text} {opcodes : WaiOpcode × WaiOpcode} {a : Byte} {imm : WaiValue}
      (hname : (name, opcodes) ∈ aluOpcodes) (ha : RegisterToken dst a)
      (himm : IntegerToken src imm) :
      InstructionForm [name, dst, src] { makeInstr opcodes.2 with a := a, imm := imm } none
  | loadReg {dst mem : Text} {a b : Byte} (ha : RegisterToken dst a)
      (hmem : MemoryToken mem (.reg b)) :
      InstructionForm [['l', 'o', 'a', 'd'], dst, mem]
        { makeInstr .loadReg with a := a, b := b } none
  | loadAbs {dst mem : Text} {a : Byte} {address : WaiValue} (ha : RegisterToken dst a)
      (hmem : MemoryToken mem (.abs address)) :
      InstructionForm [['l', 'o', 'a', 'd'], dst, mem]
        { makeInstr .loadAbs with a := a, imm := address } none
  | storeReg {mem src : Text} {a b : Byte} (hmem : MemoryToken mem (.reg b))
      (ha : RegisterToken src a) :
      InstructionForm [['s', 't', 'o', 'r', 'e'], mem, src]
        { makeInstr .storeReg with a := a, b := b } none
  | storeAbs {mem src : Text} {a : Byte} {address : WaiValue} (hmem : MemoryToken mem (.abs address))
      (ha : RegisterToken src a) :
      InstructionForm [['s', 't', 'o', 'r', 'e'], mem, src]
        { makeInstr .storeAbs with a := a, imm := address } none
  | oneRegister {name reg : Text} {opcode : WaiOpcode} {a : Byte}
      (hname : (name, opcode) ∈ oneRegisterOpcodes) (ha : RegisterToken reg a) :
      InstructionForm [name, reg] { makeInstr opcode with a := a } none
  | labelJump {name label : Text} {opcode : WaiOpcode} (hname : (name, opcode) ∈ labelOpcodes)
      (hlabel : Identifier label) :
      InstructionForm [name, label] (makeInstr opcode) (some label)
  | registerJump {name reg label : Text} {opcode : WaiOpcode} {a : Byte}
      (hname : (name, opcode) ∈ registerLabelOpcodes) (ha : RegisterToken reg a)
      (hlabel : Identifier label) :
      InstructionForm [name, reg, label] { makeInstr opcode with a := a } (some label)
  | bare {name : Text} {opcode : WaiOpcode} (hname : (name, opcode) ∈ bareOpcodes) :
      InstructionForm [name] (makeInstr opcode) none

/-! ## Lines -/

/-- What a line that is not blank says. -/
inductive Item
  | label (name : Text)
  | instruction (instr : WaiInstruction) (target : Option Text)
deriving DecidableEq

/-- The tokens of a line: what stands between blanks and commas. -/
def tokensOf (line : Text) : List Text :=
  (line.splitOnP isSeparator).filter (!·.isEmpty)

/-- `LineItem line item`: the line says `item`. -/
inductive LineItem : Text → Item → Prop
  | label {name blanks : Text} (hname : Identifier name) (hblanks : ∀ c ∈ blanks, isspace c = true) :
      LineItem (name ++ blanks ++ [':']) (.label name)
  | instruction {line : Text} {instr : WaiInstruction} {target : Option Text}
      (h : InstructionForm (tokensOf line) instr target) :
      LineItem line (.instruction instr target)

/-- The first pass: the lines say `items`, and the other lines consist of separators. -/
inductive ReadsAs : List Text → List Item → Prop
  | nil : ReadsAs [] []
  | blank {line : Text} {lines : List Text} {items : List Item}
      (hblank : ∀ c ∈ line, isSeparator c = true) (rest : ReadsAs lines items) :
      ReadsAs (line :: lines) items
  | item {line : Text} {lines : List Text} {item : Item} {items : List Item}
      (hitem : LineItem line item) (rest : ReadsAs lines items) :
      ReadsAs (line :: lines) (item :: items)

/-- A line without its comment and without the blanks around it. -/
def stripLine (rawLine : Text) : Text :=
  trim (rawLine.takeWhile (· != ';'))

/-- The lines of a text. -/
def sourceLines (source : Text) : List Text :=
  (source.splitOn '\n').map stripLine

/-! ## Labels -/

/-- The names of the labels that are defined, in the order of their definitions. -/
def labelNames (items : List Item) : List Text :=
  items.filterMap fun
    | .label name => some name
    | .instruction _ _ => none

/-- The instruction lines. -/
def instructionLines (items : List Item) : List (WaiInstruction × Option Text) :=
  items.filterMap fun
    | .label _ => none
    | .instruction instr target => some (instr, target)

/-- The labels that jumps refer to. -/
def references (items : List Item) : List Text :=
  (instructionLines items).filterMap Prod.snd

/-- The number of instruction lines before the first definition of a label that `isName`
holds of. -/
def instructionsBefore (isName : Text → Bool) (items : List Item) : Nat :=
  (instructionLines (items.takeWhile fun
    | .label name => !isName name
    | .instruction _ _ => true)).length

/-- What a label stands for: the number of instruction lines before its definition. -/
def labelTarget (items : List Item) (name : Text) : Nat :=
  instructionsBefore (· = name) items

/-- The instruction of a line, with the target of its label. -/
def linkLine (target : Text → Nat) : WaiInstruction × Option Text → WaiInstruction
  | (instr, none) => instr
  | (instr, some name) => { instr with imm := BitVec.ofNat 64 (target name) }

/-- The second pass. -/
def translate (items : List Item) : List WaiInstruction :=
  (instructionLines items).map (linkLine (labelTarget items))

/-- No label is defined twice, and every label that is referred to is defined. -/
structure LabelsDefined (items : List Item) : Prop where
  nodup : (labelNames items).Nodup
  defined : ∀ name ∈ references items, name ∈ labelNames items

end Waivm
