import Waivm.StepCases

/-!
# Programs (`wai_program` in `bytecode.h`)

`WaiProgram` is an instruction array with its count, `OwnedProgram` one whose
array was grown by `wai_program_push`. Both carry what the C code relies on:
the count is the length of the array, and the array fits in the address space.

`WellFormed count ins` says what a well-formed instruction of a program of
`count` instructions is. The verifier and the bytecode validator are two
independent checks of it.
-/

namespace Waivm

/-- The greatest number of instructions an array can hold: `SIZE_MAX / sizeof(wai_instruction)`. -/
def maxInstructions : Nat := sizeMax / sizeofWaiInstruction

/-- `wai_program`. `code` is `none` for a `NULL` pointer, and otherwise the
`count` instructions it points to. -/
@[ext]
structure WaiProgram where
  code : Option (List WaiInstruction)
  count : Nat
  capacity : Nat
  count_eq : ∀ l, code = some l → count = l.length
  count_le : count ≤ maxInstructions

/-- The instructions of a program. -/
def WaiProgram.instructions (program : WaiProgram) : List WaiInstruction :=
  program.code.getD []

/-- The program that an array of instructions makes. -/
def WaiProgram.ofList (l : List WaiInstruction) (h : l.length ≤ maxInstructions) : WaiProgram where
  code := some l
  count := l.length
  capacity := l.length
  count_eq := fun _ hl => congrArg List.length (Option.some.inj hl)
  count_le := h

/-- A program whose array was allocated by `wai_program_push`: there is room for
`capacity` instructions, and no array is allocated for none. -/
structure OwnedProgram extends WaiProgram where
  null_empty : code = none → capacity = 0
  count_le_capacity : count ≤ capacity
  capacity_le : capacity ≤ maxInstructions

/-- `wai_program_init`, and the program left by `wai_program_free`. -/
def waiProgramInit : OwnedProgram where
  code := none
  count := 0
  capacity := 0
  count_eq := fun _ h => nomatch h
  count_le := Nat.zero_le _
  null_empty := fun _ => rfl
  count_le_capacity := le_rfl
  capacity_le := Nat.zero_le _

/-- The program in an array that has exactly the size of `l`; no array is
allocated for no instruction. -/
def OwnedProgram.ofArray (l : List WaiInstruction) (h : l.length ≤ maxInstructions) :
    OwnedProgram where
  code := if l = [] then none else some l
  count := l.length
  capacity := l.length
  count_eq := by
    intro l' hl'
    split at hl'
    · cases hl'
    · cases hl'
      rfl
  count_le := h
  null_empty := by
    intro hl
    split at hl
    · next hnil => rw [hnil]; rfl
    · cases hl
  count_le_capacity := le_rfl
  capacity_le := h

@[simp] theorem OwnedProgram.ofArray_instructions (l : List WaiInstruction)
    (h : l.length ≤ maxInstructions) : (OwnedProgram.ofArray l h).instructions = l := by
  unfold WaiProgram.instructions OwnedProgram.ofArray
  split
  · next hnil => exact hnil.symm
  · rfl

theorem OwnedProgram.count_eq_zero (program : OwnedProgram) (hc : program.code = none) :
    program.count = 0 :=
  Nat.le_zero.mp (program.null_empty hc ▸ program.count_le_capacity)

/-- An owned program that has instructions has an array. -/
theorem OwnedProgram.not_null (program : OwnedProgram) :
    ¬ (0 < program.count ∧ program.code = none) :=
  fun ⟨hpos, hc⟩ => Nat.ne_of_gt hpos (program.count_eq_zero hc)

/-- The number of instructions of an owned program, whether its array is `NULL` or not. -/
theorem OwnedProgram.count_eq_length (program : OwnedProgram) :
    program.count = program.instructions.length := by
  cases hc : program.code with
  | none =>
    rw [WaiProgram.instructions, hc]
    exact program.count_eq_zero hc
  | some l =>
    rw [WaiProgram.instructions, hc]
    exact program.count_eq l hc

theorem OwnedProgram.length_le (program : OwnedProgram) :
    program.instructions.length ≤ maxInstructions :=
  program.count_eq_length ▸ program.count_le

/-- The program with `instruction` written behind its last one. -/
def OwnedProgram.append (program : OwnedProgram) (instruction : WaiInstruction) (capacity : Nat)
    (hroom : program.count < capacity) (hcap : capacity ≤ maxInstructions) : OwnedProgram where
  code := some (program.instructions ++ [instruction])
  count := program.count + 1
  capacity := capacity
  count_eq := by
    intro l hl
    cases hl
    rw [List.length_append, ← program.count_eq_length]
    rfl
  count_le := Nat.le_trans hroom hcap
  null_empty := fun h => nomatch h
  count_le_capacity := hroom
  capacity_le := hcap

/-- The capacity `wai_program_push` asks for when the array is full. -/
def grownCapacity (capacity : Nat) : Nat :=
  if capacity = 0 then 16 else capacity * 2

theorem lt_grownCapacity (capacity : Nat) : capacity < grownCapacity capacity := by
  unfold grownCapacity
  split <;> omega

/-- `wai_program_push`. `alloc n` says whether `realloc` gives an array of `n`
instructions. -/
def waiProgramPush (alloc : Nat → Bool) (program : OwnedProgram) (instruction : WaiInstruction) :
    WaiErrorCode × OwnedProgram :=
  if hfull : program.count = program.capacity then
    if program.capacity > sizeMax / 2 then (.errOom, program)
    else if hmax : grownCapacity program.capacity > maxInstructions then (.errOom, program)
    else if !alloc (grownCapacity program.capacity) then (.errOom, program)
    else (.ok, program.append instruction (grownCapacity program.capacity)
      (hfull ▸ lt_grownCapacity _) (Nat.not_lt.mp hmax))
  else (.ok, program.append instruction program.capacity
    (Nat.lt_of_le_of_ne program.count_le_capacity hfull) program.capacity_le)

/-- A push either fails and changes nothing, or adds the instruction at the end. -/
theorem push_instructions {alloc : Nat → Bool} {program program' : OwnedProgram}
    {ins : WaiInstruction} {status : WaiErrorCode}
    (h : waiProgramPush alloc program ins = (status, program')) :
    (status = .errOom ∧ program' = program) ∨
    (status = .ok ∧ program'.instructions = program.instructions ++ [ins]) := by
  unfold waiProgramPush at h
  split at h
  · split at h
    · cases h; exact .inl ⟨rfl, rfl⟩
    · split at h
      · cases h; exact .inl ⟨rfl, rfl⟩
      · split at h
        · cases h; exact .inl ⟨rfl, rfl⟩
        · cases h; exact .inr ⟨rfl, rfl⟩
  · cases h; exact .inr ⟨rfl, rfl⟩

/-! ## Well-formed instructions -/

/-- `ins` is a well-formed instruction of a program of `count` instructions. -/
structure WellFormed (count : Nat) (ins : WaiInstruction) : Prop where
  reserved_zero : ins.c = 0
  opcode_known : ins.op ≠ .invalid
  register_a : ins.op ∈ WaiOpcode.usesA → validReg ins.a = true
  register_b : ins.op ∈ WaiOpcode.usesB → validReg ins.b = true
  shift : ins.op = .shlImm ∨ ins.op = .shrImm → ValidShift ins.imm
  divisor : ins.op = .divImm ∨ ins.op = .modImm → ins.imm ≠ 0
  target : ins.op ∈ WaiOpcode.jumps → 0 ≤ ins.imm.toInt ∧ ins.imm.toNat < count
  address : ins.op = .loadAbs ∨ ins.op = .storeAbs → ValidAddress ins.imm

end Waivm
