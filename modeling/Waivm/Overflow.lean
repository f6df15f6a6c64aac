import Waivm.Division

/-!
# Signed overflow in the C stepper

The bitwise cases of `wai_vm_step` compute in `uint64_t`, the cases of `ADD`,
`SUB` and `MUL` in `int64_t`, where C leaves a result undefined that is no
`int64_t`. The model of the step wraps around there, like the assembly engine.
Here the cases are compared with the operation on the integers.

Results:
1. `inInt64_add_iff`, `inInt64_sub_iff`, `inInt64_mul_iff`: the operands whose
   result is an `int64_t`.
2. `signed_step`: what an `ADD`, `SUB` or `MUL` leaves in its register.
3. `arithmetic_defined_iff`: the arithmetic of a verified program is defined in
   a state, and along a run, exactly when the operands are such operands.
4. `arithmetic_overflow_reached`: a verified program with other operands.
-/

namespace Waivm

open Machine (Path)

/-! ## 1. Operands of `int64_t` operations -/

/-- `INT64_MAX` -/
def int64Max : Int := 2 ^ 63 - 1

/-- `INT64_MIN` -/
def int64Min : Int := -2 ^ 63

/-- The operands of a sum: no overflow upwards or downwards. -/
def SafeAdd (x y : Int) : Prop :=
  (0 < y → x ≤ int64Max - y) ∧ (y < 0 → int64Min - y ≤ x)

/-- The operands of a difference. -/
def SafeSub (x y : Int) : Prop :=
  (y < 0 → x ≤ int64Max + y) ∧ (0 < y → int64Min + y ≤ x)

/-- The operands of a product: the bound on the first factor depends on the sign of the product. -/
def SafeMul (x y : Int) : Prop :=
  y ≠ 0 → x.natAbs ≤ (if 0 ≤ x ↔ 0 < y then 2 ^ 63 - 1 else 2 ^ 63) / y.natAbs

theorem inInt64_toInt (x : WaiValue) : InInt64 x.toInt := by
  have hlt := BitVec.two_mul_toInt_lt (x := x)
  have hle := BitVec.le_two_mul_toInt (x := x)
  unfold InInt64
  omega

section Operands
variable {x y : Int}

theorem inInt64_add_iff (hx : InInt64 x) (hy : InInt64 y) : InInt64 (x + y) ↔ SafeAdd x y := by
  unfold InInt64 SafeAdd int64Max int64Min at *
  omega

theorem inInt64_sub_iff (hx : InInt64 x) (hy : InInt64 y) : InInt64 (x - y) ↔ SafeSub x y := by
  unfold InInt64 SafeSub int64Max int64Min at *
  omega

theorem inInt64_mul_iff : InInt64 (x * y) ↔ SafeMul x y := by
  have habs : (x * y).natAbs = x.natAbs * y.natAbs := Int.natAbs_mul x y
  unfold SafeMul InInt64
  rcases eq_or_ne y 0 with rfl | hy
  · simp
  have hpos : 0 < y.natAbs := Int.natAbs_pos.mpr hy
  rw [Nat.le_div_iff_mul_le hpos, ← habs]
  -- the sign of the product decides which end of the range matters
  rcases Int.lt_or_gt_of_ne hy with hneg | hpos
  · rcases lt_or_ge x 0 with hx | hx
    · have hsign : 0 ≤ x * y := Int.mul_nonneg_of_nonpos_of_nonpos hx.le hneg.le
      rw [if_pos (iff_of_false (Int.not_le.mpr hx) (Int.not_lt.mpr hneg.le))]
      omega
    · have hsign : x * y ≤ 0 := Int.mul_nonpos_of_nonneg_of_nonpos hx hneg.le
      rw [if_neg fun h => absurd (h.mp hx) (Int.not_lt.mpr hneg.le)]
      omega
  · rcases lt_or_ge x 0 with hx | hx
    · have hsign : x * y ≤ 0 := Int.mul_nonpos_of_nonpos_of_nonneg hx.le hpos.le
      rw [if_neg fun h => absurd (h.mpr hpos) (Int.not_le.mpr hx)]
      omega
    · have hsign : 0 ≤ x * y := Int.mul_nonneg hx hpos.le
      rw [if_pos (iff_of_true hx hpos)]
      omega

end Operands

/-! ## 2. One step -/

/-- The opcodes that compute in `int64_t` and are not tested for their operands. -/
def WaiOpcode.signed : List WaiOpcode := [.addImm, .addReg, .subImm, .subReg, .mulImm, .mulReg]

/-- The right operand of such an instruction. -/
def WaiInstruction.operand (ins : WaiInstruction) (vm : WaiVm) : WaiValue :=
  if ins.op ∈ WaiOpcode.usesB then vm.regD ins.b else ins.imm

/-- The operation of such an instruction, on the integers. -/
def signedResult (op : WaiOpcode) (x y : Int) : Int :=
  if op = .addImm ∨ op = .addReg then x + y
  else if op = .subImm ∨ op = .subReg then x - y
  else x * y

/-- The next instruction, when it is an `ADD`, `SUB` or `MUL`, evaluates to an `int64_t`, and this
is what it leaves in its register. -/
def ArithmeticDefined (vm : WaiVm) : Prop :=
  ∀ ins, vm.current = some ins → ins.op ∈ WaiOpcode.signed →
    InInt64 (signedResult ins.op (vm.regD ins.a).toInt (ins.operand vm).toInt) ∧
      ∃ vm', StepOk vm vm' ∧ (vm'.regD ins.a).toInt =
        signedResult ins.op (vm.regD ins.a).toInt (ins.operand vm).toInt

/-- The operands of the operation that an opcode evaluates. -/
def SafeFor (op : WaiOpcode) (x y : Int) : Prop :=
  if op = .addImm ∨ op = .addReg then SafeAdd x y
  else if op = .subImm ∨ op = .subReg then SafeSub x y
  else SafeMul x y

/-- The operands of the next instruction, when it is an `ADD`, `SUB` or `MUL`. -/
def SafeOperands (vm : WaiVm) : Prop :=
  ∀ ins, vm.current = some ins → ins.op ∈ WaiOpcode.signed →
    SafeFor ins.op (vm.regD ins.a).toInt (ins.operand vm).toInt

section Step
variable {vm : WaiVm} {ins : WaiInstruction}

theorem signed_usesA {op : WaiOpcode} (h : op ∈ WaiOpcode.signed) : op ∈ WaiOpcode.usesA := by
  revert h
  cases op <;> decide

theorem inInt64_signed_iff (op : WaiOpcode) (x y : WaiValue) :
    InInt64 (signedResult op x.toInt y.toInt) ↔ SafeFor op x.toInt y.toInt := by
  unfold signedResult SafeFor
  split
  · exact inInt64_add_iff (inInt64_toInt x) (inInt64_toInt y)
  · split
    · exact inInt64_sub_iff (inInt64_toInt x) (inInt64_toInt y)
    · exact inInt64_mul_iff

/-- The operation of the switch for such an opcode. -/
def signedOp (op : WaiOpcode) : BinaryOp :=
  if op = .addImm ∨ op = .addReg then addOp
  else if op = .subImm ∨ op = .subReg then subOp
  else mulOp

/-- The operation of the switch is the one on the integers, wrapped around. -/
theorem signedOp_spec (op : WaiOpcode) (x y : WaiValue) :
    signedOp op x y = .ok (.ok (BitVec.ofInt 64 (signedResult op x.toInt y.toInt))) := by
  unfold signedOp signedResult
  split
  · rw [BitVec.ofInt_add, BitVec.ofInt_toInt, BitVec.ofInt_toInt]
    rfl
  · split
    · rw [Int.sub_eq_add_neg, BitVec.ofInt_add, BitVec.ofInt_neg, BitVec.ofInt_toInt,
        BitVec.ofInt_toInt, ← BitVec.sub_eq_add_neg]
      rfl
    · rw [BitVec.ofInt_mul, BitVec.ofInt_toInt, BitVec.ofInt_toInt]
      rfl

/-- An `ADD`, `SUB` or `MUL` with valid registers. -/
theorem signed_step (hop : ins.op ∈ WaiOpcode.signed) (ha : validReg ins.a = true)
    (hb : ins.op ∈ WaiOpcode.usesB → validReg ins.b = true) :
    stepSwitch vm ins = .ok (vm.assigned ins.a (.ok (BitVec.ofInt 64
      (signedResult ins.op (vm.regD ins.a).toInt (ins.operand vm).toInt)))) := by
  have hcase : stepSwitch vm ins =
      (signedOp ins.op (vm.regD ins.a) (ins.operand vm)).map (vm.assigned ins.a) := by
    unfold stepSwitch WaiInstruction.operand
    rw [show WaiOpcode.ofByte ins.opcode = ins.op from rfl]
    generalize ins.op = op at hop hb
    simp only [WaiOpcode.signed, List.mem_cons, List.not_mem_nil, or_false] at hop
    rcases hop with rfl | rfl | rfl | rfl | rfl | rfl
    · exact caseImm_spec ha
    · exact caseReg_spec ha (hb (by decide))
    · exact caseImm_spec ha
    · exact caseReg_spec ha (hb (by decide))
    · exact caseImm_spec ha
    · exact caseReg_spec ha (hb (by decide))
  rw [hcase, signedOp_spec]
  rfl

theorem toInt_ofInt_of_inInt64 {x : Int} (h : InInt64 x) : (BitVec.ofInt 64 x).toInt = x := by
  rw [BitVec.toInt_ofInt]
  exact Int.bmod_eq_of_le_mul_two (by have := h.1; omega) (by have := h.2; omega)

/-- In a verified program the arithmetic of a state is defined exactly when the operands are
safe. -/
theorem arithmeticDefined_iff {code : List WaiInstruction} {d : Nat} (hlen : code.length < 2 ^ 64)
    (hall : ∀ ins ∈ code, WellFormed code.length ins) (h : MachineInvariant code vm d) :
    ArithmeticDefined vm ↔ SafeOperands vm := by
  constructor
  · intro hdef ins hcur hop
    exact (inInt64_signed_iff _ _ _).mp (hdef ins hcur hop).1
  · intro hsafe ins hcur hop
    have hin := (inInt64_signed_iff _ _ _).mpr (hsafe ins hcur hop)
    obtain ⟨_, hs⟩ := current_step hlen h hcur
    have hw : WellFormed code.length ins := hall ins (current_mem h hcur)
    have ha : validReg ins.a = true := hw.register_a (signed_usesA hop)
    rw [signed_step hop ha hw.register_b] at hs
    refine ⟨hin, _, hs, ?_⟩
    exact (congrArg BitVec.toInt (regD_withReg _ ha _)).trans (toInt_ofInt_of_inInt64 hin)

end Step

/-! ## 3. Runs -/

/-- A call of `wai_vm_step` that C defines. -/
def DefinedStep (vm vm' : WaiVm) : Prop :=
  ArithmeticDefined vm ∧ StepOk vm vm'

/-- The arithmetic of a verified program. In every state reached, an `ADD`, `SUB` or `MUL` is
defined exactly when its operands are safe, and a run is one of the C language exactly when this
is so in every state that it steps from. -/
theorem arithmetic_defined_iff (program : WaiProgram) (hok : (waiVerifyProgram program).1 = .ok) :
    (∀ vm, StepReach program.initialVm vm → (ArithmeticDefined vm ↔ SafeOperands vm)) ∧
    ∀ vms vm, Path StepOk vms program.initialVm vm →
      (Path DefinedStep vms program.initialVm vm ↔ ∀ v ∈ vms, SafeOperands v) := by
  have hstate : ∀ vm, StepReach program.initialVm vm →
      (ArithmeticDefined vm ↔ SafeOperands vm) := by
    intro vm hr
    obtain ⟨hn, hall⟩ := (verify_ok_iff program).mp hok
    cases hc : program.code with
    | none =>
      have h0 : program.count = 0 := Nat.eq_zero_of_not_pos fun hpos => hn ⟨hpos, hc⟩
      have hcur := (null_division hc h0 hr).2.1
      constructor
      · intro _ ins hins
        cases hcur.symm.trans hins
      · intro _ ins hins
        cases hcur.symm.trans hins
    | some code =>
      rw [WaiProgram.instructions, hc, program.count_eq code hc] at hall
      rw [program.initialVm_eq hc] at hr
      obtain ⟨d, hinv⟩ := invariant_reach (program.length_lt hc) hr
      exact arithmeticDefined_iff (program.length_lt hc) hall hinv
  refine ⟨hstate, fun vms vm hpath => ?_⟩
  have hreach : ∀ v ∈ vms, StepReach program.initialVm v := fun v hv => hpath.reaches_mem hv
  constructor
  · intro hdef v hv
    exact (hstate v (hreach v hv)).mp (hdef.forall_left v hv)
  · intro hsafe
    exact hpath.and_left fun v hv => (hstate v (hreach v hv)).mpr (hsafe v hv)

/-- `mov r0, INT64_MAX`, `add r0, 1` and `halt`. -/
def addOneToMax : WaiProgram :=
  .ofList [⟨1, 0, 0, 0, BitVec.intMax 64⟩, ⟨3, 0, 0, 0, 1⟩, ⟨15, 0, 0, 0, 0⟩] (by decide)

/-- The machine of `addOneToMax` after the `mov`. -/
def addOneToMaxVm : WaiVm :=
  updateZf (addOneToMax.initialVm.fetched.withReg 0 (BitVec.intMax 64)) (BitVec.intMax 64)

theorem addOneToMax_reach : StepReach addOneToMax.initialVm addOneToMaxVm := by
  refine .single ?_
  show caseImm addOneToMax.initialVm.fetched ⟨1, 0, 0, 0, BitVec.intMax 64⟩ movOp = _
  rw [caseImm_spec (by decide)]
  rfl

/-- `mov r0, 7`, `add r0, 1` and `halt`. -/
def addOneToSeven : WaiProgram :=
  .ofList [⟨1, 0, 0, 0, 7⟩, ⟨3, 0, 0, 0, 1⟩, ⟨15, 0, 0, 0, 0⟩] (by decide)

/-- The machine of `addOneToSeven` after the `mov`. -/
def addOneToSevenVm : WaiVm :=
  updateZf (addOneToSeven.initialVm.fetched.withReg 0 7) 7

/-- The sum of `7` and `1`, at the `add` that computes it. -/
theorem arithmetic_defined_iff_seven :
    (waiVerifyProgram addOneToSeven).1 = .ok ∧
    StepReach addOneToSeven.initialVm addOneToSevenVm ∧
    addOneToSevenVm.current = some ⟨3, 0, 0, 0, 1⟩ ∧ ArithmeticDefined addOneToSevenVm := by
  have hreach : StepReach addOneToSeven.initialVm addOneToSevenVm := by
    refine .single ?_
    show caseImm addOneToSeven.initialVm.fetched ⟨1, 0, 0, 0, 7⟩ movOp = _
    rw [caseImm_spec (by decide)]
    rfl
  have hsafe : SafeOperands addOneToSevenVm := by
    intro ins hcur hop
    cases hcur
    exact ⟨fun _ => by decide, fun h => absurd h (by decide)⟩
  exact ⟨rfl, hreach, rfl, ((arithmetic_defined_iff addOneToSeven rfl).1 _ hreach).mpr hsafe⟩

/-- A verified program that adds `1` to the greatest `int64_t`. -/
theorem arithmetic_overflow_reached :
    (waiVerifyProgram addOneToMax).1 = .ok ∧
    StepReach addOneToMax.initialVm addOneToMaxVm ∧
    ¬ ArithmeticDefined addOneToMaxVm := by
  refine ⟨rfl, addOneToMax_reach, fun hdef => ?_⟩
  have hin := (hdef ⟨3, 0, 0, 0, 1⟩ rfl (by decide)).1
  revert hin
  decide

end Waivm
