import Waivm.EngineAgreement

/-!
# Division of a verified program

The only test of a divisor, in the verifier and in both engines, is that it is
not zero. The other pair of operands that has no quotient, the smallest
`int64_t` divided by `-1`, reaches the division.

Results:
1. `division_step`: what a `DIV` or `MOD` does when the quotient exists.
2. `division_defined_iff`: the division of a state is defined exactly when it is
   not that pair, and `wai_vm_exec_asm` is never stopped by the processor exactly
   when no state on its way divides that pair.
3. `division_overflow_reached`: a verified program that divides that pair.
-/

namespace Waivm

open X86 (Reg Val)
open Machine (Ends)

/-! ## 1. One division -/

/-- The next instruction divides `INT64_MIN` by `-1`. -/
def DividesMinByMinusOne (vm : WaiVm) : Prop :=
  ∃ ins, vm.current = some ins ∧ DivOverflow vm ins

/-- What a `DIV` or `MOD` leaves in its register. -/
def divisionResult (op : WaiOpcode) (x y : WaiValue) : WaiValue :=
  if op = .divImm ∨ op = .divReg then BitVec.ofInt 64 (x.toInt.tdiv y.toInt)
  else BitVec.ofInt 64 (x.toInt.tmod y.toInt)

/-- The next instruction, when it is a `DIV` or `MOD`, reports a zero divisor or
computes a quotient and a remainder that are `int64_t` values. -/
def DivisionDefined (vm : WaiVm) : Prop :=
  ∀ ins, vm.current = some ins → ins.op ∈ WaiOpcode.divides →
    FailsWith vm .errDivZero ∨
    (InInt64 ((vm.regD ins.a).toInt.tdiv (ins.divisor vm).toInt) ∧
      InInt64 ((vm.regD ins.a).toInt.tmod (ins.divisor vm).toInt) ∧
      ∃ vm', StepOk vm vm' ∧
        vm'.regD ins.a = divisionResult ins.op (vm.regD ins.a) (ins.divisor vm))

section Division
variable {vm : WaiVm} {ins : WaiInstruction}

theorem divides_usesA {op : WaiOpcode} (h : op ∈ WaiOpcode.divides) : op ∈ WaiOpcode.usesA := by
  revert h
  cases op <;> decide

/-- Every remainder of two `int64_t` values is an `int64_t`. -/
theorem inInt64_tmod (x y : WaiValue) : InInt64 (x.toInt.tmod y.toInt) := by
  have hx := BitVec.two_mul_toInt_lt (x := x)
  have hx' := BitVec.le_two_mul_toInt (x := x)
  have habs : (x.toInt.tmod y.toInt).natAbs ≤ x.toInt.natAbs := by
    rw [Int.natAbs_tmod]
    exact Nat.mod_le _ _
  have hsign : 0 ≤ (-x.toInt) → 0 ≤ (-x.toInt).tmod y.toInt := fun h => Int.tmod_nonneg _ h
  rw [Int.neg_tmod] at hsign
  unfold InInt64
  omega

theorem divOp_spec {x y : WaiValue} (h : ¬ (x = BitVec.intMin 64 ∧ y = -1)) :
    divOp x y = if y = 0 then .ok (.error .errDivZero)
      else .ok (.ok (BitVec.ofInt 64 (x.toInt.tdiv y.toInt))) := by
  unfold divOp
  split
  · rfl
  · next hy => rw [cDiv, if_pos ((inInt64_tdiv_iff hy).mpr h)]; rfl

theorem modOp_spec {x y : WaiValue} (h : ¬ (x = BitVec.intMin 64 ∧ y = -1)) :
    modOp x y = if y = 0 then .ok (.error .errDivZero)
      else .ok (.ok (BitVec.ofInt 64 (x.toInt.tmod y.toInt))) := by
  unfold modOp
  split
  · rfl
  · next hy => rw [cMod, if_pos ((inInt64_tdiv_iff hy).mpr h)]; rfl

/-- The operation of a `DIV` or `MOD`. -/
def divisionOp (op : WaiOpcode) : BinaryOp :=
  if op = .divImm ∨ op = .divReg then divOp else modOp

theorem divisionOp_spec {op : WaiOpcode} {x y : WaiValue}
    (h : ¬ (x = BitVec.intMin 64 ∧ y = -1)) :
    divisionOp op x y = if y = 0 then .ok (.error .errDivZero)
      else .ok (.ok (divisionResult op x y)) := by
  unfold divisionOp divisionResult
  split
  · exact divOp_spec h
  · exact modOp_spec h

/-- A `DIV` or `MOD` with valid registers. -/
theorem division_case (hop : ins.op ∈ WaiOpcode.divides) (ha : validReg ins.a = true)
    (hb : ins.op ∈ WaiOpcode.usesB → validReg ins.b = true) :
    stepSwitch vm ins =
      (divisionOp ins.op (vm.regD ins.a) (ins.divisor vm)).map (vm.assigned ins.a) := by
  unfold stepSwitch WaiInstruction.divisor
  rw [show WaiOpcode.ofByte ins.opcode = ins.op from rfl]
  generalize ins.op = op at hop hb
  simp only [WaiOpcode.divides, List.mem_cons, List.not_mem_nil, or_false] at hop
  rcases hop with rfl | rfl | rfl | rfl
  · exact caseImm_spec ha
  · exact caseReg_spec ha (hb (by decide))
  · exact caseImm_spec ha
  · exact caseReg_spec ha (hb (by decide))

/-- A `DIV` or `MOD` of operands that have a quotient. -/
theorem division_step (hop : ins.op ∈ WaiOpcode.divides) (ha : validReg ins.a = true)
    (hb : ins.op ∈ WaiOpcode.usesB → validReg ins.b = true) (hn : ¬ DivOverflow vm ins) :
    stepSwitch vm ins = .ok (vm.assigned ins.a (if ins.divisor vm = 0 then .error .errDivZero
      else .ok (divisionResult ins.op (vm.regD ins.a) (ins.divisor vm)))) := by
  rw [division_case hop ha hb, divisionOp_spec fun h => hn ⟨hop, ha, hb, h.1, h.2⟩]
  split <;> rfl

/-- In a verified program the division of a state is defined exactly when it is
not that of `INT64_MIN` by `-1`. -/
theorem divisionDefined_iff {code : List WaiInstruction} {d : Nat} (hlen : code.length < 2 ^ 64)
    (hall : ∀ ins ∈ code, WellFormed code.length ins) (h : MachineInvariant code vm d) :
    DivisionDefined vm ↔ ¬ DividesMinByMinusOne vm := by
  constructor
  · rintro hdef ⟨ins, hcur, ho⟩
    have hfault : waiVmStep vm = .error .divide :=
      (step_fault_iff hlen h .divide).mpr ⟨rfl, ins, hcur, ho⟩
    rcases hdef ins hcur ho.1 with ⟨vm', hs⟩ | ⟨_, _, vm', hs, _⟩
    · cases hs.symm.trans hfault
    · cases hfault.symm.trans hs
  · intro hn ins hcur hop
    have hover : ¬ DivOverflow vm.fetched ins := fun ho => hn ⟨ins, hcur, ho⟩
    obtain ⟨_, hs⟩ := current_step hlen h hcur
    have hw : WellFormed code.length ins := hall ins (current_mem h hcur)
    have ha : validReg ins.a = true := hw.register_a (divides_usesA hop)
    rw [division_step hop ha hw.register_b hover] at hs
    by_cases hy : ins.divisor vm = 0
    · have hy' : ins.divisor vm.fetched = 0 := hy
      rw [if_pos hy'] at hs
      exact .inl ⟨_, hs⟩
    · have hy' : ¬ ins.divisor vm.fetched = 0 := hy
      rw [if_neg hy'] at hs
      refine .inr ⟨?_, inInt64_tmod _ _, _, hs, regD_withReg _ ha _⟩
      exact (inInt64_tdiv_iff hy).mpr fun he => hover ⟨hop, ha, hw.register_b, he.1, he.2⟩

end Division

/-! ## 2. Whole runs -/

section Runs
variable {code : List WaiInstruction} {vm : WaiVm} {d : Nat}

/-- The engine is stopped by the processor exactly when a state on its way
divides `INT64_MIN` by `-1`. -/
theorem asm_trap_iff (hlen : code.length ≤ maxInstructions) (h : MachineInvariant code vm d)
    (regs : Reg → Val Object) :
    (∃ t, Ends asmStep (asmEntry regs vm) (.trapped t)) ↔
      ∃ vm', StepReach vm vm' ∧ DividesMinByMinusOne vm' := by
  have hlt : code.length < 2 ^ 64 := Nat.lt_of_le_of_lt hlen maxInstructions_lt
  have hreach : ∀ {vm'}, StepReach vm vm' → ∃ d, MachineInvariant code vm' d := fun hr => by
    obtain ⟨l, hl⟩ := Machine.exists_path hr
    obtain ⟨d', h', _⟩ := invariant_run hlt hl h
    exact ⟨d', h'⟩
  obtain ⟨hends, hsame⟩ := engine_ends hlen h regs
  constructor
  · rintro ⟨t, ht⟩
    obtain ⟨r', hr'⟩ := hends.mp ⟨_, ht⟩
    have hfault : r' = .fault .divide := (fault_of_trapped (hsame _ _ ht hr')).2
    obtain ⟨n, hn⟩ := hr'
    obtain ⟨m, vm', _, hm, hdone⟩ := Machine.endsIn_cases hn
    have hr : StepReach vm vm' := stepReach_of_reaches ⟨m, hm⟩
    obtain ⟨d', h'⟩ := hreach hr
    obtain ⟨_, hdiv⟩ := (step_fault_iff hlt h' .divide).mp
      (step_of_iteration_fault (hdone.trans (congrArg _ hfault)))
    exact ⟨vm', hr, hdiv⟩
  · rintro ⟨vm', hr, hdiv⟩
    obtain ⟨d', h'⟩ := hreach hr
    have hfault : waiVmStep vm' = .error .divide := (step_fault_iff hlt h' .divide).mpr ⟨rfl, hdiv⟩
    obtain ⟨ins, hcur, _⟩ := hdiv
    have h0 := halted_of_current hcur
    have hdone : stepUntilHalted vm' = .done (.fault .divide) := by
      unfold stepUntilHalted
      rw [if_neg (not_not_intro h0), hfault]
    have hc : Ends stepUntilHalted vm (.fault .divide) :=
      Machine.ends_of_reaches (reaches_of_stepReach hr h0) (Machine.ends_of_done hdone)
    obtain ⟨r, hr⟩ := hends.mpr ⟨_, hc⟩
    have := hsame _ _ hr hc
    cases r with
    | returned c => exact absurd this id
    | trapped t => exact ⟨t, hr⟩

end Runs

/-- A program without instructions has no division, in either engine. -/
theorem null_division {program : WaiProgram} (hc : program.code = none) (h0 : program.count = 0)
    {vm : WaiVm} (hr : StepReach program.initialVm vm) :
    vm = program.initialVm ∧ vm.current = none ∧
      ∀ regs t, ¬ Ends asmStep (asmEntry regs vm) (.trapped t) := by
  have hcode : program.initialVm.code = none := hc
  have hvm : vm = program.initialVm := by
    rcases hr.cases_head with h | ⟨_, hs, _⟩
    · exact h.symm
    · obtain ⟨code, hsome⟩ := code_of_stepOk hs
      cases hcode.symm.trans hsome
  subst hvm
  refine ⟨rfl, ?_, fun regs t ht => ?_⟩
  · unfold WaiVm.current
    rw [hcode]
    split <;> rfl
  · have hip : program.initialVm.codeCount ≤ program.initialVm.ip := by
      show BitVec.ofNat 64 program.count ≤ 0
      rw [h0]
      exact Nat.le_refl _
    obtain ⟨c, hends, _⟩ := asm_past_end rfl hip regs
    cases Machine.ends_unique ht hends

/-- Division in a verified program. In every state reached, a `DIV` or `MOD`
reports a zero divisor or has a quotient and a remainder in `int64_t` exactly
when it does not divide `INT64_MIN` by `-1`; and `wai_vm_exec_asm`, entered in
that state, is never stopped by a divide error exactly when no state on the way
does. -/
theorem division_defined_iff (program : WaiProgram) (hok : (waiVerifyProgram program).1 = .ok)
    {vm : WaiVm} (hr : StepReach program.initialVm vm) :
    (DivisionDefined vm ↔ ¬ DividesMinByMinusOne vm) ∧
    ∀ regs, (∀ t, ¬ Ends asmStep (asmEntry regs vm) (.trapped t)) ↔
      ∀ vm', StepReach vm vm' → ¬ DividesMinByMinusOne vm' := by
  obtain ⟨hn, hall⟩ := (verify_ok_iff program).mp hok
  cases hc : program.code with
  | none =>
    have h0 : program.count = 0 := Nat.eq_zero_of_not_pos fun hpos => hn ⟨hpos, hc⟩
    have hnone : ∀ vm', StepReach program.initialVm vm' → ¬ DividesMinByMinusOne vm' := by
      rintro vm' hr' ⟨ins, hcur, _⟩
      cases (null_division hc h0 hr').2.1.symm.trans hcur
    obtain ⟨_, hcur, htrap⟩ := null_division hc h0 hr
    refine ⟨⟨fun _ => hnone vm hr, fun _ ins hins => ?_⟩, fun regs => ⟨fun _ vm' hr' => ?_, ?_⟩⟩
    · cases hcur.symm.trans hins
    · exact hnone vm' (hr.trans hr')
    · exact fun _ => htrap regs
  | some code =>
    have hcount := program.count_eq code hc
    rw [WaiProgram.instructions, hc, hcount] at hall
    rw [program.initialVm_eq hc] at hr
    have hlen : code.length ≤ maxInstructions := hcount ▸ program.count_le
    obtain ⟨d, hinv⟩ := invariant_reach (program.length_lt hc) hr
    refine ⟨divisionDefined_iff (program.length_lt hc) hall hinv, fun regs => ?_⟩
    have htrap := asm_trap_iff hlen hinv regs
    simpa only [not_exists, not_and] using not_congr htrap

/-- `mov r0, INT64_MIN`, `div r0, -1` and `halt`. -/
def divMinByMinusOne : WaiProgram :=
  .ofList [⟨1, 0, 0, 0, BitVec.intMin 64⟩, ⟨9, 0, 0, 0, -1⟩, ⟨15, 0, 0, 0, 0⟩] (by decide)

/-- The machine of `divMinByMinusOne` after the `mov`. -/
def divMinByMinusOneVm : WaiVm :=
  updateZf (divMinByMinusOne.initialVm.fetched.withReg 0 (BitVec.intMin 64)) (BitVec.intMin 64)

theorem divMinByMinusOne_reach : StepReach divMinByMinusOne.initialVm divMinByMinusOneVm := by
  refine .single ?_
  show caseImm divMinByMinusOne.initialVm.fetched ⟨1, 0, 0, 0, BitVec.intMin 64⟩ movOp = _
  rw [caseImm_spec (by decide)]
  rfl

theorem divMinByMinusOne_divides : DividesMinByMinusOne divMinByMinusOneVm :=
  ⟨⟨9, 0, 0, 0, -1⟩, rfl, by decide, rfl, fun _ => rfl, rfl, rfl⟩

/-- `mov r0, 7`, `div r0, -1` and `halt`. -/
def divSevenByMinusOne : WaiProgram :=
  .ofList [⟨1, 0, 0, 0, 7⟩, ⟨9, 0, 0, 0, -1⟩, ⟨15, 0, 0, 0, 0⟩] (by decide)

/-- The machine of `divSevenByMinusOne` after the `mov`. -/
def divSevenByMinusOneVm : WaiVm :=
  updateZf (divSevenByMinusOne.initialVm.fetched.withReg 0 7) 7

/-- The quotient of `7` and `-1`, at the `div` that computes it. -/
theorem division_defined_iff_seven :
    (waiVerifyProgram divSevenByMinusOne).1 = .ok ∧
    StepReach divSevenByMinusOne.initialVm divSevenByMinusOneVm ∧
    divSevenByMinusOneVm.current = some ⟨9, 0, 0, 0, -1⟩ ∧ DivisionDefined divSevenByMinusOneVm := by
  have hreach : StepReach divSevenByMinusOne.initialVm divSevenByMinusOneVm := by
    refine .single ?_
    show caseImm divSevenByMinusOne.initialVm.fetched ⟨1, 0, 0, 0, 7⟩ movOp = _
    rw [caseImm_spec (by decide)]
    rfl
  refine ⟨rfl, hreach, rfl, (division_defined_iff divSevenByMinusOne rfl hreach).1.mpr ?_⟩
  rintro ⟨ins, hcur, _, _, _, hmin, _⟩
  cases hcur
  exact absurd hmin (by decide)

/-- A verified program that reaches a division without a quotient: the C
division is undefined there, and the processor stops the engine. -/
theorem division_overflow_reached :
    (waiVerifyProgram divMinByMinusOne).1 = .ok ∧
    StepReach divMinByMinusOne.initialVm divMinByMinusOneVm ∧
    waiVmStep divMinByMinusOneVm = .error .divide ∧
    ¬ DivisionDefined divMinByMinusOneVm ∧
    ∀ regs, Ends asmStep (asmEntry regs divMinByMinusOne.initialVm) (.trapped .divide) := by
  obtain ⟨d, hinv⟩ := invariant_reach (by decide) divMinByMinusOne_reach
  have hfault : waiVmStep divMinByMinusOneVm = .error .divide :=
    (step_fault_iff (by decide) hinv .divide).mpr ⟨rfl, divMinByMinusOne_divides⟩
  refine ⟨rfl, divMinByMinusOne_reach, hfault, fun hdef => ?_, fun regs => ?_⟩
  · obtain ⟨ins, hcur, ho⟩ := divMinByMinusOne_divides
    rcases hdef ins hcur ho.1 with ⟨vm', hs⟩ | ⟨_, _, vm', hs, _⟩
    · cases hs.symm.trans hfault
    · cases hfault.symm.trans hs
  · have hinit := MachineInvariant.init divMinByMinusOne.instructions
    obtain ⟨t, ht⟩ := (asm_trap_iff (by decide) hinit regs).mpr
      ⟨_, divMinByMinusOne_reach, divMinByMinusOne_divides⟩
    cases asm_trap (by decide) hinit ht
    exact ht

end Waivm
