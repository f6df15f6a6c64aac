import Waivm.Bytecode

/-!
# The verifier, the validator and the interpreter

The verifier tests the instructions one after another and stops at the first
that is ill-formed. The validator of bytecode files does the same with other
checks in another order, and `wai_vm_step` repeats them at run time.

Results:
1. `verdict_instruction`: the verifier and the validator give an instruction the
   same error, whatever is wrong with it.
2. `validators_agree`: so they agree on every program, and the report names the
   first ill-formed instruction.
3. `rejections_are_real`: `wai_vm_step` gives a rejected instruction the same
   error in every state.
-/

namespace Waivm

open LittleEndian (Byte)

/-- The status that a check of the verifier leads to. -/
def verdict : Except WaiVerifyReport Unit → WaiErrorCode
  | .ok () => .ok
  | .error report => report.error

section Verdicts
variable {program : WaiProgram} {ins : WaiInstruction} {ip : Nat} {y : Except WaiVerifyReport Unit}

/-! ## 1. One instruction -/

theorem verdict_ok : verdict (.ok ()) = .ok := rfl

theorem verdict_ite {p : Prop} [Decidable p] {e : WaiErrorCode} {message : String} :
    verdict (if p then .error ⟨e, ip, message⟩ else y) = if p then e else verdict y := by
  split <;> rfl

theorem verdict_ite_bind {p : Prop} [Decidable p] {e : WaiErrorCode} {message : String} :
    verdict ((if p then .error ⟨e, ip, message⟩ else .ok ()) >>= fun _ => y) =
      if p then e else verdict y := by
  split <;> rfl

theorem verdict_reg_bind {reg : Byte} {name : String} :
    verdict (verifyReg reg ip name >>= fun _ => y) =
      if validReg reg = true then verdict y else .errBadRegister := by
  unfold verifyReg
  rw [show waiRegisterIsValid reg = validReg reg from rfl]
  cases validReg reg <;> rfl

/-- The first switch tests the registers before the shift count. -/
theorem verdict_operands (hop : ins.op ≠ .invalid) :
    verdict (verifyOperands ins ip >>= fun _ => y) =
      if !instructionRegistersValid ins then .errBadRegister
      else if (ins.op = .shlImm ∨ ins.op = .shrImm) ∧ (ins.imm.toInt < 0 ∨ 63 < ins.imm.toInt)
        then .errBadShift
      else verdict y := by
  unfold verifyOperands instructionRegistersValid
  rw [show WaiOpcode.ofByte ins.opcode = ins.op from rfl,
    show waiRegisterIsValid = validReg from rfl]
  -- the first switch has a case for every opcode; each tests what the validator's table lists
  cases h : ins.op with
  | invalid => exact absurd h hop
  | jmp | call | je | jne | halt | ret | nop => simp [bind, Except.bind]
  | shlImm | shrImm =>
    rw [bind_assoc, verdict_reg_bind, verdict_ite_bind]
    cases validReg ins.a <;> simp
  | movReg | addReg | subReg | mulReg | divReg | modReg | andReg | orReg | xorReg | cmpReg
  | loadReg | storeReg | shlReg | shrReg =>
    rw [bind_assoc, verdict_reg_bind, verdict_reg_bind]
    cases validReg ins.a <;> cases validReg ins.b <;> simp
  | _ =>
    rw [verdict_reg_bind]
    cases validReg ins.a <;> simp

/-- The second switch tests what is left of the validator's list. -/
theorem verdict_immediate :
    verdict (verifyImmediate program ins ip) =
      if ins.op ∈ WaiOpcode.jumps ∧ (ins.imm.toInt < 0 ∨ program.count ≤ ins.imm.toNat) then
        .errBadJump
      else if (ins.op = .divImm ∨ ins.op = .modImm) ∧ ins.imm = 0 then .errDivZero
      else if (ins.op = .loadAbs ∨ ins.op = .storeAbs) ∧
          (ins.imm.toInt < 0 ∨ waiMemorySize - sizeofWaiValue < ins.imm.toNat) then .errMemoryOob
      else .ok := by
  unfold verifyImmediate verifyJump
  rw [show WaiOpcode.ofByte ins.opcode = ins.op from rfl]
  cases ins.op <;> simp [WaiOpcode.jumps, verdict_ite, jumpTargetValid, addressValid, verdict_ok]

/-- The verifier and the validator find the same error in an instruction. -/
theorem verdict_instruction :
    verdict (verifyInstruction program ins ip) = validateInstruction program.count ins := by
  unfold verifyInstruction validateInstruction
  by_cases hc : ins.c ≠ 0
  · rw [if_pos hc, if_pos hc]
    rfl
  by_cases hop : ins.op = .invalid
  · have hknown : opcodeKnown ins.opcode = false :=
      Bool.eq_false_iff.mpr fun h => opcodeKnown_iff.mp h hop
    rw [if_neg hc, if_neg hc, hknown]
    rfl
  rw [if_neg hc, if_neg hc, opcodeKnown_iff.mpr hop, if_neg (by decide), if_neg (by decide),
    verdict_operands hop, verdict_immediate]
  by_cases hreg : (!instructionRegistersValid ins) = true
  · rw [if_pos hreg, if_pos hreg]
  rw [if_neg hreg, if_neg hreg]
  by_cases hshift : (ins.op = .shlImm ∨ ins.op = .shrImm) ∧
      (ins.imm.toInt < 0 ∨ 63 < ins.imm.toInt)
  · -- the verifier tests the shift count before the immediates, the validator after them
    have hjump : ins.op ∉ WaiOpcode.jumps := by rcases hshift.1 with h | h <;> rw [h] <;> decide
    have hdiv : ¬ (ins.op = .divImm ∨ ins.op = .modImm) := by
      rcases hshift.1 with h | h <;> rw [h] <;> decide
    have haddr : ¬ (ins.op = .loadAbs ∨ ins.op = .storeAbs) := by
      rcases hshift.1 with h | h <;> rw [h] <;> decide
    rw [if_pos hshift, if_neg (fun h => hjump h.1), if_neg (fun h => hdiv h.1),
      if_neg (fun h => haddr h.1), if_pos hshift]
  · rw [if_neg hshift, if_neg hshift]

theorem verdict_from {l : List WaiInstruction} :
    verdict (verifyFrom program ip l) = validateFrom program.count l := by
  induction l generalizing ip with
  | nil => rfl
  | cons ins rest ih =>
    rw [verifyFrom, validateFrom, ← @verdict_instruction program ins ip]
    cases hv : verifyInstruction program ins ip with
    | ok u => exact ih
    | error report =>
      have hne := (reportsAt_instruction report hv).1
      show report.error = _
      split
      · next h => exact absurd h hne
      · rfl

end Verdicts

/-! ## 2. Programs -/

/-- `program.code[i]` is an ill-formed instruction. -/
def IllFormedAt (program : WaiProgram) (i : Nat) : Prop :=
  ∃ ins, program.instructions[i]? = some ins ∧ ¬ WellFormed program.count ins

/-- Where the verifier's loop stops: the validator gives the instruction there the same error, and
all before it are well-formed. -/
theorem verifyFrom_stops {program : WaiProgram} {report : WaiVerifyReport}
    (h : verifyFrom program 0 program.instructions = .error report) :
    (∃ ins, program.instructions[report.ip]? = some ins ∧
      validateInstruction program.count ins = report.error) ∧
    ∀ i < report.ip, ¬ IllFormedAt program i := by
  obtain ⟨before, ins, rest, heq, hbefore, hip, herror⟩ := verifyFrom_error h
  rw [Nat.zero_add] at hip
  have hverdict := @verdict_instruction program ins report.ip
  rw [herror] at hverdict
  refine ⟨⟨ins, ?_, hverdict.symm⟩, ?_⟩
  · rw [heq, hip, List.getElem?_append_right (Nat.le_refl _), Nat.sub_self]
    rfl
  · rintro i hlt ⟨ins', hget, hill⟩
    rw [heq, List.getElem?_append_left (hip ▸ hlt)] at hget
    exact hill (hbefore ins' (List.mem_of_getElem? hget))

/-- The verifier's loop stops at the first ill-formed instruction. -/
theorem isLeast_illFormed {program : WaiProgram} {report : WaiVerifyReport}
    (h : verifyFrom program 0 program.instructions = .error report) :
    IsLeast {i | IllFormedAt program i} report.ip := by
  obtain ⟨⟨ins, hget, herror⟩, hbefore⟩ := verifyFrom_stops h
  refine ⟨⟨ins, hget, fun hw => ?_⟩, fun i hill => Nat.not_lt.mp fun hlt => hbefore i hlt hill⟩
  exact reportsErrors_from report h (herror.symm.trans (validateInstruction_ok_iff.mpr hw))

/-- `status` is what the verifier returns, and the report of a failure carries it and names the first
ill-formed instruction. -/
def SameVerdict (program : WaiProgram) (status : WaiErrorCode) : Prop :=
  status = (waiVerifyProgram program).1 ∧
  ((waiVerifyProgram program).1 ≠ .ok →
    (waiVerifyProgram program).2.error = (waiVerifyProgram program).1 ∧
    IsLeast {i | IllFormedAt program i} (waiVerifyProgram program).2.ip)

theorem same_verdict {program : WaiProgram} (hnull : ¬ (0 < program.count ∧ program.code = none)) :
    SameVerdict program (validateFrom program.count program.instructions) := by
  have hverdict : verdict (verifyFrom program 0 program.instructions) =
      validateFrom program.count program.instructions := verdict_from
  unfold SameVerdict waiVerifyProgram
  rw [if_neg hnull, ← hverdict]
  cases hv : verifyFrom program 0 program.instructions with
  | ok u => exact ⟨rfl, fun h => absurd rfl h⟩
  | error report => exact ⟨rfl, fun _ => ⟨rfl, isLeast_illFormed hv⟩⟩

/-- The validator of bytecode files and the verifier return the same status for every program,
and the report of a failure names its first ill-formed instruction. The loop of the validator depends on
the count and the array alone, so the capacity plays no part. -/
theorem validators_agree :
    (∀ program : OwnedProgram, SameVerdict program.toWaiProgram (validateProgram program)) ∧
    ∀ program : WaiProgram, program.code ≠ none →
      SameVerdict program (validateFrom program.count program.instructions) :=
  ⟨fun program => same_verdict program.not_null, fun _ hcode => same_verdict fun h => hcode h.2⟩

/-! ## 3. What the interpreter does with a rejected instruction -/

/-- The condition of a conditional jump. -/
def WaiVm.branchTaken (vm : WaiVm) (ins : WaiInstruction) : Bool :=
  match ins.op with
  | .jz => vm.regD ins.a = 0
  | .jnz => vm.regD ins.a ≠ 0
  | .je => vm.zf ≠ 0
  | .jne => vm.zf = 0
  | _ => true

/-- `ins` is a conditional jump that is not taken. -/
def SkipsJump (vm : WaiVm) (ins : WaiInstruction) : Prop :=
  ins.op ∈ [.jz, .jnz, .je, .jne] ∧ vm.branchTaken ins = false

instance (vm : WaiVm) (ins : WaiInstruction) : Decidable (SkipsJump vm ins) :=
  inferInstanceAs (Decidable (_ ∧ _))

section Rejected
variable {vm : WaiVm} {ins : WaiInstruction}

/-- Every case of the switch tests its registers first. -/
theorem switch_badRegister (hop : ins.op ≠ .invalid) (h : instructionRegistersValid ins = false) :
    stepSwitch vm ins = .ok (.errBadRegister, vm.failed .errBadRegister) := by
  revert h
  unfold instructionRegistersValid stepSwitch caseImm caseReg caseJumpReg
  rw [show WaiOpcode.ofByte ins.opcode = ins.op from rfl,
    show waiRegisterIsValid = validReg from rfl]
  cases hcase : ins.op with
  | invalid => exact absurd hcase hop
  | jmp | call | je | jne | halt | ret | nop => exact fun h => nomatch h
  | movReg | addReg | subReg | mulReg | divReg | modReg | andReg | orReg | xorReg | cmpReg
  | loadReg | storeReg | shlReg | shrReg =>
    intro h
    cases ha : validReg ins.a <;> cases hb : validReg ins.b <;>
      first
      | rfl
      | rw [ha, hb] at h; cases h
  | _ =>
    intro h
    simp only [h]
    rfl

/-- `JZ` and `JNZ` with a target outside the code. -/
theorem caseJumpReg_bad {taken : WaiValue → Bool} (ha : validReg ins.a = true)
    (ht : ¬ ValidTarget vm ins.imm) :
    caseJumpReg vm ins taken = .ok (if taken (vm.regD ins.a) = true
      then (.errBadJump, vm.failed .errBadJump) else (.ok, vm)) := by
  simp only [caseJumpReg, ha, Bool.not_true, Bool.false_eq_true, if_false, reg_spec vm ha,
    jumpTo_of_not_valid ht]
  rfl

/-- A jump outside the code fails, unless it is conditional and not taken. -/
theorem switch_badJump (hop : ins.op ∈ WaiOpcode.jumps) (ht : ¬ ValidTarget vm ins.imm)
    (ha : ins.op ∈ WaiOpcode.usesA → validReg ins.a = true) :
    stepSwitch vm ins = .ok (if SkipsJump vm ins then (.ok, vm)
      else (.errBadJump, vm.failed .errBadJump)) := by
  have hcases : ins.op = .jmp ∨ ins.op = .jz ∨ ins.op = .jnz ∨ ins.op = .je ∨ ins.op = .jne ∨
      ins.op = .call := by
    simpa only [WaiOpcode.jumps, List.mem_cons, List.not_mem_nil, or_false] using hop
  unfold stepSwitch
  rw [show WaiOpcode.ofByte ins.opcode = ins.op from rfl]
  rcases hcases with h | h | h | h | h | h
  · simp [h, SkipsJump, jumpTo_of_not_valid ht]
  · have ha' : validReg ins.a = true := ha (by rw [h]; decide)
    by_cases htaken : vm.regD ins.a = 0 <;>
      simp [h, SkipsJump, WaiVm.branchTaken, caseJumpReg_bad ha' ht, htaken]
  · have ha' : validReg ins.a = true := ha (by rw [h]; decide)
    by_cases htaken : vm.regD ins.a = 0 <;>
      simp [h, SkipsJump, WaiVm.branchTaken, caseJumpReg_bad ha' ht, htaken]
  · by_cases htaken : vm.zf = 0 <;>
      simp [h, SkipsJump, WaiVm.branchTaken, jumpTo_of_not_valid ht, htaken]
  · by_cases htaken : vm.zf = 0 <;>
      simp [h, SkipsJump, WaiVm.branchTaken, jumpTo_of_not_valid ht, htaken]
  · simp [h, SkipsJump, checkJump_of_not_valid ht, WaiVm.failed]

/-- An immediate operation that reports an error for its operand. -/
theorem caseImm_error {op : BinaryOp} {e : WaiErrorCode} (ha : validReg ins.a = true)
    (herror : ∀ x, op x ins.imm = .ok (.error e)) :
    caseImm vm ins op = .ok (e, vm.failed e) := by
  rw [caseImm_spec ha, herror]
  rfl

theorem switch_divZero (hop : ins.op = .divImm ∨ ins.op = .modImm) (h0 : ins.imm = 0)
    (ha : validReg ins.a = true) :
    stepSwitch vm ins = .ok (.errDivZero, vm.failed .errDivZero) := by
  unfold stepSwitch
  rw [show WaiOpcode.ofByte ins.opcode = ins.op from rfl]
  rcases hop with hop | hop <;> rw [hop]
  · exact caseImm_error ha fun x => if_pos h0
  · exact caseImm_error ha fun x => if_pos h0

theorem switch_memoryOob (hop : ins.op = .loadAbs ∨ ins.op = .storeAbs)
    (h : ¬ ValidAddress ins.imm) (ha : validReg ins.a = true) :
    stepSwitch vm ins = .ok (.errMemoryOob, vm.failed .errMemoryOob) := by
  unfold stepSwitch
  rw [show WaiOpcode.ofByte ins.opcode = ins.op from rfl]
  rcases hop with hop | hop <;> rw [hop] <;>
    simp only [ha, Bool.not_true, Bool.false_eq_true, if_false]
  · exact loadFrom_of_not_valid h
  · exact storeTo_of_not_valid h

theorem switch_badShift (hop : ins.op = .shlImm ∨ ins.op = .shrImm) (h : ¬ ValidShift ins.imm)
    (ha : validReg ins.a = true) :
    stepSwitch vm ins = .ok (.errBadShift, vm.failed .errBadShift) := by
  unfold stepSwitch
  rw [show WaiOpcode.ofByte ins.opcode = ins.op from rfl]
  have herror : ∀ f : Nat → WaiValue,
      (Except.ok ((checkShift ins.imm).map f) : Except Fault _) = .ok (.error .errBadShift) :=
    fun f => by rw [checkShift_of_not_valid h]; rfl
  rcases hop with hop | hop <;> rw [hop]
  · exact caseImm_error ha fun x => herror _
  · exact caseImm_error ha fun x => herror _

/-- The switch gives an instruction the error that the verifier gives it, in every state. -/
theorem switch_rejected {e : WaiErrorCode}
    (h : validateInstruction vm.codeCount.toNat ins = e) (hne : e ≠ .ok) (hparse : e ≠ .errParse) :
    ∃ vm', stepSwitch vm ins = .ok (if SkipsJump vm ins ∧ e = .errBadJump then .ok else e, vm') := by
  -- an error that no conditional jump can skip
  have hfail : ∀ {e}, e ≠ .errBadJump → stepSwitch vm ins = .ok (e, vm.failed e) →
      ∃ vm', stepSwitch vm ins =
        .ok (if SkipsJump vm ins ∧ e = .errBadJump then .ok else e, vm') := by
    intro e hjump hs
    exact ⟨_, by rw [if_neg fun h => hjump h.2]; exact hs⟩
  cases defect_of_error h hne with
  | reserved => exact absurd rfl hparse
  | opcode hop =>
    refine hfail (by decide) ?_
    unfold stepSwitch
    rw [show WaiOpcode.ofByte ins.opcode = .invalid from hop]
    rfl
  | register hop hreg => exact hfail (by decide) (switch_badRegister hop hreg)
  | target ha hop htarget =>
    have ht : ¬ ValidTarget vm ins.imm := by
      rintro ⟨h0, hlt⟩
      rcases htarget with hneg | hge
      · exact absurd h0 (Int.not_le.mpr hneg)
      · exact absurd (BitVec.lt_def.mp hlt) (Nat.not_lt.mpr hge)
    have hs := switch_badJump hop ht ha
    by_cases hskip : SkipsJump vm ins
    · rw [if_pos hskip] at hs
      exact ⟨vm, by rw [if_pos ⟨hskip, rfl⟩]; exact hs⟩
    · rw [if_neg hskip] at hs
      exact ⟨_, by rw [if_neg fun h => hskip h.1]; exact hs⟩
  | divisor ha hop h0 => exact hfail (by decide) (switch_divZero hop h0 ha)
  | address ha hop haddr => exact hfail (by decide) (switch_memoryOob hop haddr ha)
  | shift ha hop hshift => exact hfail (by decide) (switch_badShift hop hshift ha)

end Rejected

/-- A program that is rejected for another reason than a `NULL` array or a reserved byte has an
instruction at the reported index, and the validator gives that instruction the same error. -/
theorem rejected_instruction {program : WaiProgram} {e : WaiErrorCode} {report : WaiVerifyReport}
    (h : waiVerifyProgram program = (e, report)) (hne : e ≠ .ok) (hparse : e ≠ .errParse) :
    ∃ code ins, program.code = some code ∧ code[report.ip]? = some ins ∧
      validateInstruction program.count ins = e := by
  unfold waiVerifyProgram at h
  split at h
  · cases h
    exact absurd rfl hparse
  · cases hv : verifyFrom program 0 program.instructions with
    | ok u =>
      rw [hv] at h
      cases h
      exact absurd rfl hne
    | error report' =>
      rw [hv] at h
      cases h
      obtain ⟨⟨ins, hget, herror⟩, _⟩ := verifyFrom_stops hv
      cases hc : program.code with
      | none =>
        rw [WaiProgram.instructions, hc] at hget
        cases hget
      | some code =>
        rw [WaiProgram.instructions, hc, Option.getD_some] at hget
        exact ⟨code, ins, rfl, hget, herror⟩

/-- In every state that stands on the instruction for which the verifier rejects the program,
`wai_vm_step` returns the verifier's error, or `WAI_OK` where a conditional jump with a bad target
is not taken. -/
theorem rejections_are_real (program : WaiProgram) {e : WaiErrorCode} {report : WaiVerifyReport}
    (h : waiVerifyProgram program = (e, report)) (hne : e ≠ .ok) (hparse : e ≠ .errParse)
    {vm : WaiVm} (hcode : vm.code = program.code)
    (hcount : vm.codeCount = BitVec.ofNat 64 program.count) (hhalted : vm.halted = 0)
    (hip : vm.ip = BitVec.ofNat 64 report.ip) :
    ∃ ins vm', vm.current = some ins ∧
      waiVmStep vm = .ok (if (ins.op ∈ [.jz, .jnz, .je, .jne] ∧ vm.branchTaken ins = false) ∧
        e = .errBadJump then .ok else e, vm') := by
  obtain ⟨code, ins, hc, hget, hv⟩ := rejected_instruction h hne hparse
  have hlt := program.length_lt hc
  have hin : report.ip < code.length := (List.getElem?_eq_some_iff.mp hget).1
  have hipNat : vm.ip.toNat = report.ip := by
    rw [hip, BitVec.toNat_ofNat, Nat.mod_eq_of_lt (Nat.lt_trans hin hlt)]
  have hcountNat : vm.codeCount.toNat = program.count := by
    rw [hcount, BitVec.toNat_ofNat, program.count_eq code hc, Nat.mod_eq_of_lt hlt]
  have hget' : code[vm.ip.toNat]? = some ins := hipNat ▸ hget
  have hn : ¬ vm.halted ≠ 0 := not_not_intro hhalted
  have hpast : ¬ vm.codeCount ≤ vm.ip := by
    rw [BitVec.not_le, BitVec.lt_def, hipNat, hcountNat, program.count_eq code hc]
    exact hin
  have hcur : vm.current = some ins := by
    rw [WaiVm.current, if_neg hn, hcode, hc, Option.bind_some, hget']
  rw [← hcountNat] at hv
  obtain ⟨vm', hs⟩ := @switch_rejected vm.fetched ins e hv hne hparse
  exact ⟨ins, vm', hcur, (step_fetch (hcode.trans hc) hn hpast hget').trans hs⟩

/-- The program `jz r0, 7`. -/
def jzOutside : WaiProgram := .ofList [⟨12, 0, 0, 0, 7⟩] (by decide)

/-- The jump of `jzOutside` is taken in a state with `r0 = 0`, wherever `sp` points. -/
theorem rejections_are_real_jzOutside :
    ∃ vm', waiVmStep { jzOutside.initialVm with sp := 5 } = .ok (.errBadJump, vm') := by
  obtain ⟨ins, vm', hcur, hs⟩ := @rejections_are_real jzOutside _ _ rfl nofun nofun
    { jzOutside.initialVm with sp := 5 } rfl rfl rfl rfl
  cases hcur
  exact ⟨vm', hs⟩

end Waivm
