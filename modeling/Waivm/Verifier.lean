import Waivm.Program
import Waivm.Invariant

/-!
# The bytecode verifier (`verifier.c`)

`waiVerifyProgram` looks at the instructions one by one and stops at the first
that is ill-formed.

Results:
1. `verify_ok_iff`: it accepts a program exactly when every instruction is
   `WellFormed`.
2. `verified_step_error`: what a call of `wai_vm_step` on a verified program can
   return.
3. `verifier_sound`: the same over every run, with where execution can fall off
   the end of the code.
-/

namespace Waivm

open LittleEndian (Byte)

/-- `wai_verify_report` -/
structure WaiVerifyReport where
  error : WaiErrorCode
  ip : Nat
  message : String
deriving DecidableEq, Repr

/-- `%02x` of a byte. -/
def hexByte (byte : Byte) : String :=
  let digits := String.ofList (Nat.toDigits 16 byte.toNat)
  if digits.length < 2 then "0" ++ digits else digits

/-- `opcode_known` -/
def opcodeKnown (opcode : Byte) : Bool :=
  WaiOpcode.movImm.value ≤ opcode && opcode ≤ waiOpcodeMax.value

/-- `jump_target_valid` -/
def jumpTargetValid (program : WaiProgram) (target : WaiValue) : Bool :=
  0 ≤ target.toInt && target.toNat < program.count

/-- `address_valid` -/
def addressValid (address : WaiValue) : Bool :=
  0 ≤ address.toInt && address.toNat ≤ waiMemorySize - sizeofWaiValue

/-- `verify_reg`. The report of a failure carries the returned status. -/
def verifyReg (reg : Byte) (ip : Nat) (name : String) : Except WaiVerifyReport Unit :=
  if !waiRegisterIsValid reg then
    .error ⟨.errBadRegister, ip, "invalid " ++ name ++ " register r" ++ toString reg.toNat⟩
  else .ok ()

/-- `verify_jump` -/
def verifyJump (program : WaiProgram) (ins : WaiInstruction) (ip : Nat) :
    Except WaiVerifyReport Unit :=
  if !jumpTargetValid program ins.imm then
    .error ⟨.errBadJump, ip, "jump target " ++ toString ins.imm.toInt ++ " is outside 0.." ++
      toString (program.count - 1)⟩
  else .ok ()

/-- The first `switch` of `wai_verify_program`: registers and shift counts. -/
def verifyOperands (ins : WaiInstruction) (ip : Nat) : Except WaiVerifyReport Unit :=
  match WaiOpcode.ofByte ins.opcode with
  | .movImm | .addImm | .subImm | .mulImm | .divImm | .modImm | .andImm | .orImm | .xorImm
  | .cmpImm | .loadAbs | .storeAbs | .push | .pop | .print | .not | .jz | .jnz =>
    verifyReg ins.a ip "operand"
  | .shlImm | .shrImm => do
    verifyReg ins.a ip "operand"
    if ins.imm.toInt < 0 ∨ 63 < ins.imm.toInt then
      .error ⟨.errBadShift, ip, "shift count " ++ toString ins.imm.toInt ++ " is outside 0..63"⟩
    else .ok ()
  | .movReg | .addReg | .subReg | .mulReg | .divReg | .modReg | .andReg | .orReg | .xorReg
  | .cmpReg | .loadReg | .storeReg | .shlReg | .shrReg => do
    verifyReg ins.a ip "first"
    verifyReg ins.b ip "second"
  | .jmp | .call | .je | .jne | .halt | .ret | .nop => .ok ()
  | .invalid => .error ⟨.errBadOpcode, ip, "invalid opcode 0x" ++ hexByte ins.opcode⟩

/-- The second `switch` of `wai_verify_program`: divisors, targets and addresses. -/
def verifyImmediate (program : WaiProgram) (ins : WaiInstruction) (ip : Nat) :
    Except WaiVerifyReport Unit :=
  match WaiOpcode.ofByte ins.opcode with
  | .divImm | .modImm =>
    if ins.imm = 0 then
      .error ⟨.errDivZero, ip,
        waiOpcodeName ins.opcode ++ " immediate divisor must not be zero"⟩
    else .ok ()
  | .jmp | .jz | .jnz | .call | .je | .jne => verifyJump program ins ip
  | .loadAbs | .storeAbs =>
    if !addressValid ins.imm then
      .error ⟨.errMemoryOob, ip, "memory address " ++ toString ins.imm.toInt ++
        " is outside 0.." ++ toString (waiMemorySize - sizeofWaiValue)⟩
    else .ok ()
  | _ => .ok ()

/-- The body of the loop of `wai_verify_program`. -/
def verifyInstruction (program : WaiProgram) (ins : WaiInstruction) (ip : Nat) :
    Except WaiVerifyReport Unit :=
  if ins.c ≠ 0 then
    .error ⟨.errParse, ip, "reserved operand c must be zero, got " ++ toString ins.c.toNat⟩
  else if !opcodeKnown ins.opcode then
    .error ⟨.errBadOpcode, ip, "unknown opcode 0x" ++ hexByte ins.opcode⟩
  else do
    verifyOperands ins ip
    verifyImmediate program ins ip

/-- The loop of `wai_verify_program` from index `ip` on. -/
def verifyFrom (program : WaiProgram) : Nat → List WaiInstruction → Except WaiVerifyReport Unit
  | _, [] => .ok ()
  | ip, ins :: rest => do
    verifyInstruction program ins ip
    verifyFrom program (ip + 1) rest

/-- `wai_verify_program` on a program that is not `NULL`: the status and the report. -/
def waiVerifyProgram (program : WaiProgram) : WaiErrorCode × WaiVerifyReport :=
  if 0 < program.count ∧ program.code = none then
    (.errParse, ⟨.errParse, 0, "program code pointer is null"⟩)
  else
    match verifyFrom program 0 program.instructions with
    | .error report => (report.error, report)
    | .ok () => (.ok, ⟨.ok, 0, "ok: " ++ toString program.count ++ " instructions verified"⟩)

/-! ## 1. What the verifier accepts -/

section Accepts
variable {program : WaiProgram} {ins : WaiInstruction} {ip : Nat}

theorem bind_ok_iff {ε : Type} {x y : Except ε Unit} :
    (x >>= fun _ => y) = .ok () ↔ x = .ok () ∧ y = .ok () := by
  cases x with
  | error e => exact ⟨fun h => (nomatch h), fun h => (nomatch h.1)⟩
  | ok u => exact ⟨fun h => ⟨rfl, h⟩, fun h => h.2⟩

theorem fails_iff {ε : Type} {p : Prop} [Decidable p] {e : ε} :
    (if p then (.error e : Except ε Unit) else .ok ()) = .ok () ↔ ¬ p := by
  by_cases hp : p
  · rw [if_pos hp]
    exact ⟨fun h => (nomatch h), fun h => absurd hp h⟩
  · rw [if_neg hp]
    exact ⟨fun _ => hp, fun _ => rfl⟩

theorem verifyReg_ok_iff {reg : Byte} {name : String} :
    verifyReg reg ip name = .ok () ↔ validReg reg = true := by
  unfold verifyReg
  rw [fails_iff, show waiRegisterIsValid reg = validReg reg from rfl]
  simp

theorem jumpTargetValid_iff {target : WaiValue} :
    jumpTargetValid program target = true ↔ 0 ≤ target.toInt ∧ target.toNat < program.count := by
  simp [jumpTargetValid]

theorem addressValid_iff {address : WaiValue} :
    addressValid address = true ↔ ValidAddress address := by
  rw [validAddress_iff]
  simp only [addressValid, Bool.and_eq_true, decide_eq_true_eq]
  refine ⟨fun h => h.2, fun h => ⟨?_, h⟩⟩
  exact ((validAddress_iff address).mpr h).1

/-- The first switch tests the opcode, the registers and the shift count. -/
theorem verifyOperands_ok_iff :
    verifyOperands ins ip = .ok () ↔
      ins.op ≠ .invalid ∧ (ins.op ∈ WaiOpcode.usesA → validReg ins.a = true) ∧
      (ins.op ∈ WaiOpcode.usesB → validReg ins.b = true) ∧
      (ins.op = .shlImm ∨ ins.op = .shrImm → ValidShift ins.imm) := by
  unfold verifyOperands
  rw [show WaiOpcode.ofByte ins.opcode = ins.op from rfl]
  cases ins.op <;>
    simp [WaiOpcode.usesA, WaiOpcode.usesB, bind_ok_iff, verifyReg_ok_iff, ValidShift]

/-- The second switch tests the immediate operand. -/
theorem verifyImmediate_ok_iff :
    verifyImmediate program ins ip = .ok () ↔
      (ins.op = .divImm ∨ ins.op = .modImm → ins.imm ≠ 0) ∧
      (ins.op ∈ WaiOpcode.jumps → 0 ≤ ins.imm.toInt ∧ ins.imm.toNat < program.count) ∧
      (ins.op = .loadAbs ∨ ins.op = .storeAbs → ValidAddress ins.imm) := by
  unfold verifyImmediate verifyJump
  rw [show WaiOpcode.ofByte ins.opcode = ins.op from rfl]
  cases ins.op <;>
    simp [WaiOpcode.jumps, jumpTargetValid_iff, addressValid_iff]

theorem opcodeKnown_iff : opcodeKnown ins.opcode = true ↔ ins.op ≠ .invalid := by
  rw [WaiInstruction.op, ofByte_ne_invalid_iff]
  simp [opcodeKnown]

theorem verifyInstruction_ok_iff :
    verifyInstruction program ins ip = .ok () ↔ WellFormed program.count ins := by
  unfold verifyInstruction
  by_cases hc : ins.c = 0
  · by_cases hop : ins.op = .invalid
    · have hk : opcodeKnown ins.opcode = false := by
        rw [Bool.eq_false_iff]
        exact fun h => opcodeKnown_iff.mp h hop
      rw [if_neg (not_not_intro hc), hk]
      exact ⟨fun h => (nomatch h), fun h => absurd hop h.opcode_known⟩
    · rw [if_neg (not_not_intro hc), opcodeKnown_iff.mpr hop, Bool.not_true,
        if_neg Bool.false_ne_true, bind_ok_iff, verifyOperands_ok_iff, verifyImmediate_ok_iff]
      constructor
      · rintro ⟨⟨_, h3, h4, h5⟩, h6, h7, h8⟩
        exact ⟨hc, hop, h3, h4, h5, h6, h7, h8⟩
      · intro h
        exact ⟨⟨hop, h.register_a, h.register_b, h.shift⟩, h.divisor, h.target, h.address⟩
  · rw [if_pos hc]
    exact ⟨fun h => (nomatch h), fun h => absurd h.reserved_zero hc⟩

theorem verifyFrom_ok_iff {l : List WaiInstruction} :
    verifyFrom program ip l = .ok () ↔ ∀ ins ∈ l, WellFormed program.count ins := by
  induction l generalizing ip with
  | nil => exact ⟨fun _ _ h => absurd h List.not_mem_nil, fun _ => rfl⟩
  | cons ins rest ih =>
    rw [verifyFrom, bind_ok_iff, verifyInstruction_ok_iff, ih, List.forall_mem_cons]

/-- A check whose failures carry an error code. -/
def ReportsErrors (check : Except WaiVerifyReport Unit) : Prop :=
  ∀ report, check = .error report → report.error ≠ .ok

/-- A check of the instruction at `ip`: its failures carry an error code and `ip`. -/
def ReportsAt (ip : Nat) (check : Except WaiVerifyReport Unit) : Prop :=
  ∀ report, check = .error report → report.error ≠ .ok ∧ report.ip = ip

theorem reportsAt_ok : ReportsAt ip (.ok ()) :=
  fun _ h => nomatch h

theorem reportsAt_error {e : WaiErrorCode} {message : String} (h : e ≠ .ok) :
    ReportsAt ip (.error ⟨e, ip, message⟩) := by
  intro r hr
  cases hr
  exact ⟨h, rfl⟩

theorem reportsAt_ite {p : Prop} [Decidable p] {e : WaiErrorCode} {message : String}
    {y : Except WaiVerifyReport Unit} (h : e ≠ .ok) (hy : ReportsAt ip y) :
    ReportsAt ip (if p then .error ⟨e, ip, message⟩ else y) := by
  split
  · exact reportsAt_error h
  · exact hy

theorem reportsAt_bind {x y : Except WaiVerifyReport Unit} (hx : ReportsAt ip x)
    (hy : ReportsAt ip y) : ReportsAt ip (x >>= fun _ => y) := by
  cases x with
  | error r => exact hx
  | ok u => exact hy

theorem reportsAt_reg {reg : Byte} {name : String} : ReportsAt ip (verifyReg reg ip name) :=
  reportsAt_ite (by decide) reportsAt_ok

theorem reportsAt_instruction : ReportsAt ip (verifyInstruction program ins ip) := by
  refine reportsAt_ite (by decide) (reportsAt_ite (by decide) (reportsAt_bind ?_ ?_))
  · unfold verifyOperands
    cases WaiOpcode.ofByte ins.opcode with
    | jmp | call | je | jne | halt | ret | nop => exact reportsAt_ok
    | shlImm | shrImm =>
      exact reportsAt_bind reportsAt_reg (reportsAt_ite (by decide) reportsAt_ok)
    | movReg | addReg | subReg | mulReg | divReg | modReg | andReg | orReg | xorReg | cmpReg
    | loadReg | storeReg | shlReg | shrReg => exact reportsAt_bind reportsAt_reg reportsAt_reg
    | invalid => exact reportsAt_error (by decide)
    | _ => exact reportsAt_reg
  · unfold verifyImmediate
    cases WaiOpcode.ofByte ins.opcode with
    | divImm | modImm | jmp | jz | jnz | call | je | jne | loadAbs | storeAbs =>
      exact reportsAt_ite (by decide) reportsAt_ok
    | _ => exact reportsAt_ok

/-- A failed run of the loop stops at the first ill-formed instruction. -/
theorem verifyFrom_error {l : List WaiInstruction} {report : WaiVerifyReport}
    (h : verifyFrom program ip l = .error report) :
    ∃ before ins rest, l = before ++ ins :: rest ∧
      (∀ ins' ∈ before, WellFormed program.count ins') ∧ report.ip = ip + before.length ∧
      verifyInstruction program ins report.ip = .error report := by
  induction l generalizing ip with
  | nil => cases h
  | cons ins rest ih =>
    rw [verifyFrom] at h
    cases hv : verifyInstruction program ins ip with
    | error report' =>
      rw [hv] at h
      cases h
      have hip := (reportsAt_instruction report hv).2
      exact ⟨[], ins, rest, rfl, fun _ h => absurd h List.not_mem_nil, hip, hip ▸ hv⟩
    | ok u =>
      rw [hv] at h
      obtain ⟨before, ins', rest', rfl, hbefore, hip, herror⟩ := ih h
      refine ⟨ins :: before, ins', rest', rfl, ?_, ?_, herror⟩
      · exact List.forall_mem_cons.mpr ⟨verifyInstruction_ok_iff.mp hv, hbefore⟩
      · rw [hip, List.length_cons, Nat.add_assoc, Nat.add_comm 1]

theorem reportsErrors_from {l : List WaiInstruction} : ReportsErrors (verifyFrom program ip l) := by
  intro report h
  obtain ⟨_, _, _, _, _, _, herror⟩ := verifyFrom_error h
  exact (reportsAt_instruction report herror).1

/-- The verifier accepts exactly the programs of well-formed instructions. -/
theorem verify_ok_iff (program : WaiProgram) :
    (waiVerifyProgram program).1 = .ok ↔
      ¬ (0 < program.count ∧ program.code = none) ∧
      ∀ ins ∈ program.instructions, WellFormed program.count ins := by
  unfold waiVerifyProgram
  by_cases hn : 0 < program.count ∧ program.code = none
  · rw [if_pos hn]
    exact ⟨fun h => (nomatch h), fun h => absurd hn h.1⟩
  · rw [if_neg hn, ← @verifyFrom_ok_iff program 0]
    cases hv : verifyFrom program 0 program.instructions with
    | error report =>
      exact ⟨fun h => absurd h (reportsErrors_from _ hv), fun h => (nomatch h.2)⟩
    | ok u => exact ⟨fun _ => ⟨hn, rfl⟩, fun _ => rfl⟩

end Accepts

/-! ## 2. One step of a verified program -/

/-- What `wai_vm_step` may return on a verified program when it executes `op`. -/
def AllowedError (op : WaiOpcode) : WaiErrorCode → Prop
  | .errBadJump => op = .ret
  | .errMemoryOob => op = .loadReg ∨ op = .storeReg
  | .errBadShift => op = .shlReg ∨ op = .shrReg
  | .errDivZero => op = .divReg ∨ op = .modReg
  | .errStackOverflow => op = .push ∨ op = .call
  | .errStackUnderflow => op = .pop ∨ op = .ret
  | .ok => True
  | _ => False

/-- An effect of a well-formed instruction is a success or an allowed error. -/
theorem allowed_effect {vm vm' : WaiVm} {ins : WaiInstruction} {status : WaiErrorCode}
    (hw : WellFormed vm.codeCount.toNat ins) (he : Effect vm ins status vm') :
    AllowedError ins.op status := by
  have htarget : ins.op ∈ WaiOpcode.jumps → ValidTarget vm ins.imm := hw.target
  cases he with
  | badRegister h =>
    rcases h with ⟨hop, ha⟩ | ⟨hop, hb⟩
    · exact absurd ((hw.register_a hop).symm.trans ha) (by decide)
    · exact absurd ((hw.register_b hop).symm.trans hb) (by decide)
  | divZero h =>
    rcases h with ⟨hop, h0⟩ | h
    · exact absurd h0 (hw.divisor hop)
    · exact h
  | badShift h =>
    rcases h with ⟨hop, hs⟩ | h
    · exact absurd (hw.shift hop) hs
    · exact h
  | badJump hop ht => exact absurd (htarget hop) ht
  | badReturn hop _ _ => exact hop
  | memoryOob h =>
    rcases h with ⟨hop, ha⟩ | h
    · exact absurd (hw.address hop) ha
    · exact h
  | stackOverflow hop _ => exact hop
  | stackUnderflow hop _ => exact hop
  | badOpcode hop => exact absurd hop hw.opcode_known
  | _ => trivial

/-! ## 3. Runs of a verified program -/

section Sound
variable {program : WaiProgram} {code : List WaiInstruction} {vm vm' : WaiVm}

/-- The state `wai_vm_init` leaves for a program. -/
def WaiProgram.initialVm (program : WaiProgram) : WaiVm :=
  waiVmInit program.code (BitVec.ofNat 64 program.count)

theorem maxInstructions_lt : maxInstructions < 2 ^ 64 := by decide

theorem WaiProgram.length_lt (program : WaiProgram) (hc : program.code = some code) :
    code.length < 2 ^ 64 := by
  rw [← program.count_eq code hc]
  exact Nat.lt_of_le_of_lt program.count_le maxInstructions_lt

theorem WaiProgram.initialVm_eq (program : WaiProgram) (hc : program.code = some code) :
    program.initialVm = waiVmInit (some code) (BitVec.ofNat 64 code.length) := by
  rw [WaiProgram.initialVm, hc, program.count_eq code hc]

/-- A verified program that is not empty has an array. -/
theorem verified_code (hne : 0 < program.count) (hok : (waiVerifyProgram program).1 = .ok) :
    ∃ code, program.code = some code ∧ ∀ ins ∈ code, WellFormed code.length ins := by
  obtain ⟨hn, hall⟩ := (verify_ok_iff program).mp hok
  cases hc : program.code with
  | none => exact absurd ⟨hne, hc⟩ hn
  | some code =>
    refine ⟨code, rfl, ?_⟩
    rw [WaiProgram.instructions, hc, program.count_eq code hc] at hall
    exact hall

/-- Execution stands behind the last instruction of `code` because that
instruction was executed and fell through. -/
def FellThrough (code : List WaiInstruction) (vm : WaiVm) : Prop :=
  ∃ before last, StepReach (waiVmInit (some code) (BitVec.ofNat 64 code.length)) before ∧
    StepOk before vm ∧ code.getLast? = some last ∧ before.current = some last ∧
    before.ip.toNat = code.length - 1 ∧ vm.ip = before.ip + 1 ∧
    last.op ∉ [.halt, .jmp, .call, .ret]

/-- An effect that stays in place leaves `ip` where the fetch put it. -/
theorem effect_ip {ins : WaiInstruction} (he : Effect vm ins .ok vm') :
    vm'.ip = vm.ip ∧ ins.op ∉ [.jmp, .call, .ret] ∧ (ins.op = .halt → vm'.halted = 1) ∨
      vm'.ip < vm.codeCount := by
  cases he with
  | jump _ _ ht => exact .inr ht.2
  | call _ ht _ => exact .inr ht.2
  | ret _ _ ht => exact .inr ht.2
  | assign value hop _ =>
    refine .inl ⟨rfl, ?_⟩
    revert hop
    cases ins.op <;> simp [WaiOpcode.assigns]
  | compare _ hop | store hop _ =>
    refine .inl ⟨rfl, ?_⟩
    rcases hop with hop | hop <;> rw [hop] <;> exact ⟨by decide, by simp⟩
  | stay hop =>
    refine .inl ⟨rfl, ?_⟩
    revert hop
    cases ins.op <;> simp
  | halt hop => exact .inl ⟨rfl, by rw [hop]; decide, fun _ => rfl⟩
  | print hop | push hop _ | pop hop _ => exact .inl ⟨rfl, by rw [hop]; exact ⟨by decide, by simp⟩⟩

/-- A state that is not halted and has `ip` at the end of the code got there by
falling through. -/
theorem fell_through (hlen : code.length < 2 ^ 64)
    (hpos : 0 < code.length)
    (hr : StepReach (waiVmInit (some code) (BitVec.ofNat 64 code.length)) vm)
    (hh : vm.halted = 0) (hip : vm.ip.toNat = code.length) : FellThrough code vm := by
  cases hr with
  | refl => exact absurd hip (Nat.ne_of_lt hpos)
  | @tail before _ hbefore hs =>
    obtain ⟨d, hinv⟩ := invariant_reach hlen hbefore
    have hcount := hinv.codeCount_toNat hlen
    have hs' := hs
    unfold StepOk at hs'
    rcases step_cases hinv hlen with ⟨h1, _, he⟩ | ⟨_, _, _, he⟩ | ⟨ins, _, hlt, hget, hcur, he⟩
    · -- a halted machine stays halted
      cases he.symm.trans hs'
      rw [h1] at hh
      exact absurd hh (by decide)
    · cases he.symm.trans hs'
    · -- the instruction stayed in place, so it was the last one, or it jumped into the code
      have hf := invariant_fetched hinv hlt
      have hin : before.ip.toNat < code.length := hcount ▸ hlt
      rcases effect_ip (switch_effect hf.sp_le (he.symm.trans hs')) with ⟨hstay, hop, hhalt⟩ | hjump
      · have h1 : vm.ip.toNat = before.ip.toNat + 1 := by
          rw [hstay]
          show (before.ip + 1).toNat = _
          rw [BitVec.toNat_add, show (1 : BitVec 64).toNat = 1 from rfl]
          omega
        have hlast : before.ip.toNat = code.length - 1 := by omega
        refine ⟨before, ins, hbefore, hs, ?_, hcur, hlast, hstay, ?_⟩
        · rw [List.getLast?_eq_getElem?, ← hlast]
          exact hget
        · intro hmem
          rcases List.mem_cons.mp hmem with h | h
          · exact absurd ((hhalt h).symm.trans hh) (by decide)
          · exact hop h
      · have h1 : vm.ip.toNat < code.length := hcount ▸ hjump
        exact absurd hip (Nat.ne_of_lt h1)

/-- What a call returns in a state that a verified program reaches. -/
theorem verified_step_error {status : WaiErrorCode} (hlen : code.length < 2 ^ 64)
    (hall : ∀ ins ∈ code, WellFormed code.length ins)
    (hr : StepReach (waiVmInit (some code) (BitVec.ofNat 64 code.length)) vm)
    (hs : waiVmStep vm = .ok (status, vm')) :
    status = .ok ∨
    (status = .errIpOutOfBounds ∧ vm.halted = 0 ∧ vm.ip.toNat = code.length) ∨
    ∃ ins, vm.current = some ins ∧ AllowedError ins.op status := by
  obtain ⟨d, hinv⟩ := invariant_reach hlen hr
  rcases step_cases hinv hlen with ⟨_, _, he⟩ | ⟨h0, hip, _, he⟩ | ⟨ins, _, hlt, hget, hcur, he⟩
  · cases he.symm.trans hs
    exact .inl rfl
  · cases he.symm.trans hs
    exact .inr (.inl ⟨rfl, h0, hip⟩)
  · have hf := invariant_fetched hinv hlt
    have hw : WellFormed vm.fetched.codeCount.toNat ins := by
      rw [hf.codeCount_toNat hlen]
      exact hall ins (List.mem_of_getElem? hget)
    exact .inr (.inr ⟨ins, hcur, allowed_effect hw (switch_effect hf.sp_le (he.symm.trans hs))⟩)

theorem executes_iff {ops : List WaiOpcode} :
    vm.executes ops = true ↔ ∃ ins, vm.current = some ins ∧ ins.op ∈ ops := by
  unfold WaiVm.executes
  cases vm.current with
  | none => exact ⟨fun h => (nomatch h), fun ⟨_, h, _⟩ => (nomatch h)⟩
  | some ins => simp

/-- Verifier soundness: in every state a verified program reaches, the next
call of `wai_vm_step` fails only in the ways the verifier leaves to the runtime
checks. -/
theorem verifier_sound (program : WaiProgram) (hne : 0 < program.count)
    (hok : (waiVerifyProgram program).1 = .ok) {vm vm' : WaiVm} {status : WaiErrorCode}
    (hr : StepReach program.initialVm vm) (hs : waiVmStep vm = .ok (status, vm')) :
    (status ≠ .errBadOpcode ∧ status ≠ .errBadRegister ∧ status ≠ .errParse) ∧
    (status = .errBadJump → vm.executes [.ret]) ∧
    (status = .errMemoryOob → vm.executes [.loadReg, .storeReg]) ∧
    (status = .errBadShift → vm.executes [.shlReg, .shrReg]) ∧
    (status = .errDivZero → vm.executes [.divReg, .modReg]) ∧
    (status = .errStackOverflow → vm.executes [.push, .call]) ∧
    (status = .errStackUnderflow → vm.executes [.pop, .ret]) ∧
    (status = .errIpOutOfBounds →
      vm.ip.toNat = program.count ∧ FellThrough program.instructions vm) ∧
    ((∀ last, program.instructions.getLast? = some last →
      last.op ∈ [.halt, .jmp, .call, .ret]) → status ≠ .errIpOutOfBounds) := by
  obtain ⟨code, hc, hall⟩ := verified_code hne hok
  have hlen := program.length_lt hc
  have hcount := program.count_eq code hc
  have hcode : program.instructions = code := by rw [WaiProgram.instructions, hc]; rfl
  rw [program.initialVm_eq hc] at hr
  have hfell : status = .errIpOutOfBounds →
      vm.ip.toNat = program.count ∧ FellThrough program.instructions vm := by
    rintro rfl
    rcases verified_step_error hlen hall hr hs with h | ⟨_, h0, hip⟩ | ⟨ins, _, h⟩
    · cases h
    · rw [hcount, hcode]
      exact ⟨hip, fell_through hlen (hcount ▸ hne) hr h0 hip⟩
    · exact absurd h id
  -- the other errors come from the instruction that is executed
  have hexec : ∀ error ops, status = error → error ≠ .ok → error ≠ .errIpOutOfBounds →
      (∀ op, AllowedError op error → op ∈ ops) → vm.executes ops = true := by
    rintro error ops rfl h1 h2 hops
    rcases verified_step_error hlen hall hr hs with h | ⟨h, _⟩ | ⟨ins, hcur, h⟩
    · exact absurd h h1
    · exact absurd h h2
    · exact executes_iff.mpr ⟨ins, hcur, hops _ h⟩
  have hnever : ∀ error, (∀ op, ¬ AllowedError op error) → error ≠ .errIpOutOfBounds →
      status ≠ error := by
    rintro error hno hip rfl
    rcases verified_step_error hlen hall hr hs with h | ⟨h, _⟩ | ⟨ins, _, h⟩
    · exact hno .nop (h ▸ trivial)
    · exact hip h
    · exact hno _ h
  refine ⟨⟨hnever _ (fun _ => id) (by decide), hnever _ (fun _ => id) (by decide),
    hnever _ (fun _ => id) (by decide)⟩, ?_, ?_, ?_, ?_, ?_, ?_, hfell, ?_⟩
  · exact fun h => hexec _ _ h (by decide) (by decide) fun op ho => by simpa [AllowedError] using ho
  · exact fun h => hexec _ _ h (by decide) (by decide) fun op ho => by simpa [AllowedError] using ho
  · exact fun h => hexec _ _ h (by decide) (by decide) fun op ho => by simpa [AllowedError] using ho
  · exact fun h => hexec _ _ h (by decide) (by decide) fun op ho => by simpa [AllowedError] using ho
  · exact fun h => hexec _ _ h (by decide) (by decide) fun op ho => by simpa [AllowedError] using ho
  · exact fun h => hexec _ _ h (by decide) (by decide) fun op ho => by simpa [AllowedError] using ho
  · intro hlast hstatus
    obtain ⟨_, before, last, _, _, hget, _, _, _, hop⟩ := hfell hstatus
    exact hop (hlast last hget)

/-- The program that consists of one `nop`. -/
def singleNop : WaiProgram := .ofList [⟨28, 0, 0, 0, 0⟩] (by decide)

/-- Execution falls off the end of `singleNop`. -/
theorem verifier_sound_singleNop :
    0 < singleNop.count ∧ (waiVerifyProgram singleNop).1 = .ok ∧
    StepReach singleNop.initialVm singleNop.initialVm.fetched ∧
    waiVmStep singleNop.initialVm.fetched =
      .ok (.errIpOutOfBounds, singleNop.initialVm.fetched.failed .errIpOutOfBounds) ∧
    FellThrough singleNop.instructions singleNop.initialVm.fetched :=
  have hr : StepReach singleNop.initialVm singleNop.initialVm.fetched := .single rfl
  have hsound := verifier_sound singleNop (by decide) rfl hr rfl
  ⟨by decide, rfl, hr, rfl, (hsound.2.2.2.2.2.2.2.1 rfl).2⟩

end Sound

end Waivm
