import Waivm.Memory

/-!
# What one instruction can do

`Effect vm ins status vm'` lists everything the `switch` of `wai_vm_step` can do
with the instruction `ins` in the state `vm` (whose `ip` already points behind
it): eleven ways to succeed and nine ways to fail, each with its guard and the
exact new state. `switch_cases` shows that the list is complete for states with
`sp` inside the memory; the only other outcome is a division whose quotient does
not exist. Every invariant of the machine is a case analysis on `Effect`.
-/

namespace Waivm

open LittleEndian (Byte)

/-- The opcode of an instruction. -/
def WaiInstruction.op (ins : WaiInstruction) : WaiOpcode :=
  WaiOpcode.ofByte ins.opcode

namespace WaiOpcode

/-- Opcodes that name a second register in `b`. -/
def usesB : List WaiOpcode :=
  [movReg, addReg, subReg, mulReg, divReg, modReg, andReg, orReg, xorReg, cmpReg, loadReg,
    storeReg, shlReg, shrReg]

/-- Opcodes that name a register in `a`. -/
def usesA : List WaiOpcode :=
  [movImm, addImm, subImm, mulImm, divImm, modImm, andImm, orImm, xorImm, cmpImm, loadAbs,
    storeAbs, push, pop, print, not, jz, jnz, shlImm, shrImm] ++ usesB

/-- Opcodes that only compute a register value from registers, `imm` and memory. -/
def assigns : List WaiOpcode :=
  [movImm, movReg, addImm, addReg, subImm, subReg, mulImm, mulReg, divImm, divReg, modImm, modReg,
    andImm, andReg, orImm, orReg, xorImm, xorReg, not, shlImm, shlReg, shrImm, shrReg, loadAbs,
    loadReg]

/-- Opcodes with a jump target in `imm`. -/
def jumps : List WaiOpcode := [jmp, jz, jnz, je, jne, call]

end WaiOpcode

/-- The address operand of a `LOAD` or `STORE`. -/
def WaiInstruction.address (ins : WaiInstruction) (vm : WaiVm) : WaiValue :=
  if ins.op = .loadAbs ∨ ins.op = .storeAbs then ins.imm else vm.regD ins.b

/-- `target` is the index of an instruction. -/
def ValidTarget (vm : WaiVm) (target : WaiValue) : Prop :=
  0 ≤ target.toInt ∧ target < vm.codeCount

instance (vm : WaiVm) (target : WaiValue) : Decidable (ValidTarget vm target) :=
  inferInstanceAs (Decidable (_ ∧ _))

/-- `shift` is a shift count between `0` and `63`. -/
def ValidShift (shift : WaiValue) : Prop :=
  0 ≤ shift.toInt ∧ shift.toInt ≤ 63

instance (shift : WaiValue) : Decidable (ValidShift shift) :=
  inferInstanceAs (Decidable (_ ∧ _))

/-- The state with a recorded error. -/
def WaiVm.failed (vm : WaiVm) (error : WaiErrorCode) : WaiVm :=
  { vm with error := error }

/-- What the `switch` can do with `ins` in the state `vm`. -/
inductive Effect (vm : WaiVm) (ins : WaiInstruction) : WaiErrorCode → WaiVm → Prop
  | assign (value : WaiValue) :
      ins.op ∈ WaiOpcode.assigns → validReg ins.a = true →
      Effect vm ins .ok (updateZf (vm.withReg ins.a value) value)
  | compare (equal : Bool) :
      ins.op = .cmpImm ∨ ins.op = .cmpReg →
      Effect vm ins .ok { vm with zf := if equal then 1 else 0 }
  | jump :
      ins.op ∈ WaiOpcode.jumps → ins.op ≠ .call → ValidTarget vm ins.imm →
      Effect vm ins .ok { vm with ip := ins.imm }
  | stay :
      ins.op ∈ [.jz, .jnz, .je, .jne, .nop] → Effect vm ins .ok vm
  | print :
      ins.op = .print → Effect vm ins .ok (waiVmEmitPrint vm (vm.regD ins.a))
  | halt :
      ins.op = .halt → Effect vm ins .ok { vm with halted := 1 }
  | store :
      ins.op = .storeAbs ∨ ins.op = .storeReg → ValidAddress (ins.address vm) →
      Effect vm ins .ok
        { vm with memory := writeQword vm.memory (ins.address vm).toNat (vm.regD ins.a) }
  | push :
      ins.op = .push → 8 ≤ vm.sp.toNat → Effect vm ins .ok (vm.pushed (vm.regD ins.a))
  | pop :
      ins.op = .pop → vm.sp.toNat ≤ maxAddress →
      Effect vm ins .ok (updateZf (vm.popped.withReg ins.a vm.top) vm.top)
  | call :
      ins.op = .call → ValidTarget vm ins.imm → 8 ≤ vm.sp.toNat →
      Effect vm ins .ok { vm.pushed vm.ip with ip := ins.imm }
  | ret :
      ins.op = .ret → vm.sp.toNat ≤ maxAddress → ValidTarget vm vm.top →
      Effect vm ins .ok { vm.popped with ip := vm.top }
  | badRegister :
      (ins.op ∈ WaiOpcode.usesA ∧ validReg ins.a = false) ∨
        (ins.op ∈ WaiOpcode.usesB ∧ validReg ins.b = false) →
      Effect vm ins .errBadRegister (vm.failed .errBadRegister)
  | divZero :
      ((ins.op = .divImm ∨ ins.op = .modImm) ∧ ins.imm = 0) ∨
        ins.op = .divReg ∨ ins.op = .modReg →
      Effect vm ins .errDivZero (vm.failed .errDivZero)
  | badShift :
      ((ins.op = .shlImm ∨ ins.op = .shrImm) ∧ ¬ ValidShift ins.imm) ∨
        ins.op = .shlReg ∨ ins.op = .shrReg →
      Effect vm ins .errBadShift (vm.failed .errBadShift)
  | badJump :
      ins.op ∈ WaiOpcode.jumps → ¬ ValidTarget vm ins.imm →
      Effect vm ins .errBadJump (vm.failed .errBadJump)
  | badReturn :
      ins.op = .ret → vm.sp.toNat ≤ maxAddress → ¬ ValidTarget vm vm.top →
      Effect vm ins .errBadJump (vm.popped.failed .errBadJump)
  | memoryOob :
      ((ins.op = .loadAbs ∨ ins.op = .storeAbs) ∧ ¬ ValidAddress ins.imm) ∨
        ins.op = .loadReg ∨ ins.op = .storeReg →
      Effect vm ins .errMemoryOob (vm.failed .errMemoryOob)
  | stackOverflow :
      ins.op = .push ∨ ins.op = .call → vm.sp.toNat < 8 →
      Effect vm ins .errStackOverflow (vm.failed .errStackOverflow)
  | stackUnderflow :
      ins.op = .pop ∨ ins.op = .ret → maxAddress < vm.sp.toNat →
      Effect vm ins .errStackUnderflow (vm.failed .errStackUnderflow)
  | badOpcode :
      ins.op = .invalid → Effect vm ins .errBadOpcode (vm.failed .errBadOpcode)

/-- The opcodes that divide. -/
def WaiOpcode.divides : List WaiOpcode := [.divImm, .divReg, .modImm, .modReg]

/-- The divisor of a `DIV` or `MOD` instruction. -/
def WaiInstruction.divisor (ins : WaiInstruction) (vm : WaiVm) : WaiValue :=
  if ins.op = .divImm ∨ ins.op = .modImm then ins.imm else vm.regD ins.b

/-- `ins` divides the smallest `int64_t` by `-1`. -/
def DivOverflow (vm : WaiVm) (ins : WaiInstruction) : Prop :=
  ins.op ∈ WaiOpcode.divides ∧ validReg ins.a = true ∧
    (ins.op ∈ WaiOpcode.usesB → validReg ins.b = true) ∧
    vm.regD ins.a = BitVec.intMin 64 ∧ ins.divisor vm = -1

/-! ## Division -/

/-- The only quotient of two `int64_t` values that is no `int64_t`. -/
theorem inInt64_tdiv_iff {x y : WaiValue} (hy : y ≠ 0) :
    InInt64 (x.toInt.tdiv y.toInt) ↔ ¬ (x = BitVec.intMin 64 ∧ y = -1) := by
  have hx := BitVec.two_mul_toInt_lt (x := x)
  have hx' := BitVec.le_two_mul_toInt (x := x)
  have hmin : x = BitVec.intMin 64 ↔ x.toInt = -2 ^ 63 := by
    rw [← BitVec.toInt_inj]
    exact Iff.rfl
  have hneg : y = -1 ↔ y.toInt = -1 := by
    rw [← BitVec.toInt_inj]
    exact Iff.rfl
  have hy0 : y.toInt ≠ 0 := fun h => hy (BitVec.toInt_inj.mp h)
  rw [hmin, hneg]
  unfold InInt64
  have habs : (x.toInt.tdiv y.toInt).natAbs = x.toInt.natAbs / y.toInt.natAbs :=
    Int.natAbs_tdiv _ _
  constructor
  · rintro ⟨_, hlt⟩ ⟨h1, h2⟩
    rw [h1, h2] at hlt
    exact absurd hlt (by decide)
  · intro hne
    rcases Nat.lt_or_ge 1 y.toInt.natAbs with h2 | h1
    · have hq : x.toInt.natAbs / y.toInt.natAbs ≤ x.toInt.natAbs / 2 :=
        Nat.div_le_div_left h2 (by omega)
      omega
    · have hy1 : y.toInt = 1 ∨ y.toInt = -1 := by omega
      rcases hy1 with h | h
      · rw [h, Int.tdiv_one]
        omega
      · rw [h, Int.tdiv_neg, Int.tdiv_one]
        have : x.toInt ≠ -2 ^ 63 := fun hx => hne ⟨hx, h⟩
        omega

theorem quotient_fault_iff {x y : WaiValue} (hy : y ≠ 0) (v : WaiValue) (f : Fault) :
    (if InInt64 (x.toInt.tdiv y.toInt) then Except.ok v else .error .divide) = .error f ↔
      f = .divide ∧ x = BitVec.intMin 64 ∧ y = -1 := by
  have hq := inInt64_tdiv_iff (x := x) hy
  by_cases h : InInt64 (x.toInt.tdiv y.toInt)
  · rw [if_pos h]
    exact ⟨fun e => (nomatch e), fun e => absurd e.2 (hq.mp h)⟩
  · rw [if_neg h]
    exact ⟨fun e => ⟨(Except.error.inj e).symm, Classical.not_not.mp (mt hq.mpr h)⟩,
      fun e => congrArg _ e.1.symm⟩

/-- `DIV` and `MOD` leave the defined behaviour on the same operands. -/
theorem divOp_fault_iff (x y : WaiValue) (f : Fault) :
    divOp x y = .error f ↔ f = .divide ∧ x = BitVec.intMin 64 ∧ y = -1 := by
  unfold divOp cDiv
  by_cases hy : y = 0
  · rw [if_pos hy, hy]
    exact ⟨fun e => (nomatch e), fun e => absurd e.2.2 (by decide)⟩
  · rw [if_neg hy, ← quotient_fault_iff hy (BitVec.ofInt 64 (x.toInt.tdiv y.toInt)) f]
    split <;> simp [Except.map]

theorem modOp_fault_iff (x y : WaiValue) (f : Fault) :
    modOp x y = .error f ↔ f = .divide ∧ x = BitVec.intMin 64 ∧ y = -1 := by
  unfold modOp cMod
  by_cases hy : y = 0
  · rw [if_pos hy, hy]
    exact ⟨fun e => (nomatch e), fun e => absurd e.2.2 (by decide)⟩
  · rw [if_neg hy, ← quotient_fault_iff hy (BitVec.ofInt 64 (x.toInt.tmod y.toInt)) f]
    split <;> simp [Except.map]

/-! ## The errors of the operations -/

theorem divOp_error {x y : WaiValue} {e : WaiErrorCode} (h : divOp x y = .ok (.error e)) :
    e = .errDivZero ∧ y = 0 := by
  unfold divOp at h
  split at h
  · next hy => cases h; exact ⟨rfl, hy⟩
  · cases hd : cDiv x y <;> rw [hd] at h <;> cases h

theorem modOp_error {x y : WaiValue} {e : WaiErrorCode} (h : modOp x y = .ok (.error e)) :
    e = .errDivZero ∧ y = 0 := by
  unfold modOp at h
  split at h
  · next hy => cases h; exact ⟨rfl, hy⟩
  · cases hd : cMod x y <;> rw [hd] at h <;> cases h

theorem checkShift_of_valid {shift : WaiValue} (h : ValidShift shift) :
    checkShift shift = .ok shift.toNat := by
  have h1 : ¬ (shift.toInt < 0 ∨ 63 < shift.toInt) := by
    have := h.1
    have := h.2
    omega
  have h2 : shift.toNat < 256 := by
    have hnat := toInt_eq_toNat_of_nonneg h.1
    have h4 := h.2
    omega
  simp only [checkShift, h1, if_false, BitVec.toNat_setWidth]
  rw [Nat.mod_eq_of_lt h2]

theorem checkShift_of_not_valid {shift : WaiValue} (h : ¬ ValidShift shift) :
    checkShift shift = .error .errBadShift := by
  have h1 : shift.toInt < 0 ∨ 63 < shift.toInt := by
    unfold ValidShift at h
    omega
  simp only [checkShift, h1, if_true]

theorem checkShift_error {shift : WaiValue} {e : WaiErrorCode} {f : Nat → WaiValue}
    (h : (Except.ok ((checkShift shift).map f) : Except Fault _) = .ok (.error e)) :
    e = .errBadShift ∧ ¬ ValidShift shift := by
  by_cases hv : ValidShift shift
  · rw [checkShift_of_valid hv] at h
    cases h
  · rw [checkShift_of_not_valid hv] at h
    cases h
    exact ⟨rfl, hv⟩

/-! ## Each shape of case -/

/-- What `assignReg` makes of the result of the operation. -/
def WaiVm.assigned (vm : WaiVm) (a : Byte) : Except WaiErrorCode WaiValue → WaiErrorCode × WaiVm
  | .error status => (status, vm.failed status)
  | .ok value => (.ok, updateZf (vm.withReg a value) value)

section Cases
variable {vm vm' : WaiVm} {ins : WaiInstruction} {status : WaiErrorCode} {op : BinaryOp}

theorem assignReg_spec {a : Byte} (h : validReg a = true) (op : BinaryOp) (y : WaiValue) :
    assignReg vm a op y = (op (vm.regD a) y).map (vm.assigned a) := by
  unfold assignReg
  rw [reg_spec vm h]
  simp only [bind, Except.bind]
  cases op (vm.regD a) y with
  | error f => rfl
  | ok result =>
    cases result with
    | error status => rfl
    | ok value => simp only [setReg_spec vm h]; rfl

theorem caseImm_spec (h : validReg ins.a = true) :
    caseImm vm ins op = (op (vm.regD ins.a) ins.imm).map (vm.assigned ins.a) := by
  simp only [caseImm, h, Bool.not_true, Bool.false_eq_true, if_false]
  exact assignReg_spec h op ins.imm

theorem caseReg_spec (ha : validReg ins.a = true) (hb : validReg ins.b = true) :
    caseReg vm ins op = (op (vm.regD ins.a) (vm.regD ins.b)).map (vm.assigned ins.a) := by
  simp only [caseReg, ha, hb, Bool.not_true, Bool.or_self, Bool.false_eq_true, if_false,
    reg_spec vm hb]
  exact assignReg_spec ha op (vm.regD ins.b)

theorem assigned_effect (hop : ins.op ∈ WaiOpcode.assigns) (ha : validReg ins.a = true)
    {result : Except Fault (Except WaiErrorCode WaiValue)}
    (herr : ∀ e, result = .ok (.error e) → Effect vm ins e (vm.failed e))
    (h : result.map (vm.assigned ins.a) = .ok (status, vm')) : Effect vm ins status vm' := by
  cases result with
  | error f => cases h
  | ok r =>
    cases r with
    | error e =>
      cases h
      exact herr _ rfl
    | ok value =>
      cases h
      exact .assign value hop ha

/-- A case that first tests the register `a`. -/
theorem guardA_effect {result : VmResult} (hA : ins.op ∈ WaiOpcode.usesA)
    (hk : validReg ins.a = true → result = .ok (status, vm') → Effect vm ins status vm')
    (h : (if !validReg ins.a then .ok (setError vm .errBadRegister) else result) =
      .ok (status, vm')) : Effect vm ins status vm' := by
  cases ha : validReg ins.a with
  | false =>
    rw [ha] at h
    cases h
    exact .badRegister (.inl ⟨hA, ha⟩)
  | true =>
    rw [ha] at h
    exact hk ha h

/-- A case that first tests the registers `a` and `b`. -/
theorem guardAB_effect {result : VmResult} (hB : ins.op ∈ WaiOpcode.usesB)
    (hk : validReg ins.a = true → validReg ins.b = true → result = .ok (status, vm') →
      Effect vm ins status vm')
    (h : (if !validReg ins.a || !validReg ins.b then .ok (setError vm .errBadRegister)
      else result) = .ok (status, vm')) : Effect vm ins status vm' := by
  cases ha : validReg ins.a with
  | false =>
    rw [ha] at h
    cases h
    exact .badRegister (.inl ⟨List.mem_append_right _ hB, ha⟩)
  | true =>
    cases hb : validReg ins.b with
    | false =>
      rw [ha, hb] at h
      cases h
      exact .badRegister (.inr ⟨hB, hb⟩)
    | true =>
      rw [ha, hb] at h
      exact hk ha hb h

theorem caseImm_effect (hop : ins.op ∈ WaiOpcode.assigns) (hA : ins.op ∈ WaiOpcode.usesA)
    (herr : ∀ x e, op x ins.imm = .ok (.error e) → Effect vm ins e (vm.failed e))
    (h : caseImm vm ins op = .ok (status, vm')) : Effect vm ins status vm' := by
  refine guardA_effect hA (fun ha hk => ?_) h
  rw [assignReg_spec ha] at hk
  exact assigned_effect hop ha (herr _) hk

theorem caseReg_effect (hop : ins.op ∈ WaiOpcode.assigns) (hB : ins.op ∈ WaiOpcode.usesB)
    (herr : ∀ x y e, op x y = .ok (.error e) → Effect vm ins e (vm.failed e))
    (h : caseReg vm ins op = .ok (status, vm')) : Effect vm ins status vm' := by
  refine guardAB_effect hB (fun ha hb hk => ?_) h
  rw [reg_spec vm hb] at hk
  exact assigned_effect hop ha (herr _ _) ((assignReg_spec ha op (vm.regD ins.b)).symm.trans hk)

theorem checkJump_of_valid {target : WaiValue} (h : ValidTarget vm target) :
    checkJump vm target = (.ok, vm) := by
  have h1 : ¬ (target.toInt < 0 ∨ vm.codeCount ≤ target) := by
    rintro (hneg | hge)
    · exact absurd h.1 (by omega)
    · exact absurd h.2 (BitVec.not_lt.mpr hge)
  simp only [checkJump, h1, if_false]

theorem checkJump_of_not_valid {target : WaiValue} (h : ¬ ValidTarget vm target) :
    checkJump vm target = (.errBadJump, vm.failed .errBadJump) := by
  have h1 : target.toInt < 0 ∨ vm.codeCount ≤ target := by
    by_contra hc
    rw [not_or, BitVec.not_le] at hc
    exact h ⟨by omega, hc.2⟩
  simp only [checkJump, h1, if_true]
  rfl

theorem jumpTo_of_valid {target : WaiValue} (h : ValidTarget vm target) :
    jumpTo vm target = (.ok, { vm with ip := target }) := by
  simp only [jumpTo, checkJump_of_valid h]

theorem jumpTo_of_not_valid {target : WaiValue} (h : ¬ ValidTarget vm target) :
    jumpTo vm target = (.errBadJump, vm.failed .errBadJump) := by
  simp only [jumpTo, checkJump_of_not_valid h]
  rfl

theorem jump_effect (hop : ins.op ∈ WaiOpcode.jumps) (hc : ins.op ≠ .call)
    (h : jumpTo vm ins.imm = (status, vm')) : Effect vm ins status vm' := by
  by_cases ht : ValidTarget vm ins.imm
  · rw [jumpTo_of_valid ht] at h
    cases h
    exact .jump hop hc ht
  · rw [jumpTo_of_not_valid ht] at h
    cases h
    exact .badJump hop ht

theorem branch_effect {taken : Prop} [Decidable taken] (hop : ins.op ∈ WaiOpcode.jumps)
    (hc : ins.op ≠ .call) (hs : ins.op ∈ [.jz, .jnz, .je, .jne, .nop])
    (h : (if taken then jumpTo vm ins.imm else (.ok, vm)) = (status, vm')) :
    Effect vm ins status vm' := by
  by_cases ht : taken
  · rw [if_pos ht] at h
    exact jump_effect hop hc h
  · rw [if_neg ht] at h
    cases h
    exact .stay hs

theorem caseJumpReg_effect {taken : WaiValue → Bool} (hA : ins.op ∈ WaiOpcode.usesA)
    (hop : ins.op ∈ WaiOpcode.jumps) (hc : ins.op ≠ .call)
    (hs : ins.op ∈ [.jz, .jnz, .je, .jne, .nop])
    (h : caseJumpReg vm ins taken = .ok (status, vm')) : Effect vm ins status vm' := by
  refine guardA_effect hA (fun ha hk => ?_) h
  rw [reg_spec vm ha] at hk
  exact branch_effect hop hc hs (Except.ok.inj hk)

theorem loadFrom_of_valid {a : Byte} (ha : validReg a = true) {address : WaiValue}
    (h : ValidAddress address) :
    loadFrom vm a address =
      .ok (vm.assigned a (.ok (readQword vm.memory address.toNat))) := by
  simp only [loadFrom, checkAddressI64_of_valid h, load_spec vm ((validAddress_iff _).mp h),
    bind, Except.bind, setReg_spec vm ha]
  rfl

theorem loadFrom_of_not_valid {a : Byte} {address : WaiValue} (h : ¬ ValidAddress address) :
    loadFrom vm a address = .ok (.errMemoryOob, vm.failed .errMemoryOob) := by
  simp only [loadFrom, checkAddressI64_of_not_valid h]
  rfl

theorem storeTo_of_valid {a : Byte} (ha : validReg a = true) {address : WaiValue}
    (h : ValidAddress address) :
    storeTo vm a address =
      .ok (.ok, { vm with memory := writeQword vm.memory address.toNat (vm.regD a) }) := by
  simp only [storeTo, checkAddressI64_of_valid h, reg_spec vm ha, bind, Except.bind,
    store_spec vm ((validAddress_iff _).mp h)]
  rfl

theorem storeTo_of_not_valid {a : Byte} {address : WaiValue} (h : ¬ ValidAddress address) :
    storeTo vm a address = .ok (.errMemoryOob, vm.failed .errMemoryOob) := by
  simp only [storeTo, checkAddressI64_of_not_valid h]
  rfl

theorem loadFrom_effect (hop : ins.op = .loadAbs ∨ ins.op = .loadReg)
    (ha : validReg ins.a = true)
    (h : loadFrom vm ins.a (ins.address vm) = .ok (status, vm')) : Effect vm ins status vm' := by
  have hmem : ins.op ∈ WaiOpcode.assigns := by
    rcases hop with h | h <;> rw [h] <;> decide
  by_cases hv : ValidAddress (ins.address vm)
  · rw [loadFrom_of_valid ha hv] at h
    cases h
    exact .assign _ hmem ha
  · rw [loadFrom_of_not_valid hv] at h
    cases h
    refine .memoryOob ?_
    rcases hop with h | h
    · rw [WaiInstruction.address, if_pos (.inl h)] at hv
      exact .inl ⟨.inl h, hv⟩
    · exact .inr (.inl h)

theorem storeTo_effect (hop : ins.op = .storeAbs ∨ ins.op = .storeReg)
    (ha : validReg ins.a = true)
    (h : storeTo vm ins.a (ins.address vm) = .ok (status, vm')) : Effect vm ins status vm' := by
  by_cases hv : ValidAddress (ins.address vm)
  · rw [storeTo_of_valid ha hv] at h
    cases h
    exact .store hop hv
  · rw [storeTo_of_not_valid hv] at h
    cases h
    refine .memoryOob ?_
    rcases hop with h | h
    · rw [WaiInstruction.address, if_pos (.inr h)] at hv
      exact .inl ⟨.inr h, hv⟩
    · exact .inr (.inr h)

theorem push_effect (hsp : vm.sp.toNat ≤ waiMemorySize) (hop : ins.op = .push)
    (h : pushI64 vm (vm.regD ins.a) = .ok (status, vm')) : Effect vm ins status vm' := by
  rcases Nat.lt_or_ge vm.sp.toNat 8 with hlt | hge
  · cases (push_overflow vm _ hlt).symm.trans h
    exact .stackOverflow (.inl hop) hlt
  · cases (push_spec vm _ hge hsp).symm.trans h
    exact .push hop hge

end Cases

/-! ## The whole switch -/

/-- Every result of the switch is one of the listed effects. -/
theorem switch_effect {vm vm' : WaiVm} {ins : WaiInstruction} {status : WaiErrorCode}
    (hsp : vm.sp.toNat ≤ waiMemorySize) (h : stepSwitch vm ins = .ok (status, vm')) :
    Effect vm ins status vm' := by
  revert h
  unfold stepSwitch
  rw [show WaiOpcode.ofByte ins.opcode = ins.op from rfl]
  cases hop : ins.op with
  | movImm | addImm | subImm | mulImm | andImm | orImm | xorImm | not =>
    exact caseImm_effect (by rw [hop]; decide) (by rw [hop]; decide) fun _ _ h => by cases h
  | movReg | addReg | subReg | mulReg | andReg | orReg | xorReg =>
    exact caseReg_effect (by rw [hop]; decide) (by rw [hop]; decide) fun _ _ _ h => by cases h
  | divImm =>
    refine caseImm_effect (by rw [hop]; decide) (by rw [hop]; decide) fun x e h => ?_
    obtain ⟨rfl, h0⟩ := divOp_error h
    exact .divZero (.inl ⟨.inl hop, h0⟩)
  | modImm =>
    refine caseImm_effect (by rw [hop]; decide) (by rw [hop]; decide) fun x e h => ?_
    obtain ⟨rfl, h0⟩ := modOp_error h
    exact .divZero (.inl ⟨.inr hop, h0⟩)
  | divReg =>
    refine caseReg_effect (by rw [hop]; decide) (by rw [hop]; decide) fun x y e h => ?_
    obtain ⟨rfl, _⟩ := divOp_error h
    exact .divZero (.inr (.inl hop))
  | modReg =>
    refine caseReg_effect (by rw [hop]; decide) (by rw [hop]; decide) fun x y e h => ?_
    obtain ⟨rfl, _⟩ := modOp_error h
    exact .divZero (.inr (.inr hop))
  | shlImm =>
    refine caseImm_effect (by rw [hop]; decide) (by rw [hop]; decide) fun x e h => ?_
    obtain ⟨rfl, hv⟩ := checkShift_error h
    exact .badShift (.inl ⟨.inl hop, hv⟩)
  | shrImm =>
    refine caseImm_effect (by rw [hop]; decide) (by rw [hop]; decide) fun x e h => ?_
    obtain ⟨rfl, hv⟩ := checkShift_error h
    exact .badShift (.inl ⟨.inr hop, hv⟩)
  | shlReg =>
    refine caseReg_effect (by rw [hop]; decide) (by rw [hop]; decide) fun x y e h => ?_
    obtain ⟨rfl, _⟩ := checkShift_error h
    exact .badShift (.inr (.inl hop))
  | shrReg =>
    refine caseReg_effect (by rw [hop]; decide) (by rw [hop]; decide) fun x y e h => ?_
    obtain ⟨rfl, _⟩ := checkShift_error h
    exact .badShift (.inr (.inr hop))
  | jmp =>
    exact fun h => jump_effect (by rw [hop]; decide) (by rw [hop]; decide) (Except.ok.inj h)
  | jz | jnz =>
    exact caseJumpReg_effect (by rw [hop]; decide) (by rw [hop]; decide) (by rw [hop]; decide)
      (by rw [hop]; decide)
  | je | jne =>
    exact fun h => branch_effect (by rw [hop]; decide) (by rw [hop]; decide)
      (by rw [hop]; decide) (Except.ok.inj h)
  | print =>
    refine guardA_effect (by rw [hop]; decide) fun ha hk => ?_
    rw [reg_spec vm ha] at hk
    cases hk
    exact .print hop
  | halt => intro h; cases h; exact .halt hop
  | nop => intro h; cases h; exact .stay (by rw [hop]; decide)
  | loadAbs =>
    have haddr : ins.imm = ins.address vm := by simp [WaiInstruction.address, hop]
    refine guardA_effect (by rw [hop]; decide) fun ha hk => ?_
    exact loadFrom_effect (.inl hop) ha (haddr ▸ hk)
  | storeAbs =>
    have haddr : ins.imm = ins.address vm := by simp [WaiInstruction.address, hop]
    refine guardA_effect (by rw [hop]; decide) fun ha hk => ?_
    exact storeTo_effect (.inl hop) ha (haddr ▸ hk)
  | loadReg =>
    have haddr : vm.regD ins.b = ins.address vm := by simp [WaiInstruction.address, hop]
    refine guardAB_effect (by rw [hop]; decide) fun ha hb hk => ?_
    rw [reg_spec vm hb] at hk
    exact loadFrom_effect (.inr hop) ha (haddr ▸ hk)
  | storeReg =>
    have haddr : vm.regD ins.b = ins.address vm := by simp [WaiInstruction.address, hop]
    refine guardAB_effect (by rw [hop]; decide) fun ha hb hk => ?_
    rw [reg_spec vm hb] at hk
    exact storeTo_effect (.inr hop) ha (haddr ▸ hk)
  | push =>
    refine guardA_effect (by rw [hop]; decide) fun ha hk => ?_
    rw [reg_spec vm ha] at hk
    exact push_effect hsp hop hk
  | pop =>
    refine guardA_effect (by rw [hop]; decide) fun ha hk => ?_
    rcases Nat.lt_or_ge maxAddress vm.sp.toNat with hlt | hge
    · rw [pop_underflow vm hlt] at hk
      cases hk
      exact .stackUnderflow (.inl hop) hlt
    · simp only [pop_spec vm hge, bind, Except.bind, setReg_spec _ ha] at hk
      cases hk
      exact .pop hop hge
  | call =>
    intro h
    by_cases ht : ValidTarget vm ins.imm
    · simp only [checkJump_of_valid ht] at h
      rcases Nat.lt_or_ge vm.sp.toNat 8 with hlt | hge
      · rw [push_overflow vm _ hlt] at h
        cases h
        exact .stackOverflow (.inr hop) hlt
      · rw [push_spec vm _ hge hsp] at h
        cases h
        exact .call hop ht hge
    · simp only [checkJump_of_not_valid ht] at h
      cases h
      exact .badJump (by rw [hop]; decide) ht
  | ret =>
    intro h
    rcases Nat.lt_or_ge maxAddress vm.sp.toNat with hlt | hge
    · simp only [pop_underflow vm hlt] at h
      cases h
      exact .stackUnderflow (.inr hop) hlt
    · simp only [pop_spec vm hge] at h
      replace h : jumpTo vm.popped vm.top = (status, vm') := Except.ok.inj h
      by_cases ht : ValidTarget vm vm.top
      · rw [jumpTo_of_valid (show ValidTarget vm.popped vm.top from ht)] at h
        cases h
        exact .ret hop hge ht
      · rw [jumpTo_of_not_valid (show ¬ ValidTarget vm.popped vm.top from ht)] at h
        cases h
        exact .badReturn hop hge ht
  | cmpImm =>
    refine guardA_effect (by rw [hop]; decide) fun ha hk => ?_
    rw [reg_spec vm ha] at hk
    cases hk
    simpa using @Effect.compare vm ins (decide (vm.regD ins.a = ins.imm)) (.inl hop)
  | cmpReg =>
    refine guardAB_effect (by rw [hop]; decide) fun ha hb hk => ?_
    rw [reg_spec vm ha, reg_spec vm hb] at hk
    cases hk
    simpa using @Effect.compare vm ins (decide (vm.regD ins.a = vm.regD ins.b)) (.inr hop)
  | invalid => intro h; cases h; exact .badOpcode hop

/-! ## When a step faults -/

section Faults
variable {vm : WaiVm} {ins : WaiInstruction} {op : BinaryOp} {f : Fault}

theorem map_error_iff {α β : Type} {x : Except Fault α} {g : α → β} :
    x.map g = .error f ↔ x = .error f := by
  cases x with
  | error e => exact ⟨fun h => congrArg _ (Except.error.inj h), fun h => congrArg _ (Except.error.inj h)⟩
  | ok a => exact ⟨fun h => (nomatch h), fun h => (nomatch h)⟩

theorem caseImm_ne_fault (hop : ∀ x y, op x y ≠ .error f) : caseImm vm ins op ≠ .error f := by
  intro h
  cases ha : validReg ins.a with
  | false =>
    simp only [caseImm, ha] at h
    cases h
  | true =>
    rw [caseImm_spec ha, map_error_iff] at h
    exact hop _ _ h

theorem caseReg_ne_fault (hop : ∀ x y, op x y ≠ .error f) : caseReg vm ins op ≠ .error f := by
  intro h
  cases ha : validReg ins.a with
  | false =>
    simp only [caseReg, ha] at h
    cases h
  | true =>
    cases hb : validReg ins.b with
    | false =>
      simp only [caseReg, ha, hb] at h
      cases h
    | true =>
      rw [caseReg_spec ha hb, map_error_iff] at h
      exact hop _ _ h

/-- An operation that faults on the pair `INT64_MIN`, `-1` and nowhere else. -/
def FaultsOnOverflow (op : BinaryOp) : Prop :=
  ∀ x y f, op x y = .error f ↔ f = .divide ∧ x = BitVec.intMin 64 ∧ y = -1

theorem caseImm_fault_iff (hop : FaultsOnOverflow op)
    (hi : ins.op = .divImm ∨ ins.op = .modImm) :
    caseImm vm ins op = .error f ↔ f = .divide ∧ DivOverflow vm ins := by
  have hmem : ins.op ∈ WaiOpcode.divides := by rcases hi with h | h <;> rw [h] <;> decide
  have hB : ins.op ∉ WaiOpcode.usesB := by rcases hi with h | h <;> rw [h] <;> decide
  cases ha : validReg ins.a with
  | false =>
    simp only [caseImm, ha]
    exact ⟨fun h => (nomatch h), fun h => absurd (ha.symm.trans h.2.2.1) (by decide)⟩
  | true =>
    rw [caseImm_spec ha, map_error_iff, hop]
    simp only [DivOverflow, hmem, ha, hB, WaiInstruction.divisor, if_pos hi, true_and,
      false_implies]

theorem caseReg_fault_iff (hop : FaultsOnOverflow op)
    (hi : ins.op = .divReg ∨ ins.op = .modReg) :
    caseReg vm ins op = .error f ↔ f = .divide ∧ DivOverflow vm ins := by
  have hmem : ins.op ∈ WaiOpcode.divides := by rcases hi with h | h <;> rw [h] <;> decide
  have hB : ins.op ∈ WaiOpcode.usesB := by rcases hi with h | h <;> rw [h] <;> decide
  have hn : ¬ (ins.op = .divImm ∨ ins.op = .modImm) := by
    rcases hi with h | h <;> rw [h] <;> decide
  cases ha : validReg ins.a with
  | false =>
    simp only [caseReg, ha]
    exact ⟨fun h => (nomatch h), fun h => absurd (ha.symm.trans h.2.2.1) (by decide)⟩
  | true =>
    cases hb : validReg ins.b with
    | false =>
      simp only [caseReg, ha, hb]
      exact ⟨fun h => (nomatch h), fun h => absurd (hb.symm.trans (h.2.2.2.1 hB)) (by decide)⟩
    | true =>
      rw [caseReg_spec ha hb, map_error_iff, hop]
      simp only [DivOverflow, hmem, ha, hb, WaiInstruction.divisor, if_neg hn, true_and,
        implies_true]

/-- A case that tests one register does not fault when what follows does not. -/
theorem guardA_ne_fault {result : VmResult} (h : validReg ins.a = true → result ≠ .error f) :
    (if !validReg ins.a then .ok (setError vm .errBadRegister) else result) ≠ .error f := by
  cases ha : validReg ins.a with
  | false => exact fun e => nomatch e
  | true => exact h ha

theorem guardAB_ne_fault {result : VmResult}
    (h : validReg ins.a = true → validReg ins.b = true → result ≠ .error f) :
    (if !validReg ins.a || !validReg ins.b then .ok (setError vm .errBadRegister)
      else result) ≠ .error f := by
  cases ha : validReg ins.a with
  | false => exact fun e => nomatch e
  | true =>
    cases hb : validReg ins.b with
    | false => exact fun e => nomatch e
    | true => exact h ha hb

theorem loadFrom_ne_fault {a : Byte} (ha : validReg a = true) (address : WaiValue) :
    loadFrom vm a address ≠ .error f := by
  by_cases h : ValidAddress address
  · rw [loadFrom_of_valid ha h]
    exact fun e => nomatch e
  · rw [loadFrom_of_not_valid h]
    exact fun e => nomatch e

theorem storeTo_ne_fault {a : Byte} (ha : validReg a = true) (address : WaiValue) :
    storeTo vm a address ≠ .error f := by
  by_cases h : ValidAddress address
  · rw [storeTo_of_valid ha h]
    exact fun e => nomatch e
  · rw [storeTo_of_not_valid h]
    exact fun e => nomatch e

/-- The only fault of the switch is the division of `INT64_MIN` by `-1`: with
`sp` inside the memory no array is accessed out of bounds. -/
theorem switch_fault_iff (hsp : vm.sp.toNat ≤ waiMemorySize) :
    stepSwitch vm ins = .error f ↔ f = .divide ∧ DivOverflow vm ins := by
  have hno : ins.op ∉ WaiOpcode.divides → stepSwitch vm ins ≠ .error f →
      (stepSwitch vm ins = .error f ↔ f = .divide ∧ DivOverflow vm ins) :=
    fun hd hne => ⟨fun h => absurd h hne, fun h => absurd h.2.1 hd⟩
  revert hno
  unfold stepSwitch
  rw [show WaiOpcode.ofByte ins.opcode = ins.op from rfl]
  cases hop : ins.op with
  | divImm => exact fun _ => caseImm_fault_iff divOp_fault_iff (.inl hop)
  | modImm => exact fun _ => caseImm_fault_iff modOp_fault_iff (.inr hop)
  | divReg => exact fun _ => caseReg_fault_iff divOp_fault_iff (.inl hop)
  | modReg => exact fun _ => caseReg_fault_iff modOp_fault_iff (.inr hop)
  | movImm | addImm | subImm | mulImm | andImm | orImm | xorImm | not | shlImm | shrImm =>
    exact fun hno => hno (by decide) (caseImm_ne_fault fun _ _ h => nomatch h)
  | movReg | addReg | subReg | mulReg | andReg | orReg | xorReg | shlReg | shrReg =>
    exact fun hno => hno (by decide) (caseReg_ne_fault fun _ _ h => nomatch h)
  | jmp | je | jne | halt | nop | invalid =>
    exact fun hno => hno (by decide) fun h => nomatch h
  | jz | jnz =>
    refine fun hno => hno (by decide) (guardA_ne_fault fun ha => ?_)
    rw [reg_spec vm ha]
    exact fun h => nomatch h
  | print =>
    refine fun hno => hno (by decide) (guardA_ne_fault fun ha => ?_)
    rw [reg_spec vm ha]
    exact fun h => nomatch h
  | cmpImm =>
    refine fun hno => hno (by decide) (guardA_ne_fault fun ha => ?_)
    rw [reg_spec vm ha]
    exact fun h => nomatch h
  | cmpReg =>
    refine fun hno => hno (by decide) (guardAB_ne_fault fun ha hb => ?_)
    rw [reg_spec vm ha, reg_spec vm hb]
    exact fun h => nomatch h
  | loadAbs =>
    exact fun hno => hno (by decide) (guardA_ne_fault fun ha => loadFrom_ne_fault ha _)
  | storeAbs =>
    exact fun hno => hno (by decide) (guardA_ne_fault fun ha => storeTo_ne_fault ha _)
  | loadReg =>
    refine fun hno => hno (by decide) (guardAB_ne_fault fun ha hb => ?_)
    rw [reg_spec vm hb]
    exact loadFrom_ne_fault ha _
  | storeReg =>
    refine fun hno => hno (by decide) (guardAB_ne_fault fun ha hb => ?_)
    rw [reg_spec vm hb]
    exact storeTo_ne_fault ha _
  | push =>
    refine fun hno => hno (by decide) (guardA_ne_fault fun ha => ?_)
    rw [reg_spec vm ha]
    rcases Nat.lt_or_ge vm.sp.toNat 8 with hlt | hge
    · exact fun h => nomatch (push_overflow vm _ hlt).symm.trans h
    · exact fun h => nomatch (push_spec vm _ hge hsp).symm.trans h
  | pop =>
    refine fun hno => hno (by decide) (guardA_ne_fault fun ha => ?_)
    rcases Nat.lt_or_ge maxAddress vm.sp.toNat with hlt | hge
    · simp only [pop_underflow vm hlt]
      exact fun h => nomatch h
    · simp only [pop_spec vm hge, bind, Except.bind, setReg_spec _ ha]
      exact fun h => nomatch h
  | call =>
    refine fun hno => hno (by decide) ?_
    by_cases ht : ValidTarget vm ins.imm
    · simp only [checkJump_of_valid ht]
      rcases Nat.lt_or_ge vm.sp.toNat 8 with hlt | hge
      · rw [push_overflow vm _ hlt]
        exact fun h => nomatch h
      · rw [push_spec vm _ hge hsp]
        exact fun h => nomatch h
    · simp only [checkJump_of_not_valid ht]
      exact fun h => nomatch h
  | ret =>
    refine fun hno => hno (by decide) ?_
    rcases Nat.lt_or_ge maxAddress vm.sp.toNat with hlt | hge
    · rw [pop_underflow vm hlt]
      exact fun h => nomatch h
    · rw [pop_spec vm hge]
      exact fun h => nomatch h

end Faults

end Waivm
