import Waivm.AsmExec
import Waivm.Verifier

/-!
# The loop of the assembly engine

From one `.loop` head to the next the engine does what one successful call of
`wai_vm_step` does, and where the iteration of the stepper ends the engine
returns or traps with the same result.

Results:
1. `tableLabel_eq`, `dispatch_goes`: the jump table selects the body of the opcode.
2. `switch_runs`: from there the engine does what the `switch` does.
3. `loop_goes`: one round of the loop.
4. `engine_simulation`: the loop simulates the stepper, with the machine
   invariant in the relation.
-/

namespace Waivm

open X86 (Reg Val Goes startsLabel)
open Machine (Outcome Simulation Between)

/-! ## 1. The loop -/

/-- The label that `.loop` jumps to for an opcode. -/
def opLabel : WaiOpcode → Label
  | .invalid => .errBadOpcode
  | .movImm => .opMovImm
  | .movReg => .opMovReg
  | .addImm => .opAddImm
  | .addReg => .opAddReg
  | .subImm => .opSubImm
  | .subReg => .opSubReg
  | .mulImm => .opMulImm
  | .mulReg => .opMulReg
  | .divImm => .opDivImm
  | .divReg => .opDivReg
  | .jmp => .opJmp
  | .jz => .opJz
  | .jnz => .opJnz
  | .print => .opPrint
  | .halt => .opHalt
  | .loadAbs => .opLoadAbs
  | .loadReg => .opLoadReg
  | .storeAbs => .opStoreAbs
  | .storeReg => .opStoreReg
  | .push => .opPush
  | .pop => .opPop
  | .call => .opCall
  | .ret => .opRet
  | .cmpImm => .opCmpImm
  | .cmpReg => .opCmpReg
  | .je => .opJe
  | .jne => .opJne
  | .nop => .opNop
  | .modImm => .opModImm
  | .modReg => .opModReg
  | .andImm => .opAndImm
  | .andReg => .opAndReg
  | .orImm => .opOrImm
  | .orReg => .opOrReg
  | .xorImm => .opXorImm
  | .xorReg => .opXorReg
  | .not => .opNot
  | .shlImm => .opShlImm
  | .shlReg => .opShlReg
  | .shrImm => .opShrImm
  | .shrReg => .opShrReg

/-- The first entry of a table that matches the opcode in `eax`. -/
def tableLabel (table : List (BitVec 32 × Label)) (eax : BitVec 32) : Option Label :=
  (table.find? fun entry => eax = entry.1).map (·.2)

/-- The numbers of the assembly file are the values of the C enumeration. -/
theorem tableLabel_eq (opcode : LittleEndian.Byte) :
    tableLabel dispatchTable (opcode.setWidth 32) =
      if WaiOpcode.ofByte opcode = .invalid then none
      else some (opLabel (WaiOpcode.ofByte opcode)) := by
  revert opcode
  decide +kernel

section Loop
variable {entry regs : Reg → Val Object} {flags : Option X86.Flags} {vm : WaiVm}
  {stack : List (X86.Slot Object Label Extern)} {P : Outcome AsmState AsmEnd → Prop}

/-- The chain of comparisons jumps to the label of the first match, and runs
through when there is none. -/
theorem dispatch_goes {table : List (BitVec 32 × Label)} {rest : List (X86.Instr Label Extern)}
    {v : BitVec 64} (hrax : regs .rax = .int v) (hrest : startsLabel rest = false)
    (hloop : ∀ entry ∈ table, entry.2 ≠ .loop)
    (hk : ∀ flags, Goes vmObjects block Label.loop P
      ⟨match tableLabel table (v.setWidth 32) with
        | some l => [.label l]
        | none => rest, regs, flags, stack, vm⟩) (flags : Option X86.Flags) :
    Goes vmObjects block Label.loop P
      ⟨table.flatMap (fun entry => [.cmp32 .rax entry.1, .jcc .e entry.2]) ++ rest, regs, flags,
        stack, vm⟩ := by
  induction table generalizing flags with
  | nil => exact hk flags
  | cons first table ih =>
    have hfirst := hloop first List.mem_cons_self
    have hnext : startsLabel (table.flatMap
        (fun entry => [.cmp32 .rax entry.1, .jcc .e entry.2]) ++ rest) = false := by
      cases table with
      | nil => exact hrest
      | cons second table => rfl
    refine .cmp32 hrax rfl (.jcc hfirst hnext (fun hc => ?_) fun hc => ?_)
    · rw [X86.holds_e, decide_eq_true_eq] at hc
      have := hk (some (X86.cmpFlags (v.setWidth 32) first.1))
      simpa only [tableLabel, List.find?_cons, hc, decide_true, Option.map_some] using this
    · rw [X86.holds_e] at hc
      refine ih (fun entry he => hloop entry (List.mem_cons_of_mem _ he)) (fun flags => ?_) _
      simpa only [tableLabel, List.find?_cons, hc] using hk flags

end Loop

section Switch
variable {entry regs : Reg → Val Object} {flags : Option X86.Flags} {vm : WaiVm}
  {ins : WaiInstruction} {offset : BitVec 64}

/-- From the label of its opcode, the engine does with an instruction what the
`switch` does. -/
theorem switch_runs (h12 : regs .r12 = .ptr .vm 0) (h13 : regs .r13 = .ptr .code offset)
    (hins : instructionAt vm offset = some ins) (h0 : vm.halted = 0) (herr : vm.error = .ok)
    (hsp : vm.sp.toNat ≤ waiMemorySize) (hcount : vm.codeCount.toNat < 2 ^ 63) :
    Runs entry (stepSwitch vm ins) ⟨[.label (opLabel ins.op)], regs, flags, frame entry, vm⟩ := by
  unfold stepSwitch
  rw [show WaiOpcode.ofByte ins.opcode = ins.op from rfl]
  cases ins.op with
  | movImm => exact opMovImm_runs h12 h13 hins h0
  | movReg => exact opMovReg_runs h12 h13 hins h0
  | addImm => exact .label rfl (aluImmRdx_runs h12 h13 hins h0 (fun _ _ => rfl) fun _ _ => rfl)
  | addReg => exact .label rfl (aluRegRdx_runs h12 h13 hins h0 (fun _ _ => rfl) fun _ _ => rfl)
  | subImm => exact .label rfl (aluImmRdx_runs h12 h13 hins h0 (fun _ _ => rfl) fun _ _ => rfl)
  | subReg => exact .label rfl (aluRegRdx_runs h12 h13 hins h0 (fun _ _ => rfl) fun _ _ => rfl)
  | mulImm => exact .label rfl (aluImmRax_runs h12 h13 hins h0 (fun _ _ => rfl) fun _ _ => rfl)
  | mulReg => exact opMulReg_runs h12 h13 hins h0
  | divImm => exact opDivImm_runs h12 h13 hins h0
  | divReg => exact opDivReg_runs h12 h13 hins h0
  | jmp => exact opJmp_runs h12 h13 hins h0
  | jz => exact opJz_runs h12 h13 hins h0
  | jnz => exact opJnz_runs h12 h13 hins h0
  | print => exact opPrint_runs h12 h13 hins h0
  | halt => exact opHalt_runs h12 herr
  | loadAbs => exact opLoadAbs_runs h12 h13 hins h0
  | loadReg => exact opLoadReg_runs h12 h13 hins h0
  | storeAbs => exact opStoreAbs_runs h12 h13 hins h0
  | storeReg => exact opStoreReg_runs h12 h13 hins h0
  | push => exact opPush_runs h12 h13 hins h0 hsp
  | pop => exact opPop_runs h12 h13 hins h0
  | call => exact opCall_runs h12 h13 hins h0 hsp
  | ret => exact opRet_runs h12 h0 hcount
  | cmpImm => exact opCmpImm_runs h12 h13 hins h0
  | cmpReg => exact opCmpReg_runs h12 h13 hins h0
  | je => exact opJe_runs h12 h13 hins h0
  | jne => exact opJne_runs h12 h13 hins h0
  | nop => exact opNop_runs h12 h0
  | modImm => exact opModImm_runs h12 h13 hins h0
  | modReg => exact opModReg_runs h12 h13 hins h0
  | andImm => exact .label rfl (aluImmRax_runs h12 h13 hins h0 (fun _ _ => rfl) fun _ _ => rfl)
  | andReg => exact .label rfl (aluRegRax_runs h12 h13 hins h0 (fun _ _ => rfl) fun _ _ => rfl)
  | orImm => exact .label rfl (aluImmRax_runs h12 h13 hins h0 (fun _ _ => rfl) fun _ _ => rfl)
  | orReg => exact .label rfl (aluRegRax_runs h12 h13 hins h0 (fun _ _ => rfl) fun _ _ => rfl)
  | xorImm => exact .label rfl (aluImmRax_runs h12 h13 hins h0 (fun _ _ => rfl) fun _ _ => rfl)
  | xorReg => exact .label rfl (aluRegRax_runs h12 h13 hins h0 (fun _ _ => rfl) fun _ _ => rfl)
  | not => exact opNot_runs h12 h13 hins h0
  | shlImm => exact opShlImm_runs h12 h13 hins h0
  | shlReg => exact opShlReg_runs h12 h13 hins h0
  | shrImm => exact opShrImm_runs h12 h13 hins h0
  | shrReg => exact opShrReg_runs h12 h13 hins h0
  | invalid => exact error_runs h12 rfl rfl (by decide)

/-- `r13` after the computation of `&code[ip]`. -/
def instructionOffset (ip : BitVec 64) : BitVec 64 :=
  0#64 + (ip + ip * BitVec.ofNat 64 2) <<< 2

theorem toNat_instructionOffset {ip : BitVec 64} (h : ip.toNat < maxInstructions) :
    (instructionOffset ip).toNat = 12 * ip.toNat := by
  have hmax : maxInstructions = 1537228672809129301 := rfl
  rw [instructionOffset, BitVec.zero_add, BitVec.toNat_shiftLeft, BitVec.toNat_add,
    BitVec.toNat_mul, show (BitVec.ofNat 64 2).toNat = 2 from rfl, Nat.shiftLeft_eq]
  omega

theorem instructionAt_offset {code : List WaiInstruction} {ip : BitVec 64}
    (hc : vm.code = some code) (hget : code[ip.toNat]? = some ins)
    (h : ip.toNat < maxInstructions) :
    instructionAt vm (instructionOffset ip) = some ins := by
  have hsize : sizeofWaiInstruction = 12 := rfl
  simp only [instructionAt, toNat_instructionOffset h, hsize, Nat.mul_mod_right, if_true,
    Nat.mul_div_cancel_left _ (show 0 < 12 by decide), hc]
  exact hget

/-- The tests at the head of the loop: halted, or past the end of the code. -/
theorem loop_head_goes {P : Outcome AsmState AsmEnd → Prop} (h12 : regs .r12 = .ptr .vm 0)
    (hhalted : vm.halted ≠ 0 → ∀ c, ReturnedWith entry 0 vm c → P (.done (.returned c)))
    (hend : vm.halted = 0 → vm.codeCount ≤ vm.ip →
      ∀ c, ReturnedWith entry 1 (vm.failed .errIpOutOfBounds) c → P (.done (.returned c)))
    (hk : vm.halted = 0 → vm.ip < vm.codeCount → ∀ flags, Goes vmObjects block Label.loop P
      ⟨(block .loop).drop 6, X86.set (X86.set regs .rax (.int vm.ip)) .rbx (.int vm.codeCount),
        flags, frame entry, vm⟩) :
    Goes vmObjects block Label.loop P ⟨[.label .loop], regs, flags, frame entry, vm⟩ := by
  refine .label rfl (.cmp_mem8 (address_vm h12 _) rfl rfl ?_)
  refine .jcc (by decide) rfl (fun hc => ?_) fun hc => ?_
  · rw [X86.holds_ne, decide_eq_true_eq] at hc
    exact ok_return_goes (hhalted hc)
  · rw [X86.holds_ne, decide_eq_false_iff_not, Classical.not_not] at hc
    refine .load (address_vm h12 _) rfl rfl (.load (address_vm h12 _) rfl rfl ?_)
    refine .cmp_reg rfl rfl rfl (.jcc (by decide) rfl (fun he => ?_) fun he => ?_)
    · rw [X86.holds_ae, decide_eq_true_eq] at he
      obtain ⟨o, hseg, ho⟩ : Runs entry (.ok (setError vm .errIpOutOfBounds))
          ⟨[.label .errIp], X86.set (X86.set regs .rax (.int vm.ip)) .rbx (.int vm.codeCount),
            some (X86.cmpFlags vm.ip vm.codeCount), frame entry, vm⟩ :=
        error_runs h12 rfl rfl (by decide)
      refine ⟨o, hseg, ?_⟩
      cases o with
      | next c => exact absurd ho id
      | done r =>
        cases r with
        | returned c => exact hend hc he c ho
        | trapped t => exact absurd ho id
    · rw [X86.holds_ae, decide_eq_false_iff_not, BitVec.not_le] at he
      exact hk hc he _

end Switch

/-! ## 2. The simulation -/

/-- One round of the engine, in terms of the C stepper: an iteration of
`wai_vm_step` that does not look at a halted machine again. -/
def engineStep (vm : WaiVm) : Outcome WaiVm StepEnd :=
  if vm.halted ≠ 0 then .done (.stopped .ok vm) else resultOutcome (waiVmStep vm)

section Simulate
variable {entry : Reg → Val Object} {code : List WaiInstruction} {vm : WaiVm} {d : Nat}

/-- From a loop head the engine does one round. -/
theorem loop_goes (hlen : code.length ≤ maxInstructions) (h : MachineInvariant code vm d)
    {c : AsmState} (hc : AtLoop entry c vm) :
    Goes vmObjects block Label.loop (Matches entry (engineStep vm)) c := by
  obtain ⟨ccode, regs, flags, stack, mem⟩ := c
  obtain ⟨rfl, h12, rfl, rfl⟩ := hc
  have hlt64 : code.length < 2 ^ 64 := Nat.lt_of_le_of_lt hlen maxInstructions_lt
  have hcount := h.codeCount_toNat hlt64
  refine loop_head_goes h12 (fun hne c hr => ?_) (fun h0 hge c hr => ?_) fun h0 hlt flags => ?_
  · rw [engineStep, if_pos hne]
    exact hr
  · rw [engineStep, if_neg (not_not_intro h0), step_past_end h.code_eq (not_not_intro h0) hge]
    exact hr
  · have hin : mem.ip.toNat < code.length := hcount ▸ hlt
    have hip : mem.ip.toNat < maxInstructions := Nat.lt_of_lt_of_le hin hlen
    have hget : code[mem.ip.toNat]? = some code[mem.ip.toNat] := List.getElem?_eq_getElem hin
    generalize code[mem.ip.toNat] = instr at hget
    rw [engineStep, if_neg (not_not_intro h0),
      step_fetch h.code_eq (not_not_intro h0) (BitVec.not_le.mpr hlt) hget]
    -- the engine reads `code` and the opcode, and stores the advanced `ip` before it dispatches
    have hread : vmObjects.read mem .vm 0 vmCode 0 = some (.ptr .code 0) := by
      show some (if mem.code.isSome then Val.ptr Object.code 0 else .int 0) = _
      rw [h.code_eq]
      rfl
    have hins : instructionAt mem.fetched (instructionOffset mem.ip) = some instr :=
      instructionAt_offset h.code_eq hget hip
    have hop : vmObjects.read8 mem.fetched .code (instructionOffset mem.ip) insOpcode 0 =
        some instr.opcode := by
      show (instructionAt mem.fetched _).map _ = _
      rw [hins]
      rfl
    refine .load (address_vm h12 _) hread rfl (.lea rfl rfl rfl (.shlImm rfl rfl ?_))
    refine .alu_reg rfl rfl (.inc rfl rfl (.store (address_vm h12 _) rfl rfl rfl ?_))
    refine .load8 (address_ins rfl _) hop rfl ?_
    refine dispatch_goes rfl rfl (by decide) (fun flags => ?_) _
    rw [BitVec.setWidth_setWidth_of_le _ (by decide), tableLabel_eq]
    have hf := invariant_fetched h hlt
    have h63 : mem.fetched.codeCount.toNat < 2 ^ 63 := by
      rw [hf.codeCount_toNat hlt64]
      exact Nat.lt_of_le_of_lt hlen (by decide)
    by_cases hinv : WaiOpcode.ofByte instr.opcode = .invalid
    · -- no entry of the table matches, and the chain ends in a jump to the error
      rw [if_pos hinv]
      have hlabel : opLabel instr.op = .errBadOpcode := congrArg opLabel hinv
      refine .jmp (by decide) ?_
      rw [← hlabel]
      exact switch_runs h12 rfl hins h0 h.error_ok hf.sp_le h63
    · rw [if_neg hinv]
      exact switch_runs h12 rfl hins h0 h.error_ok hf.sp_le h63

/-- The relation of the simulation: a loop head, and the invariant. -/
def LoopRelation (entry : Reg → Val Object) (code : List WaiInstruction) (c : AsmState)
    (vm : WaiVm) : Prop :=
  AtLoop entry c vm ∧ ∃ d, MachineInvariant code vm d

/-- The relation of the results. -/
def EndRelation (entry : Reg → Val Object) (r : AsmEnd) (r' : StepEnd) : Prop :=
  Matches entry (.done r') (.done r)

theorem engineStep_next {vm vm' : WaiVm} (h : engineStep vm = .next vm') :
    vm.halted = 0 ∧ StepOk vm vm' ∧ vm'.halted = 0 := by
  unfold engineStep at h
  split at h
  · cases h
  · next h0 =>
    cases hs : waiVmStep vm with
    | error f => rw [hs] at h; cases h
    | ok result =>
      obtain ⟨status, vm''⟩ := result
      rw [hs] at h
      by_cases hok : status = .ok
      · subst hok
        by_cases h1 : vm''.halted = 0
        · rw [resultOutcome_next h1] at h
          cases h
          exact ⟨Classical.not_not.mp h0, hs, h1⟩
        · rw [resultOutcome, if_pos h1] at h
          cases h
      · rw [resultOutcome_error hok] at h
        cases h

/-- The assembly loop simulates the stepper. -/
theorem engine_simulation (entry : Reg → Val Object) (hlen : code.length ≤ maxInstructions) :
    Simulation asmStep engineStep LoopHead (LoopRelation entry code) (EndRelation entry) where
  head := by
    rintro c vm ⟨hc, _⟩
    unfold LoopHead X86.AtLabel
    rw [hc.code]
    rfl
  next := by
    rintro c vm vm' ⟨hc, d, hinv⟩ hs
    obtain ⟨o, hseg, ho⟩ := loop_goes hlen hinv hc
    rw [hs] at ho
    cases o with
    | next c' =>
      obtain ⟨d', hinv', _⟩ := invariant_step (Nat.lt_of_le_of_lt hlen maxInstructions_lt) hinv
        (engineStep_next hs).2.1
      exact ⟨c', ⟨ho, d', hinv'⟩, hseg⟩
    | done r => cases r <;> exact absurd ho id
  done := by
    rintro c vm r' ⟨hc, d, hinv⟩ hs
    obtain ⟨o, hseg, ho⟩ := loop_goes hlen hinv hc
    rw [hs] at ho
    cases o with
    | next c' =>
      cases r' with
      | stopped status vm' => exact absurd ho id
      | fault f => cases f <;> exact absurd ho id
    | done r => exact ⟨r, ho, hseg⟩

/-- The prologue leads from the entry of `wai_vm_exec_asm` to the first loop head. -/
theorem entry_between (regs : Reg → Val Object) (vm : WaiVm) :
    ∃ c, AtLoop (X86.set regs .rdi (.ptr .vm 0)) c vm ∧
      Between asmStep LoopHead (asmEntry regs vm) c := by
  obtain ⟨o, hseg, ho⟩ : Goes vmObjects block Label.loop
      (fun o => ∃ c, o = .next c ∧ AtLoop (X86.set regs .rdi (.ptr .vm 0)) c vm)
      (asmEntry regs vm) := by
    -- the pushes of the callee-saved registers, and the setup of `r12`
    refine .label rfl (.next rfl rfl (.next rfl rfl (.next rfl rfl ?_)))
    refine .next rfl rfl (.next rfl rfl (.next rfl rfl (.next rfl rfl ?_)))
    exact .arrive rfl ⟨_, rfl, rfl, rfl, rfl, rfl⟩
  obtain ⟨c, rfl, hc⟩ := ho
  refine ⟨c, hc, hseg, ?_⟩
  unfold LoopHead X86.AtLabel
  rw [hc.code]
  rfl

end Simulate

end Waivm
