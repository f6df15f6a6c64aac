import Waivm.Lib.X86Stack
import Waivm.AsmExec

/-!
# The control stack of the assembly engine

`wai_vm_exec_asm` saves six registers in its prologue and restores them at `.finish`. In
between its helpers are called, and left by `ret` or by a jump to an error exit that
discards their return address. All this is independent of what the memory accesses find:
the memory `mem` and what `rdi` holds are arbitrary here.

Results:

1. `block_stackOk`: the listing is balanced, label by label.
2. `engine_phases`: every state of a run is in the prologue, balanced, or in the epilogue.
3. `control_stack_balance`: the stack at the exits, at `.finish` and at the calls of the
   print hook, and what a run has restored when it returns.
-/

namespace Waivm

open X86 (Reg Val Instr Slot Memory AtLabel Pending stackOk Balanced)
open Machine (ReachesIn Reaches Ends)

/-! ## The listing -/

/-- What is pending at each label: a return address in the helpers and at the exits that
are jumped to from there, nothing elsewhere. Nothing gets back to the entry. -/
def pendingAt : Label → Option (List Pending)
  | .waiVmExecAsm => none
  | .checkRegAl | .setZfFromRax | .loadRegAIndex | .loadRegBIndex | .checkJumpImm | .checkJumpRax
  | .checkMemAddrRbx | .checkShiftRbx | .pushRax | .popRax | .errBadRegister | .errBadJump
  | .errMemoryOob | .errStackOverflow | .errStackUnderflow | .errBadShift => some [.ret]
  | _ => some []

/-- The labels of the error exits. -/
def errorExits : List Label :=
  [.errBadOpcode, .errIp, .errBadRegister, .errDivZero, .errBadJump, .errMemoryOob,
    .errStackOverflow, .errStackUnderflow, .errBadShift]

/-- The exit begins with `add rsp, 8`. -/
def discards (l : Label) : Bool :=
  match block l with
  | .addRsp 8 :: _ => true
  | _ => false

/-- The listing between the prologue and `.finish` is balanced. -/
theorem block_stackOk {l : Label} {pending : List Pending} (h : pendingAt l = some pending)
    (hfinish : l ≠ .finish) : stackOk pendingAt .r12 7 pending (block l) = true := by
  cases l <;> first | exact absurd rfl hfinish | (cases h <;> rfl)

/-! ## Runs -/

section Engine
variable {B M : Type} {mem : Memory B M Extern} {regs : Reg → Val B} {flags : Option X86.Flags}
  {m : M} {entryRsp : BitVec 64} {s s' : X86.State B Label Extern M}

/-- The state in which `wai_vm_exec_asm` is entered. -/
def engineEntry (regs : Reg → Val B) (flags : Option X86.Flags) (m : M) :
    X86.State B Label Extern M where
  code := [.label .waiVmExecAsm]
  regs := regs
  flags := flags
  stack := [.caller]
  mem := m

/-- The stack after the prologue: the saved registers and the return address. -/
def savedFrame (regs : Reg → Val B) : List (Slot B Label Extern) :=
  [.val (regs .r15), .val (regs .r14), .val (regs .r13), .val (regs .r12), .val (regs .rbx),
    .val (regs .rbp), .caller]

/-- The state at `.loop` after the prologue. -/
def afterPrologue (regs : Reg → Val B) (flags : Option X86.Flags) (m : M) :
    X86.State B Label Extern M where
  code := [.label .loop]
  regs := X86.set (X86.set regs .rbp (.stack 2)) .r12 (regs .rdi)
  flags := flags
  stack := savedFrame regs
  mem := m

theorem prologue_run (mem : Memory B M Extern) (regs : Reg → Val B) (flags : Option X86.Flags)
    (m : M) : ReachesIn (X86.step mem block) 9 (engineEntry regs flags m)
      (afterPrologue regs flags m) :=
  rfl

/-- Between the prologue and `.finish`, with the frame of the prologue and `vm` in `r12`. -/
def InBody (regs : Reg → Val B) (s : X86.State B Label Extern M) : Prop :=
  Balanced pendingAt .r12 (savedFrame regs) (regs .rdi) s

theorem inBody_afterPrologue : InBody regs (afterPrologue regs flags m) :=
  ⟨[], rfl, .frame, rfl⟩

/-- Behind `.finish`. -/
def InEpilogue (mem : Memory B M Extern) (regs : Reg → Val B) (s : X86.State B Label Extern M) :
    Prop :=
  ∃ f n, InBody regs f ∧ AtLabel .finish f ∧ ReachesIn (X86.step mem block) (n + 1) f s

theorem body_step (h : InBody regs s ∨ InEpilogue mem regs s)
    (hstep : X86.step mem block s = .next s') : InBody regs s' ∨ InEpilogue mem regs s' := by
  rcases h with hbody | ⟨f, n, hbody, hfinish, hn⟩
  · by_cases hfinish : AtLabel .finish s
    · exact .inr ⟨s, 0, hbody, hfinish, Machine.run_next hstep 0⟩
    · have hexit : ∀ l, AtLabel l s → l ≠ .finish := by
        rintro l hl rfl
        exact hfinish hl
      exact .inl (X86.balanced_step (fun l pending h => block_stackOk h) hbody hexit hstep)
  · exact .inr ⟨f, n + 1, hbody, hfinish, Machine.reachesIn_succ hn hstep⟩

/-- Every state of a run is in the prologue, between prologue and `.finish`, or behind it. -/
theorem engine_phases (h : Reaches (X86.step mem block) (engineEntry regs flags m) s) :
    (∃ n < 9, ReachesIn (X86.step mem block) n (engineEntry regs flags m) s) ∨ InBody regs s ∨
      InEpilogue mem regs s := by
  obtain ⟨n, hn⟩ := h
  rcases Nat.lt_or_ge n 9 with hlt | hge
  · exact .inl ⟨n, hlt, hn⟩
  · have hrest := Machine.run_add (prologue_run mem regs flags m) (n - 9)
    rw [Nat.add_sub_cancel' hge] at hrest
    have hreach : Reaches (X86.step mem block) (afterPrologue regs flags m) s :=
      ⟨n - 9, hrest.symm.trans hn⟩
    have hstart : InBody regs (afterPrologue regs flags m) ∨
        InEpilogue mem regs (afterPrologue regs flags m) := .inl inBody_afterPrologue
    exact .inr (Machine.reaches_invariant (fun t t' => body_step) hreach hstart)

/-- The stack at a label of the body where nothing is pending. -/
theorem InBody.stack_of_none {l : Label} (h : InBody regs s) (hl : AtLabel l s)
    (hnone : pendingAt l = some []) : s.stack = savedFrame regs := by
  obtain ⟨⟨pending, hpending, habove⟩, _⟩ := h.atLabel hl
  cases hnone.symm.trans hpending
  generalize s.stack = stack at habove
  cases habove
  rfl

/-- The stack at a label of the body where a return address is pending. -/
theorem InBody.stack_of_ret {l : Label} (h : InBody regs s) (hl : AtLabel l s)
    (hret : pendingAt l = some [.ret]) : ∃ back, s.stack = .ret back :: savedFrame regs := by
  obtain ⟨⟨pending, hpending, habove⟩, _⟩ := h.atLabel hl
  cases hret.symm.trans hpending
  generalize s.stack = stack at habove
  cases habove with
  | @ret _ stack back _ h =>
    cases h
    exact ⟨back, rfl⟩

/-- The state at the last instruction, with the saved registers restored. -/
structure AtReturn (regs : Reg → Val B) (s : X86.State B Label Extern M) : Prop where
  code : s.code = [.ret]
  stack : s.stack = [.caller]
  preserved : ∀ r ∉ X86.callerSaved, s.regs r = regs r

/-- Behind `.finish` registers are popped, and then the engine returns. -/
theorem InEpilogue.cases (h : InEpilogue mem regs s) :
    (∃ r, s.code.head? = some (.pop r)) ∨ AtReturn regs s := by
  obtain ⟨f, n, hbody, hfinish, hn⟩ := h
  have hstack := hbody.stack_of_none hfinish rfl
  obtain ⟨rest, hcode⟩ := List.head?_eq_some_iff.mp hfinish
  obtain ⟨code, regs', flags, stack, m⟩ := f
  obtain rfl : code = _ := hcode
  obtain rfl : stack = _ := hstack
  rcases n with _ | _ | _ | _ | _ | _ | _ | n
  iterate 6
    · cases hn
      exact .inl ⟨_, rfl⟩
  · cases hn
    refine .inr ⟨rfl, rfl, fun r hr => ?_⟩
    cases r <;> first | rfl | exact absurd (by decide) hr
  · cases hn

/-! ## The discipline -/

/-- The stack pointer, when it was `entryRsp` on entry, with the return address on top. -/
def rspAt (entryRsp : BitVec 64) (s : X86.State B Label Extern M) : BitVec 64 :=
  entryRsp + 8 - BitVec.ofNat 64 (8 * s.stack.length)

/-- What holds of the stack and of `r12` in a state of a run. -/
structure StackDisciplined (regs : Reg → Val B) (entryRsp : BitVec 64)
    (s : X86.State B Label Extern M) : Prop where
  /-- At `.finish` the stack is as it was right behind the prologue. -/
  finish : AtLabel .finish s →
    s.stack = savedFrame regs ∧ rspAt entryRsp s = rspAt entryRsp (afterPrologue regs none s.mem)
  /-- An exit that discards a return address finds one, the others find none. -/
  error_exit : ∀ l ∈ errorExits, AtLabel l s →
    if discards l then ∃ back, s.stack = .ret back :: savedFrame regs
    else s.stack = savedFrame regs
  /-- `r12` holds `vm` at every label behind the prologue, -/
  vm_kept : ∀ l, l ≠ .waiVmExecAsm → AtLabel l s → s.regs .r12 = regs .rdi
  /-- and wherever it is the base of an access. -/
  vm_base : ∀ i operand, s.code.head? = some i → i.memRef = some operand →
    operand.base = .r12 → s.regs .r12 = regs .rdi
  /-- A `ret` finds a return address of the engine or that of its caller. -/
  ret_address : s.code.head? = some .ret → (∃ back stack, s.stack = .ret back :: stack) ∨
    s.stack = [.caller]
  aligned : ∀ f, s.code.head? = some (.callExtern f) → (rspAt entryRsp s).toNat % 16 = 0

theorem rspAt_aligned (halign : entryRsp.toNat % 16 = 8) (heven : s.stack.length % 2 = 0) :
    (rspAt entryRsp s).toNat % 16 = 0 := by
  rw [rspAt, BitVec.toNat_sub, BitVec.toNat_add, BitVec.toNat_ofNat,
    show (8 : BitVec 64).toNat = 8 from rfl]
  omega

theorem InBody.disciplined (halign : entryRsp.toNat % 16 = 8) (h : InBody regs s) :
    StackDisciplined regs entryRsp s where
  finish hl := by
    have hstack := h.stack_of_none hl rfl
    refine ⟨hstack, ?_⟩
    rw [rspAt, rspAt, hstack]
    rfl
  error_exit l hmem hl := by
    simp only [errorExits, List.mem_cons, List.not_mem_nil, or_false] at hmem
    rcases hmem with rfl | rfl | rfl | rfl | rfl | rfl | rfl | rfl | rfl
    all_goals first | exact h.stack_of_none hl rfl | exact h.stack_of_ret hl rfl
  vm_kept l _ hl := (h.atLabel hl).2
  vm_base i operand _ _ _ := by
    obtain ⟨pending, _, _, hkept⟩ := h
    exact hkept
  ret_address hret := .inl (h.atRet hret)
  aligned f hcall := rspAt_aligned halign (h.atCallExtern hcall)

/-- An instruction that pushes, pops or moves between registers. -/
def isPrologue : Instr Label Extern → Bool
  | .push _ | .pop _ | .movRsp _ | .mov _ (.reg _) => true
  | _ => false

theorem memRef_of_prologue {i : Instr Label Extern} (h : isPrologue i = true) :
    i.memRef = none := by
  cases i with
  | mov _ src => cases src <;> first | rfl | cases h
  | _ => first | rfl | cases h

theorem disciplined_of_prologue {i : Instr Label Extern} (hi : s.code.head? = some i)
    (hprologue : isPrologue i = true) : StackDisciplined regs entryRsp s where
  finish hl := by
    cases Option.some.inj (hi.symm.trans hl)
    cases hprologue
  error_exit l _ hl := by
    cases Option.some.inj (hi.symm.trans hl)
    cases hprologue
  vm_kept l _ hl := by
    cases Option.some.inj (hi.symm.trans hl)
    cases hprologue
  vm_base i' operand hi' hoperand _ := by
    cases Option.some.inj (hi.symm.trans hi')
    cases (memRef_of_prologue hprologue).symm.trans hoperand
  ret_address hret := by
    cases Option.some.inj (hi.symm.trans hret)
    cases hprologue
  aligned f hcall := by
    cases Option.some.inj (hi.symm.trans hcall)
    cases hprologue

theorem AtReturn.disciplined (h : AtReturn regs s) : StackDisciplined regs entryRsp s where
  finish hl := by
    rw [AtLabel, h.code] at hl
    cases hl
  error_exit l _ hl := by
    rw [AtLabel, h.code] at hl
    cases hl
  vm_kept l _ hl := by
    rw [AtLabel, h.code] at hl
    cases hl
  vm_base i operand hi hoperand _ := by
    rw [h.code] at hi
    cases hi
    cases hoperand
  ret_address _ := .inr h.stack
  aligned f hcall := by
    rw [h.code] at hcall
    cases hcall

theorem prologue_cases {n : Nat} (hn : n < 9)
    (h : ReachesIn (X86.step mem block) n (engineEntry regs flags m) s) :
    s = engineEntry regs flags m ∨ ∃ i, s.code.head? = some i ∧ isPrologue i = true := by
  rcases n with _ | _ | _ | _ | _ | _ | _ | _ | _ | n
  · cases h
    exact .inl rfl
  iterate 8
    · cases h
      exact .inr ⟨_, rfl, rfl⟩
  · exact absurd hn (Nat.not_lt.mpr (Nat.le_add_left 9 n))

theorem entry_disciplined : StackDisciplined regs entryRsp (engineEntry regs flags m) where
  finish hl := by cases hl
  error_exit l hmem hl := by
    cases hl
    exact absurd hmem (by decide)
  vm_kept l hne hl := by
    cases hl
    exact absurd rfl hne
  vm_base i operand hi hoperand _ := by
    cases hi
    cases hoperand
  ret_address hret := by cases hret
  aligned f hcall := by cases hcall

/-- The states of the prologue. -/
theorem prologue_disciplined {n : Nat} (hn : n < 9)
    (h : ReachesIn (X86.step mem block) n (engineEntry regs flags m) s) :
    StackDisciplined regs entryRsp s := by
  rcases prologue_cases hn h with rfl | ⟨i, hi, hprologue⟩
  · exact entry_disciplined
  · exact disciplined_of_prologue hi hprologue

/-- In every state of a run the stack is disciplined; and a run that returns has consumed
the return address of its caller and restored the registers that a call preserves. -/
theorem control_stack_balance (mem : Memory B M Extern) (regs : Reg → Val B)
    (flags : Option X86.Flags) (m : M) (entryRsp : BitVec 64) (halign : entryRsp.toNat % 16 = 8) :
    (∀ s, Reaches (X86.step mem block) (engineEntry regs flags m) s →
      StackDisciplined regs entryRsp s) ∧
    ∀ s, Ends (X86.step mem block) (engineEntry regs flags m) (.returned s) →
      s.stack = [] ∧ rspAt entryRsp s = entryRsp + 8 ∧ ∀ r ∉ X86.callerSaved, s.regs r = regs r := by
  constructor
  · intro s h
    rcases engine_phases h with ⟨n, hn, hreach⟩ | hbody | hepilogue
    · exact prologue_disciplined hn hreach
    · exact hbody.disciplined halign
    · rcases hepilogue.cases with ⟨r, hpop⟩ | hreturn
      · exact disciplined_of_prologue hpop rfl
      · exact hreturn.disciplined
  · intro s hends
    obtain ⟨n, hn⟩ := hends
    obtain ⟨k, t, _, hreach, hstep⟩ := Machine.endsIn_cases hn
    have hret := X86.code_of_returned hstep
    rcases engine_phases ⟨k, hreach⟩ with ⟨n, hn, hreach⟩ | hbody | hepilogue
    · rcases prologue_cases hn hreach with rfl | ⟨i, hi, hprologue⟩
      · cases hret
      · cases Option.some.inj (hi.symm.trans hret)
        cases hprologue
    · exact absurd hstep (X86.balanced_not_returned hbody)
    · rcases hepilogue.cases with ⟨r, hpop⟩ | ⟨hcode, hstack, hpreserved⟩
      · cases Option.some.inj (hpop.symm.trans hret)
      · rw [X86.step, hcode] at hstep
        simp only [hstack] at hstep
        cases hstep
        refine ⟨rfl, ?_, hpreserved⟩
        rw [rspAt, List.length_nil, Nat.mul_zero]
        exact BitVec.sub_zero _

end Engine

/-- The machine of `print r0` and a `pop r0` that finds the stack empty. -/
def popEmptyVm : WaiVm :=
  waiVmInit (some [⟨14, 0, 0, 0, 0⟩, ⟨21, 0, 0, 0, 0⟩]) 2

set_option maxRecDepth 4000 in
/-- The engine prints, fails in `pop_rax`, and returns as it was called. -/
theorem control_stack_balance_pop :
    (∀ s, Reaches asmStep (asmEntry (fun _ => .int 0) popEmptyVm) s →
      StackDisciplined (X86.set (fun _ => .int 0) .rdi (.ptr .vm 0)) 0x7ffffffde008 s) ∧
    ∃ s, Ends asmStep (asmEntry (fun _ => .int 0) popEmptyVm) (.returned s) ∧
      s.mem.emitted = [0] ∧ s.mem.error = .errStackUnderflow ∧
      s.stack = [] ∧ rspAt 0x7ffffffde008 s = 0x7ffffffde010 ∧
      ∀ r ∉ X86.callerSaved, s.regs r = X86.set (fun _ => .int 0) .rdi (.ptr .vm 0) r := by
  obtain ⟨hdisciplined, hreturned⟩ := control_stack_balance vmObjects
    (X86.set (fun _ => .int 0) .rdi (.ptr .vm 0)) none popEmptyVm 0x7ffffffde008 rfl
  obtain ⟨s, hends, hemitted, herror⟩ : ∃ s, Ends asmStep (asmEntry (fun _ => .int 0) popEmptyVm)
      (.returned s) ∧ s.mem.emitted = [0] ∧ s.mem.error = .errStackUnderflow :=
    ⟨_, ⟨200, rfl⟩, rfl, rfl⟩
  exact ⟨hdisciplined, s, hends, hemitted, herror, hreturned s hends⟩

end Waivm
