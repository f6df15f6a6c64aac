import Waivm.Lib.X86

/-!
# The control stack of a function

Inside a function, between its prologue and its epilogue, what stands on the stack above
its frame is known from the text: at each label the same return addresses of calls within
the function and the same padding. `stackOk` checks this instruction by instruction, given
what is pending at each label, and `Balanced` is what it comes to in a state.

Results:

1. `exec_frame`: an instruction that is not about the stack leaves it alone, and changes
   no registers but those it writes.
2. `balanced_step`: the step rule. From a checked function no step leads to an unchecked
   state, until control is at an exit label.
3. `balanced_not_returned`: the function does not return before.
-/

namespace X86

open Machine (Outcome)

/-- What a function keeps on the stack above its frame. -/
inductive Pending
  /-- The return address of a call within the function. -/
  | ret
  /-- Eight bytes that are not used. -/
  | pad
deriving DecidableEq, Repr

section Check
variable {L F : Type}

/-- The registers that an instruction writes. -/
def Instr.writes : Instr L F → List Reg
  | .pop r | .mov r _ | .movRsp r | .mov32 r _ | .mov8 r _ | .movzx8 r _ | .movzx r _
  | .lea r _ _ _ | .alu _ r _ | .clear32 r | .inc r | .not r | .shlImm r _ | .shlCl r
  | .shrCl r => [r]
  | .cqo => [.rdx]
  | .idiv _ => [.rax, .rdx]
  | .callExtern _ => callerSaved
  | .label _ | .push _ | .store _ _ | .store8 _ _ | .store32 _ _ | .cmp _ _ | .cmp32 _ _
  | .cmp8 _ _ | .cmpMem _ _ | .cmpMem8 _ _ | .test _ _ | .sete _ | .jmp _ | .jcc _ _ | .call _
  | .ret | .addRsp _ | .subRsp _ => []

/-- The memory operand of an instruction. -/
def Instr.memRef : Instr L F → Option MemRef
  | .mov _ (.mem m) | .movzx _ m | .store m _ | .store8 m _ | .store32 m _ | .alu _ _ (.mem m)
  | .cmp _ (.mem m) | .cmpMem m _ | .cmpMem8 m _ | .sete m => some m
  | _ => none

/-- The instruction neither reads nor moves the stack pointer, and does not jump. -/
def Instr.plain : Instr L F → Bool
  | .label _ | .push _ | .pop _ | .movRsp _ | .jmp _ | .jcc _ _ | .call _ | .callExtern _
  | .ret | .addRsp _ | .subRsp _ => false
  | _ => true

/-- The instruction leaves its place by a step of its own. -/
def Instr.jumps : Instr L F → Bool
  | .label _ | .jmp _ | .jcc _ _ | .call _ | .ret => true
  | _ => false

/-- `stackOk pendingAt kept base pending code`: with `pending` on a frame of `base` slots,
the instructions pop what they pushed, get to each label with what is pending there (and to no
label for which it is `none`), return with a return address on top, call with an aligned
stack, and do not write the register `kept`. -/
def stackOk (pendingAt : L → Option (List Pending)) (kept : Reg) (base : Nat) :
    List Pending → List (Instr L F) → Bool
  | _, [] => true
  | pending, .label l :: _ => pendingAt l == some pending
  | pending, .jmp l :: _ => pendingAt l == some pending
  | pending, .jcc _ l :: rest =>
    pendingAt l == some pending && stackOk pendingAt kept base pending rest
  | pending, .call l :: rest =>
    pendingAt l == some (.ret :: pending) && stackOk pendingAt kept base pending rest
  | pending, .ret :: _ => pending.head? == some .ret
  | pending, .subRsp n :: rest => n == 8 && stackOk pendingAt kept base (.pad :: pending) rest
  | pending, .addRsp n :: rest =>
    n == 8 && !pending.isEmpty && stackOk pendingAt kept base pending.tail rest
  | pending, .callExtern _ :: rest =>
    (base + pending.length) % 2 == 0 && !callerSaved.contains kept &&
      stackOk pendingAt kept base pending rest
  | pending, i :: rest =>
    i.plain && !i.writes.contains kept && stackOk pendingAt kept base pending rest

end Check

variable {B L F M : Type} {pendingAt : L → Option (List Pending)} {kept : Reg}
  {frame : List (Slot B L F)}

/-- `Above pendingAt kept frame pending stack`: the stack is `pending` on `frame`, and every
pending return address leads to checked instructions. -/
inductive Above (pendingAt : L → Option (List Pending)) (kept : Reg) (frame : List (Slot B L F)) :
    List Pending → List (Slot B L F) → Prop
  | frame : Above pendingAt kept frame [] frame
  | ret {pending : List Pending} {stack : List (Slot B L F)} {back : List (Instr L F)}
      (hback : stackOk pendingAt kept frame.length pending back = true)
      (h : Above pendingAt kept frame pending stack) :
      Above pendingAt kept frame (.ret :: pending) (.ret back :: stack)
  | pad {pending : List Pending} {stack : List (Slot B L F)} {v : Val B}
      (h : Above pendingAt kept frame pending stack) :
      Above pendingAt kept frame (.pad :: pending) (.val v :: stack)

/-- The state is inside the function: `pending` stands on the frame, the instructions to
come are checked for it, and `kept` holds what it held after the prologue. -/
structure BalancedWith (pendingAt : L → Option (List Pending)) (kept : Reg) (frame : List (Slot B L F))
    (v : Val B) (pending : List Pending) (s : State B L F M) : Prop where
  code : stackOk pendingAt kept frame.length pending s.code = true
  stack : Above pendingAt kept frame pending s.stack
  kept : s.regs kept = v

/-- The state is inside the function, with something pending. -/
def Balanced (pendingAt : L → Option (List Pending)) (kept : Reg) (frame : List (Slot B L F)) (v : Val B)
    (s : State B L F M) : Prop :=
  ∃ pending, BalancedWith pendingAt kept frame v pending s

theorem Above.length {pending : List Pending} {stack : List (Slot B L F)}
    (h : Above pendingAt kept frame pending stack) :
    stack.length = frame.length + pending.length := by
  induction h with
  | frame => rfl
  | ret _ _ ih => rw [List.length_cons, List.length_cons, ih, Nat.add_assoc]
  | pad _ ih => rw [List.length_cons, List.length_cons, ih, Nat.add_assoc]

/-- At a label, what is pending there is pending. -/
theorem BalancedWith.pending_eq {v : Val B} {pending : List Pending} {s : State B L F M} {l : L}
    (h : BalancedWith pendingAt kept frame v pending s) (hl : AtLabel l s) :
    pendingAt l = some pending := by
  obtain ⟨rest, hcode⟩ := List.head?_eq_some_iff.mp hl
  have hok := h.code
  rw [hcode, stackOk, beq_iff_eq] at hok
  exact hok

/-! ## One step -/

section Step
variable {mem : Memory B M F} {s s' : State B L F M} {i : Instr L F}

theorem bind_ok {α β : Type} {x : Except Trap α} {f : α → Except Trap β} {b : β}
    (h : x >>= f = .ok b) : ∃ a, x = .ok a ∧ f a = .ok b := by
  cases x with
  | error t => cases h
  | ok a => exact ⟨a, rfl, h⟩

theorem set_other {regs : Reg → Val B} {r : Reg} {v : Val B} : ∀ r' ∉ [r], set regs r v r' = regs r' :=
  fun _ hr => if_neg (List.ne_of_not_mem_cons hr)

/-- An instruction that is not about the stack leaves it alone, and changes no registers
but those it writes. -/
theorem exec_frame (hplain : i.plain = true) (h : exec mem s i = .ok s') :
    s'.stack = s.stack ∧ ∀ r ∉ i.writes, s'.regs r = s.regs r := by
  cases i with
  | label | push | pop | movRsp | jmp | jcc | call | callExtern | ret | addRsp | subRsp =>
    cases hplain
  | mov32 | clear32 =>
    cases h
    exact ⟨rfl, set_other⟩
  | mov | mov8 | movzx8 | inc | not | shlImm | cqo =>
    obtain ⟨_, _, h⟩ := bind_ok h
    cases h
    exact ⟨rfl, set_other⟩
  | movzx | lea | alu | shlCl | shrCl =>
    obtain ⟨_, _, h⟩ := bind_ok h
    obtain ⟨_, _, h⟩ := bind_ok h
    cases h
    exact ⟨rfl, set_other⟩
  | cmp32 | cmp8 =>
    obtain ⟨_, _, h⟩ := bind_ok h
    cases h
    exact ⟨rfl, fun _ _ => rfl⟩
  | store8 | store32 | cmpMem8 | test =>
    obtain ⟨_, _, h⟩ := bind_ok h
    obtain ⟨_, _, h⟩ := bind_ok h
    cases h
    exact ⟨rfl, fun _ _ => rfl⟩
  | store | cmp | cmpMem =>
    obtain ⟨_, _, h⟩ := bind_ok h
    obtain ⟨_, _, h⟩ := bind_ok h
    obtain ⟨_, _, h⟩ := bind_ok h
    cases h
    exact ⟨rfl, fun _ _ => rfl⟩
  | idiv =>
    obtain ⟨_, _, h⟩ := bind_ok h
    obtain ⟨_, _, h⟩ := bind_ok h
    obtain ⟨_, _, h⟩ := bind_ok h
    obtain ⟨⟨_, _⟩, _, h⟩ := bind_ok h
    cases h
    refine ⟨rfl, fun r hr => ?_⟩
    obtain ⟨hrax, hrdx⟩ := List.ne_and_not_mem_of_not_mem_cons hr
    exact (if_neg (List.ne_of_not_mem_cons hrdx)).trans (if_neg hrax)
  | sete =>
    rw [exec] at h
    split at h
    · cases h
    · obtain ⟨_, _, h⟩ := bind_ok h
      obtain ⟨_, _, h⟩ := bind_ok h
      cases h
      exact ⟨rfl, fun _ _ => rfl⟩

/-- The step of an instruction that does not jump. -/
theorem step_exec {block : L → List (Instr L F)} {regs : Reg → Val B} {flags : Option Flags}
    {stack : List (Slot B L F)} {m : M} {rest : List (Instr L F)} (hjumps : i.jumps = false) :
    step mem block ⟨i :: rest, regs, flags, stack, m⟩ =
      match exec mem ⟨i :: rest, regs, flags, stack, m⟩ i with
      | .ok s => .next { s with code := rest }
      | .error t => .done (.trapped t) := by
  cases i <;> first | rfl | cases hjumps

theorem jumps_of_plain (hplain : i.plain = true) : i.jumps = false := by
  cases i <;> first | rfl | cases hplain

theorem stackOk_plain {base : Nat} {pending : List Pending} {rest : List (Instr L F)}
    (hplain : i.plain = true) :
    stackOk pendingAt kept base pending (i :: rest) =
      (i.plain && !i.writes.contains kept && stackOk pendingAt kept base pending rest) := by
  cases i <;> first | rfl | cases hplain

variable {block : L → List (Instr L F)} {exit : L → Prop} {v : Val B} {pending : List Pending}

/-- A step within the function, until control is at an exit label. -/
theorem balanced_step
    (hblock : ∀ l pending, pendingAt l = some pending → ¬ exit l →
      stackOk pendingAt kept frame.length pending (block l) = true)
    (h : Balanced pendingAt kept frame v s) (hexit : ∀ l, AtLabel l s → ¬ exit l)
    (hstep : step mem block s = .next s') : Balanced pendingAt kept frame v s' := by
  obtain ⟨pending, hcode, hstack, hkept⟩ := h
  obtain ⟨code, regs, flags, stack, m⟩ := s
  cases code with
  | nil => cases hstep
  | cons i rest =>
    by_cases hplain : i.plain = true
    · -- the frame rule
      rw [step_exec (jumps_of_plain hplain)] at hstep
      rw [stackOk_plain hplain, Bool.and_eq_true, Bool.and_eq_true] at hcode
      split at hstep
      · next t hexec =>
        cases hstep
        obtain ⟨hsame, hregs⟩ := exec_frame hplain hexec
        refine ⟨pending, hcode.2, hsame ▸ hstack, ?_⟩
        rw [hregs kept (by simpa using hcode.1.2)]
        exact hkept
      · cases hstep
    · cases i with
      | label l =>
        cases hstep
        rw [stackOk, beq_iff_eq] at hcode
        exact ⟨pending, hblock l pending hcode (hexit l rfl), hstack, hkept⟩
      | jmp l =>
        cases hstep
        exact ⟨pending, hcode, hstack, hkept⟩
      | jcc c l =>
        rw [stackOk, Bool.and_eq_true] at hcode
        cases flags with
        | none => cases hstep
        | some f =>
          cases hstep
          refine ⟨pending, ?_, hstack, hkept⟩
          show stackOk _ _ _ _ (if c.holds f then [.label l] else rest) = true
          split
          · exact hcode.1
          · exact hcode.2
      | call l =>
        cases hstep
        rw [stackOk, Bool.and_eq_true] at hcode
        exact ⟨.ret :: pending, hcode.1, .ret hcode.2 hstack, hkept⟩
      | ret =>
        rw [stackOk, beq_iff_eq] at hcode
        cases hstack with
        | frame => cases hcode
        | pad => cases hcode
        | ret hback hstack =>
          cases hstep
          exact ⟨_, hback, hstack, hkept⟩
      | subRsp n =>
        rw [stackOk, Bool.and_eq_true, beq_iff_eq] at hcode
        obtain ⟨rfl, hrest⟩ := hcode
        cases hstep
        exact ⟨.pad :: pending, hrest, .pad hstack, hkept⟩
      | addRsp n =>
        rw [stackOk, Bool.and_eq_true, Bool.and_eq_true, beq_iff_eq] at hcode
        obtain ⟨⟨rfl, _⟩, hrest⟩ := hcode
        cases hstack with
        | frame => simp at *
        | ret _ hstack =>
          cases hstep
          exact ⟨_, hrest, hstack, hkept⟩
        | pad hstack =>
          cases hstep
          exact ⟨_, hrest, hstack, hkept⟩
      | callExtern f =>
        rw [stackOk, Bool.and_eq_true, Bool.and_eq_true] at hcode
        rw [step_exec rfl] at hstep
        split at hstep
        · next t hexec =>
          cases hstep
          rw [exec] at hexec
          split at hexec
          · cases hexec
          · obtain ⟨_, _, hexec⟩ := bind_ok hexec
            cases hexec
            refine ⟨pending, hcode.2, hstack, ?_⟩
            have hsaved : kept ∉ callerSaved := by simpa using hcode.1.2
            exact (if_neg hsaved).trans hkept
        · cases hstep
      | push | pop | movRsp => cases hcode
      | _ => exact absurd rfl hplain

/-- Only `ret` returns to the caller. -/
theorem code_of_returned {t : State B L F M} (h : step mem block s = .done (.returned t)) :
    s.code.head? = some .ret := by
  obtain ⟨code, regs, flags, stack, m⟩ := s
  cases code with
  | nil => cases h
  | cons i rest =>
    cases hjumps : i.jumps with
    | false =>
      rw [step_exec hjumps] at h
      split at h <;> cases h
    | true =>
      cases i with
      | label | jmp | call => cases h
      | jcc c l => cases flags <;> cases h
      | ret => rfl
      | _ => cases hjumps

/-! ## What balance means in a state -/

/-- What stands above the frame at a label, and that `kept` is kept there. -/
theorem Balanced.atLabel {l : L} (h : Balanced pendingAt kept frame v s) (hl : AtLabel l s) :
    (∃ pending, pendingAt l = some pending ∧ Above pendingAt kept frame pending s.stack) ∧
      s.regs kept = v := by
  obtain ⟨pending, h⟩ := h
  exact ⟨⟨pending, h.pending_eq hl, h.stack⟩, h.kept⟩

/-- A return finds a return address of the function. -/
theorem Balanced.atRet (h : Balanced pendingAt kept frame v s) (hret : s.code.head? = some .ret) :
    ∃ back stack, s.stack = .ret back :: stack := by
  obtain ⟨pending, hcode, hstack, _⟩ := h
  obtain ⟨code, regs, flags, stack, m⟩ := s
  obtain ⟨rest, rfl⟩ := List.head?_eq_some_iff.mp hret
  rw [stackOk, beq_iff_eq] at hcode
  cases hstack with
  | frame => cases hcode
  | pad => cases hcode
  | ret => exact ⟨_, _, rfl⟩

/-- The function does not return before control is at an exit label. -/
theorem balanced_not_returned {t : State B L F M} (h : Balanced pendingAt kept frame v s) :
    step mem block s ≠ .done (.returned t) := by
  intro hstep
  have hret := code_of_returned hstep
  obtain ⟨back, stack, hstack⟩ := h.atRet hret
  obtain ⟨rest, hrest⟩ := List.head?_eq_some_iff.mp hret
  rw [step, hrest] at hstep
  simp only [hstack] at hstep
  cases hstep

/-- An external function is called with an aligned stack. -/
theorem Balanced.atCallExtern {f : F} (h : Balanced pendingAt kept frame v s)
    (hcall : s.code.head? = some (.callExtern f)) : s.stack.length % 2 = 0 := by
  obtain ⟨pending, hcode, hstack, _⟩ := h
  obtain ⟨rest, hrest⟩ := List.head?_eq_some_iff.mp hcall
  rw [hrest, stackOk, Bool.and_eq_true, Bool.and_eq_true, beq_iff_eq] at hcode
  rw [hstack.length]
  exact hcode.1.1

end Step

end X86
