import Waivm.Lib.Machine

/-!
# A fragment of x86-64 assembly

The instructions, operand sizes and flags of a hand-written System V function,
as a deterministic machine. A program gives the instructions of every label;
control that runs into the next label of the listing is the pseudo-instruction
`label`, so that passing a label is a step of the machine.

Values are not raw words. A register holds a number, a pointer into an object,
a stack position, or nothing defined; using a value the wrong way is a trap, so
a program that does not trap relies on no leftover of a call and on no address
outside its objects. Memory is a parameter: an operand names an object by a base
pointer and a displacement, and the scaled index, if there is one, has to stay
inside the field found there. Flags after arithmetic, and the overflow flag, are
not modelled: reading them is a trap as well.

The stack is a list of slots of eight bytes with the top first. Its last slot is
the return address of the caller, so a call is aligned to 16 bytes when the
number of slots is even.

Results: the rules `Goes.next`, `Goes.done` and `Goes.arrive` for running to the
next head, and the instruction rules on top of them.
-/

namespace X86

open Machine (Outcome Segment)

/-- The general registers, except `rsp`. -/
inductive Reg
  | rax | rbx | rcx | rdx | rsi | rdi | rbp
  | r8 | r9 | r10 | r11 | r12 | r13 | r14 | r15
deriving DecidableEq, Repr

/-- The registers that a call does not preserve. -/
def callerSaved : List Reg :=
  [.rax, .rcx, .rdx, .rsi, .rdi, .r8, .r9, .r10, .r11]

/-- What a register holds. `byte v`: only the lowest byte is known. -/
inductive Val (B : Type)
  | undef
  | int (v : BitVec 64)
  | byte (v : BitVec 8)
  | ptr (object : B) (offset : BitVec 64)
  | stack (depth : Nat)

/-- The flags a comparison sets. -/
structure Flags where
  zf : Bool
  cf : Bool
  sf : Bool

/-- The conditions of `je`, `jne`, `ja`, `jae`, `jb` and `js`. -/
inductive Cond
  | e | ne | a | ae | b | s

/-- `[base + disp + index * scale]` -/
structure MemRef where
  base : Reg
  disp : Nat
  index : Option (Reg × Nat)

/-- The source of a 64-bit operation; an immediate is sign-extended. -/
inductive Src
  | reg (r : Reg)
  | mem (m : MemRef)
  | imm (n : Int)

/-- `add`, `sub`, `and`, `or`, `xor`, `imul` -/
inductive Alu
  | add | sub | and | or | xor | imul

/-- The instructions. `L` are the labels, `F` the external functions. The
operands of `cmp8`, `mov8` and `movzx8` are the lowest bytes of registers;
`clear32 r` is `xor r, r` on the lower half, whatever `r` holds. -/
inductive Instr (L F : Type)
  | label (l : L)
  | push (r : Reg)
  | pop (r : Reg)
  | mov (dst : Reg) (src : Src)
  | movRsp (dst : Reg)
  | mov32 (dst : Reg) (n : BitVec 32)
  | mov8 (dst src : Reg)
  | movzx8 (dst src : Reg)
  | movzx (dst : Reg) (m : MemRef)
  | store (m : MemRef) (src : Reg)
  | store8 (m : MemRef) (n : BitVec 8)
  | store32 (m : MemRef) (n : BitVec 32)
  | lea (dst base index : Reg) (scale : Nat)
  | alu (op : Alu) (dst : Reg) (src : Src)
  | clear32 (r : Reg)
  | inc (dst : Reg)
  | not (dst : Reg)
  | shlImm (dst : Reg) (n : Nat)
  | shlCl (dst : Reg)
  | shrCl (dst : Reg)
  | cqo
  | idiv (src : Reg)
  | cmp (a : Reg) (b : Src)
  | cmp32 (a : Reg) (n : BitVec 32)
  | cmp8 (a : Reg) (n : BitVec 8)
  | cmpMem (m : MemRef) (n : BitVec 64)
  | cmpMem8 (m : MemRef) (n : BitVec 8)
  | test (a b : Reg)
  | sete (m : MemRef)
  | jmp (l : L)
  | jcc (c : Cond) (l : L)
  | call (l : L)
  | callExtern (f : F)
  | ret
  | addRsp (n : Nat)
  | subRsp (n : Nat)

/-- A slot of the stack: a value, a return address into the program, or the
return address of the caller. -/
inductive Slot (B L F : Type)
  | val (v : Val B)
  | ret (rest : List (Instr L F))
  | caller

/-- Why a run stops without returning. -/
inductive Trap
  /-- `#DE`: the quotient of `idiv` does not fit. -/
  | divide
  /-- An access outside an object. -/
  | access
  /-- An operand that is not defined, or not of the right kind. -/
  | undefined
  /-- A call with a misaligned stack. -/
  | misaligned
deriving DecidableEq, Repr

/-- The objects `B` in a memory `M`. The offset and the displacement of an
access name a field, the index a position in it. `call` is the effect of an
external function on the memory. -/
structure Memory (B M F : Type) where
  read : M → B → BitVec 64 → Nat → BitVec 64 → Option (Val B)
  read8 : M → B → BitVec 64 → Nat → BitVec 64 → Option (BitVec 8)
  write : M → B → BitVec 64 → Nat → BitVec 64 → BitVec 64 → Option M
  write8 : M → B → BitVec 64 → Nat → BitVec 64 → BitVec 8 → Option M
  write32 : M → B → BitVec 64 → Nat → BitVec 64 → BitVec 32 → Option M
  call : F → (Reg → Val B) → M → Option M

/-- A state of the machine. `code` are the instructions up to the next jump. -/
@[ext]
structure State (B L F M : Type) where
  code : List (Instr L F)
  regs : Reg → Val B
  flags : Option Flags
  stack : List (Slot B L F)
  mem : M

/-- How a run ends: it returns to its caller, or traps. -/
inductive End (B L F M : Type)
  | returned (s : State B L F M)
  | trapped (t : Trap)

variable {B L F M : Type}

/-! ## Operands -/

/-- The registers with `r` set to `v`. -/
def set (regs : Reg → Val B) (r : Reg) (v : Val B) : Reg → Val B :=
  fun r' => if r' = r then v else regs r'

/-- The number in a value. -/
def Val.toInt : Val B → Except Trap (BitVec 64)
  | .int v => .ok v
  | _ => .error .undefined

/-- The lowest byte of a value. -/
def Val.lowByte : Val B → Except Trap (BitVec 8)
  | .int v => .ok (v.setWidth 8)
  | .byte v => .ok v
  | _ => .error .undefined

/-- A value with its lowest byte replaced. -/
def Val.withLowByte : Val B → BitVec 8 → Val B
  | .int v, b => .int ((v >>> 8 <<< 8) ||| b.setWidth 64)
  | _, b => .byte b

/-- The object, offset and index of a memory operand. -/
def address (regs : Reg → Val B) (m : MemRef) : Except Trap (B × BitVec 64 × BitVec 64) :=
  match regs m.base with
  | .ptr object offset =>
    match m.index with
    | none => .ok (object, offset, 0)
    | some (r, scale) => (regs r).toInt.map fun i => (object, offset, i * BitVec.ofNat 64 scale)
  | _ => .error .undefined

/-- An access that is outside its object traps. -/
def orAccess {α : Type} : Option α → Except Trap α
  | some a => .ok a
  | none => .error .access

/-- The value of a 64-bit source operand. -/
def source (mem : Memory B M F) (s : State B L F M) : Src → Except Trap (Val B)
  | .reg r => .ok (s.regs r)
  | .imm n => .ok (.int (BitVec.ofInt 64 n))
  | .mem m => do
    let (object, offset, index) ← address s.regs m
    orAccess (mem.read s.mem object offset m.disp index)

/-- `cmp x y` -/
def cmpFlags {w : Nat} (x y : BitVec w) : Flags where
  zf := x = y
  cf := x < y
  sf := (x - y).msb

/-- `test x y` -/
def testFlags {w : Nat} (x y : BitVec w) : Flags where
  zf := x &&& y = 0
  cf := false
  sf := (x &&& y).msb

/-- Whether a conditional jump is taken. -/
def Cond.holds (c : Cond) (f : Flags) : Bool :=
  match c with
  | .e => f.zf
  | .ne => !f.zf
  | .a => !f.cf && !f.zf
  | .ae => !f.cf
  | .b => f.cf
  | .s => f.sf

/-- The result of an arithmetic instruction. A number can be added to a pointer. -/
def Alu.apply (op : Alu) (x y : Val B) : Except Trap (Val B) :=
  match op, x, y with
  | .add, .int a, .int b => .ok (.int (a + b))
  | .sub, .int a, .int b => .ok (.int (a - b))
  | .and, .int a, .int b => .ok (.int (a &&& b))
  | .or, .int a, .int b => .ok (.int (a ||| b))
  | .xor, .int a, .int b => .ok (.int (a ^^^ b))
  | .imul, .int a, .int b => .ok (.int (a * b))
  | .add, .ptr object a, .int b => .ok (.ptr object (a + b))
  | _, _, _ => .error .undefined

/-- `idiv y` on the dividend `high:low`: quotient and remainder, or `#DE` when
the divisor is zero or the quotient does not fit. -/
def idivide (high low y : BitVec 64) : Except Trap (BitVec 64 × BitVec 64) :=
  let dividend : Int := (high ++ low).toInt
  let quotient := dividend.tdiv y.toInt
  if y = 0 ∨ ¬ (-2 ^ 63 ≤ quotient ∧ quotient < 2 ^ 63) then .error .divide
  else .ok (BitVec.ofInt 64 quotient, BitVec.ofInt 64 (dividend.tmod y.toInt))

/-! ## The machine -/

/-- One instruction that does not change the flow of control. -/
def exec (mem : Memory B M F) (s : State B L F M) : Instr L F → Except Trap (State B L F M)
  | .push r => .ok { s with stack := .val (s.regs r) :: s.stack }
  | .pop r =>
    match s.stack with
    | .val v :: stack => .ok { s with regs := set s.regs r v, stack := stack }
    | _ => .error .undefined
  | .mov dst src => do
    let v ← source mem s src
    .ok { s with regs := set s.regs dst v }
  | .movRsp dst => .ok { s with regs := set s.regs dst (.stack s.stack.length) }
  | .mov32 dst n => .ok { s with regs := set s.regs dst (.int (n.setWidth 64)) }
  | .mov8 dst src => do
    let b ← (s.regs src).lowByte
    .ok { s with regs := set s.regs dst ((s.regs dst).withLowByte b) }
  | .movzx8 dst src => do
    let b ← (s.regs src).lowByte
    .ok { s with regs := set s.regs dst (.int (b.setWidth 64)) }
  | .movzx dst m => do
    let (object, offset, index) ← address s.regs m
    let b ← orAccess (mem.read8 s.mem object offset m.disp index)
    .ok { s with regs := set s.regs dst (.int (b.setWidth 64)) }
  | .store m src => do
    let (object, offset, index) ← address s.regs m
    let v ← (s.regs src).toInt
    let memory ← orAccess (mem.write s.mem object offset m.disp index v)
    .ok { s with mem := memory }
  | .store8 m n => do
    let (object, offset, index) ← address s.regs m
    let memory ← orAccess (mem.write8 s.mem object offset m.disp index n)
    .ok { s with mem := memory }
  | .store32 m n => do
    let (object, offset, index) ← address s.regs m
    let memory ← orAccess (mem.write32 s.mem object offset m.disp index n)
    .ok { s with mem := memory }
  | .lea dst base index scale => do
    let x ← (s.regs base).toInt
    let i ← (s.regs index).toInt
    .ok { s with regs := set s.regs dst (.int (x + i * BitVec.ofNat 64 scale)) }
  | .alu op dst src => do
    let y ← source mem s src
    let v ← op.apply (s.regs dst) y
    .ok { s with regs := set s.regs dst v, flags := none }
  | .clear32 r => .ok { s with regs := set s.regs r (.int 0), flags := none }
  | .inc dst => do
    let x ← (s.regs dst).toInt
    .ok { s with regs := set s.regs dst (.int (x + 1)), flags := none }
  | .not dst => do
    let x ← (s.regs dst).toInt
    .ok { s with regs := set s.regs dst (.int (~~~x)) }
  | .shlImm dst n => do
    let x ← (s.regs dst).toInt
    .ok { s with regs := set s.regs dst (.int (x <<< n)), flags := none }
  | .shlCl dst => do
    let x ← (s.regs dst).toInt
    let n ← (s.regs .rcx).lowByte
    .ok { s with regs := set s.regs dst (.int (x <<< (n.toNat % 64))), flags := none }
  | .shrCl dst => do
    let x ← (s.regs dst).toInt
    let n ← (s.regs .rcx).lowByte
    .ok { s with regs := set s.regs dst (.int (x >>> (n.toNat % 64))), flags := none }
  | .cqo => do
    let x ← (s.regs .rax).toInt
    .ok { s with regs := set s.regs .rdx (.int (x.sshiftRight 63)) }
  | .idiv src => do
    let high ← (s.regs .rdx).toInt
    let low ← (s.regs .rax).toInt
    let y ← (s.regs src).toInt
    let (quotient, remainder) ← idivide high low y
    .ok { s with
      regs := set (set s.regs .rax (.int quotient)) .rdx (.int remainder), flags := none }
  | .cmp a b => do
    let x ← (s.regs a).toInt
    let v ← source mem s b
    let y ← v.toInt
    .ok { s with flags := some (cmpFlags x y) }
  | .cmp32 a n => do
    let x ← (s.regs a).toInt
    .ok { s with flags := some (cmpFlags (x.setWidth 32) n) }
  | .cmp8 a n => do
    let x ← (s.regs a).lowByte
    .ok { s with flags := some (cmpFlags x n) }
  | .cmpMem m n => do
    let (object, offset, index) ← address s.regs m
    let v ← orAccess (mem.read s.mem object offset m.disp index)
    let x ← v.toInt
    .ok { s with flags := some (cmpFlags x n) }
  | .cmpMem8 m n => do
    let (object, offset, index) ← address s.regs m
    let x ← orAccess (mem.read8 s.mem object offset m.disp index)
    .ok { s with flags := some (cmpFlags x n) }
  | .test a b => do
    let x ← (s.regs a).toInt
    let y ← (s.regs b).toInt
    .ok { s with flags := some (testFlags x y) }
  | .sete m => do
    match s.flags with
    | none => .error .undefined
    | some f =>
      let (object, offset, index) ← address s.regs m
      let memory ← orAccess (mem.write8 s.mem object offset m.disp index (if f.zf then 1 else 0))
      .ok { s with mem := memory }
  | .callExtern f =>
    if s.stack.length % 2 ≠ 0 then .error .misaligned
    else do
      let memory ← orAccess (mem.call f s.regs s.mem)
      .ok { s with
        regs := fun r => if r ∈ callerSaved then .undef else s.regs r, flags := none, mem := memory }
  | .addRsp n =>
    if n % 8 = 0 ∧ n / 8 ≤ s.stack.length then
      .ok { s with stack := s.stack.drop (n / 8), flags := none }
    else .error .undefined
  | .subRsp n =>
    if n % 8 = 0 then
      .ok { s with stack := List.replicate (n / 8) (.val .undef) ++ s.stack, flags := none }
    else .error .undefined
  | .label _ | .jmp _ | .jcc _ _ | .call _ | .ret => .error .undefined

/-- One step: the next instruction of the program whose labels are `block`. -/
def step (mem : Memory B M F) (block : L → List (Instr L F)) (s : State B L F M) :
    Outcome (State B L F M) (End B L F M) :=
  match s.code with
  | [] => .done (.trapped .undefined)
  | .label l :: _ => .next { s with code := block l }
  | .jmp l :: _ => .next { s with code := [.label l] }
  | .jcc c l :: rest =>
    match s.flags with
    | none => .done (.trapped .undefined)
    | some f => .next { s with code := if c.holds f then [.label l] else rest }
  | .call l :: rest => .next { s with code := [.label l], stack := .ret rest :: s.stack }
  | .ret :: _ =>
    match s.stack with
    | .ret rest :: stack => .next { s with code := rest, stack := stack }
    | .caller :: stack => .done (.returned { s with code := [], stack := stack })
    | _ => .done (.trapped .undefined)
  | i :: rest =>
    match exec mem s i with
    | .ok s => .next { s with code := rest }
    | .error t => .done (.trapped t)

/-- Control is at the label `l`. -/
def AtLabel (l : L) (s : State B L F M) : Prop :=
  s.code.head? = some (.label l)

/-! ## Running to the next head -/

/-- `code` begins with a label. -/
def startsLabel : List (Instr L F) → Bool
  | .label _ :: _ => true
  | _ => false

theorem not_atLabel {head : L} {s : State B L F M} (h : startsLabel s.code = false) :
    ¬ AtLabel head s := by
  intro hl
  unfold AtLabel at hl
  cases hc : s.code with
  | nil => rw [hc] at hl; cases hl
  | cons i rest =>
    rw [hc] at hl h
    cases Option.some.inj hl
    cases h

theorem not_atLabel_of_ne {head l : L} {s : State B L F M} (h : s.code = [.label l])
    (hl : l ≠ head) : ¬ AtLabel head s := by
  intro ha
  unfold AtLabel at ha
  rw [h] at ha
  cases ha
  exact hl rfl

/-- From `s` control gets to the label `head` or to the end of the run, with an
outcome that satisfies `P`. -/
def Goes (mem : Memory B M F) (block : L → List (Instr L F)) (head : L)
    (P : Outcome (State B L F M) (End B L F M) → Prop) (s : State B L F M) : Prop :=
  ∃ o, Segment (step mem block) (AtLabel head) s o ∧ P o

namespace Goes
variable {mem : Memory B M F} {block : L → List (Instr L F)} {head l : L}
  {s t : State B L F M} {P : Outcome (State B L F M) (End B L F M) → Prop}

/-! ### Control flow -/

theorem cons (h : step mem block s = .next t) (hn : ¬ AtLabel head t)
    (ht : Goes mem block head P t) : Goes mem block head P s := by
  obtain ⟨o, hseg, hP⟩ := ht
  exact ⟨o, .cons h hn hseg, hP⟩

/-- A step to the instruction that follows. -/
theorem next (h : step mem block s = .next t) (hn : startsLabel t.code = false)
    (ht : Goes mem block head P t) : Goes mem block head P s :=
  cons h (not_atLabel hn) ht

/-- The last step of the run. -/
theorem done {r : End B L F M} (h : step mem block s = .done r) (hP : P (.done r)) :
    Goes mem block head P s :=
  ⟨_, .last h, hP⟩

/-- The step that arrives. -/
theorem arrive (h : step mem block s = .next t) (hP : P (.next t)) :
    Goes mem block head P s :=
  ⟨_, .last h, hP⟩

section Rules
variable {regs : Reg → Val B} {flags : Option Flags} {stack : List (Slot B L F)} {m : M}
  {rest : List (Instr L F)}

/-- Passing the label `l`. -/
theorem label (hb : startsLabel (block l) = false)
    (ht : Goes mem block head P ⟨block l, regs, flags, stack, m⟩) :
    Goes mem block head P ⟨.label l :: rest, regs, flags, stack, m⟩ :=
  next rfl hb ht

/-- A jump to another label than `head`. -/
theorem jmp (hl : l ≠ head) (ht : Goes mem block head P ⟨[.label l], regs, flags, stack, m⟩) :
    Goes mem block head P ⟨.jmp l :: rest, regs, flags, stack, m⟩ :=
  cons rfl (not_atLabel_of_ne rfl hl) ht

/-- A call of another label than `head`. -/
theorem call (hl : l ≠ head)
    (ht : Goes mem block head P ⟨[.label l], regs, flags, .ret rest :: stack, m⟩) :
    Goes mem block head P ⟨.call l :: rest, regs, flags, stack, m⟩ :=
  cons rfl (not_atLabel_of_ne rfl hl) ht

/-- A return from a call. -/
theorem ret {back : List (Instr L F)} (hb : startsLabel back = false)
    (ht : Goes mem block head P ⟨back, regs, flags, stack, m⟩) :
    Goes mem block head P ⟨.ret :: rest, regs, flags, .ret back :: stack, m⟩ :=
  next rfl hb ht

/-- A conditional jump to another label than `head`. -/
theorem jcc {c : Cond} {f : Flags} (hl : l ≠ head) (hr : startsLabel rest = false)
    (hyes : c.holds f = true → Goes mem block head P ⟨[.label l], regs, some f, stack, m⟩)
    (hno : c.holds f = false → Goes mem block head P ⟨rest, regs, some f, stack, m⟩) :
    Goes mem block head P ⟨.jcc c l :: rest, regs, some f, stack, m⟩ := by
  cases hc : c.holds f with
  | true =>
    refine cons (t := ⟨[.label l], regs, some f, stack, m⟩) ?_ (not_atLabel_of_ne rfl hl) (hyes hc)
    simp only [step, hc, if_true]
  | false =>
    refine next (t := ⟨rest, regs, some f, stack, m⟩) ?_ hr (hno hc)
    simp only [step, hc, Bool.false_eq_true, if_false]

/-- A conditional jump to `head`. -/
theorem jcc_head {c : Cond} {f : Flags} (hr : startsLabel rest = false)
    (hyes : c.holds f = true → P (.next ⟨[.label head], regs, some f, stack, m⟩))
    (hno : c.holds f = false → Goes mem block head P ⟨rest, regs, some f, stack, m⟩) :
    Goes mem block head P ⟨.jcc c head :: rest, regs, some f, stack, m⟩ := by
  cases hc : c.holds f with
  | true =>
    refine arrive (t := ⟨[.label head], regs, some f, stack, m⟩) ?_ (hyes hc)
    simp only [step, hc, if_true]
  | false =>
    refine next (t := ⟨rest, regs, some f, stack, m⟩) ?_ hr (hno hc)
    simp only [step, hc, Bool.false_eq_true, if_false]

/-! ### Operands -/

-- the equations of `exec` are made here, once, and not by all of the rules at the same time
attribute [local simp] exec

/-- An instruction that does not change the flow of control. -/
theorem exec_next {i : Instr L F} {regs' : Reg → Val B} {flags' : Option Flags}
    {stack' : List (Slot B L F)} {k : M}
    (hs : step mem block ⟨i :: rest, regs, flags, stack, m⟩ =
      match exec mem ⟨i :: rest, regs, flags, stack, m⟩ i with
      | .ok s => .next { s with code := rest }
      | .error e => .done (.trapped e))
    (he : exec mem ⟨i :: rest, regs, flags, stack, m⟩ i =
      .ok ⟨i :: rest, regs', flags', stack', k⟩) (hr : startsLabel rest = false)
    (ht : Goes mem block head P ⟨rest, regs', flags', stack', k⟩) :
    Goes mem block head P ⟨i :: rest, regs, flags, stack, m⟩ :=
  next (hs.trans (by rw [he])) hr ht

theorem mov {dst src : Reg} (hr : startsLabel rest = false)
    (ht : Goes mem block head P ⟨rest, set regs dst (regs src), flags, stack, m⟩) :
    Goes mem block head P ⟨.mov dst (.reg src) :: rest, regs, flags, stack, m⟩ :=
  exec_next rfl rfl hr ht

theorem alu_reg {op : Alu} {dst src : Reg} {w : Val B}
    (hw : op.apply (regs dst) (regs src) = .ok w) (hr : startsLabel rest = false)
    (ht : Goes mem block head P ⟨rest, set regs dst w, none, stack, m⟩) :
    Goes mem block head P ⟨.alu op dst (.reg src) :: rest, regs, flags, stack, m⟩ := by
  refine exec_next rfl ?_ hr ht
  simp only [exec, source, hw, bind, Except.bind]

theorem alu_imm {op : Alu} {dst : Reg} {n : Int} {w : Val B}
    (hw : op.apply (regs dst) (.int (BitVec.ofInt 64 n)) = .ok w) (hr : startsLabel rest = false)
    (ht : Goes mem block head P ⟨rest, set regs dst w, none, stack, m⟩) :
    Goes mem block head P ⟨.alu op dst (.imm n) :: rest, regs, flags, stack, m⟩ := by
  refine exec_next rfl ?_ hr ht
  simp only [exec, source, hw, bind, Except.bind]

theorem inc {dst : Reg} {x : BitVec 64} (hx : regs dst = .int x) (hr : startsLabel rest = false)
    (ht : Goes mem block head P ⟨rest, set regs dst (.int (x + 1)), none, stack, m⟩) :
    Goes mem block head P ⟨.inc dst :: rest, regs, flags, stack, m⟩ := by
  refine exec_next rfl ?_ hr ht
  simp only [exec, hx, bind, Except.bind, Val.toInt]

theorem not {dst : Reg} {x : BitVec 64} (hx : regs dst = .int x) (hr : startsLabel rest = false)
    (ht : Goes mem block head P ⟨rest, set regs dst (.int (~~~x)), flags, stack, m⟩) :
    Goes mem block head P ⟨.not dst :: rest, regs, flags, stack, m⟩ := by
  refine exec_next rfl ?_ hr ht
  simp only [exec, hx, bind, Except.bind, Val.toInt]

theorem shlImm {dst : Reg} {x : BitVec 64} {n : Nat} (hx : regs dst = .int x)
    (hr : startsLabel rest = false)
    (ht : Goes mem block head P ⟨rest, set regs dst (.int (x <<< n)), none, stack, m⟩) :
    Goes mem block head P ⟨.shlImm dst n :: rest, regs, flags, stack, m⟩ := by
  refine exec_next rfl ?_ hr ht
  simp only [exec, hx, bind, Except.bind, Val.toInt]

theorem lea {dst base index : Reg} {scale : Nat} {x i : BitVec 64} (hx : regs base = .int x)
    (hi : regs index = .int i) (hr : startsLabel rest = false)
    (ht : Goes mem block head P
      ⟨rest, set regs dst (.int (x + i * BitVec.ofNat 64 scale)), flags, stack, m⟩) :
    Goes mem block head P ⟨.lea dst base index scale :: rest, regs, flags, stack, m⟩ := by
  refine exec_next rfl ?_ hr ht
  simp only [exec, hx, hi, bind, Except.bind, Val.toInt]

theorem cqo {x : BitVec 64} (hx : regs .rax = .int x) (hr : startsLabel rest = false)
    (ht : Goes mem block head P
      ⟨rest, set regs .rdx (.int (x.sshiftRight 63)), flags, stack, m⟩) :
    Goes mem block head P ⟨.cqo :: rest, regs, flags, stack, m⟩ := by
  refine exec_next rfl ?_ hr ht
  simp only [exec, hx, bind, Except.bind, Val.toInt]

theorem subRsp (hr : startsLabel rest = false)
    (ht : Goes mem block head P ⟨rest, regs, none, .val .undef :: stack, m⟩) :
    Goes mem block head P ⟨.subRsp 8 :: rest, regs, flags, stack, m⟩ :=
  exec_next rfl rfl hr ht

theorem addRsp {slot : Slot B L F} (hr : startsLabel rest = false)
    (ht : Goes mem block head P ⟨rest, regs, none, stack, m⟩) :
    Goes mem block head P ⟨.addRsp 8 :: rest, regs, flags, slot :: stack, m⟩ := by
  have hroom : 8 % 8 = 0 ∧ 8 / 8 ≤ (slot :: stack).length :=
    ⟨rfl, Nat.succ_le_succ (Nat.zero_le _)⟩
  refine exec_next rfl ?_ hr ht
  simp only [exec, hroom, and_self, if_true]
  rfl

/-- A call of an external function leaves the registers it need not preserve undefined. -/
theorem callExtern {f : F} {k : M} (halign : stack.length % 2 = 0)
    (hf : mem.call f regs m = some k) (hr : startsLabel rest = false)
    (ht : Goes mem block head P
      ⟨rest, fun r => if r ∈ callerSaved then .undef else regs r, none, stack, k⟩) :
    Goes mem block head P ⟨.callExtern f :: rest, regs, flags, stack, m⟩ := by
  refine exec_next rfl ?_ hr ht
  simp only [exec, halign, ne_eq, not_true_eq_false, if_false, hf, bind, Except.bind, orAccess]

theorem test {a b : Reg} {x y : BitVec 64} (hx : regs a = .int x) (hy : regs b = .int y)
    (hr : startsLabel rest = false)
    (ht : Goes mem block head P ⟨rest, regs, some (testFlags x y), stack, m⟩) :
    Goes mem block head P ⟨.test a b :: rest, regs, flags, stack, m⟩ := by
  refine exec_next rfl ?_ hr ht
  simp only [exec, hx, hy, bind, Except.bind, Val.toInt]

theorem cmp_reg {a b : Reg} {x y : BitVec 64} (hx : regs a = .int x) (hy : regs b = .int y)
    (hr : startsLabel rest = false)
    (ht : Goes mem block head P ⟨rest, regs, some (cmpFlags x y), stack, m⟩) :
    Goes mem block head P ⟨.cmp a (.reg b) :: rest, regs, flags, stack, m⟩ := by
  refine exec_next rfl ?_ hr ht
  simp only [exec, source, hx, hy, bind, Except.bind, Val.toInt]

theorem cmp_imm {a : Reg} {x : BitVec 64} {n : Int} (hx : regs a = .int x)
    (hr : startsLabel rest = false)
    (ht : Goes mem block head P ⟨rest, regs, some (cmpFlags x (BitVec.ofInt 64 n)), stack, m⟩) :
    Goes mem block head P ⟨.cmp a (.imm n) :: rest, regs, flags, stack, m⟩ := by
  refine exec_next rfl ?_ hr ht
  simp only [exec, source, hx, bind, Except.bind, Val.toInt]

theorem cmp32 {a : Reg} {x : BitVec 64} {n : BitVec 32} (hx : regs a = .int x)
    (hr : startsLabel rest = false)
    (ht : Goes mem block head P ⟨rest, regs, some (cmpFlags (x.setWidth 32) n), stack, m⟩) :
    Goes mem block head P ⟨.cmp32 a n :: rest, regs, flags, stack, m⟩ := by
  refine exec_next rfl ?_ hr ht
  simp only [exec, hx, bind, Except.bind, Val.toInt]

theorem idiv {src : Reg} {high low y q r : BitVec 64} (hh : regs .rdx = .int high)
    (hl : regs .rax = .int low) (hy : regs src = .int y) (hq : idivide high low y = .ok (q, r))
    (hr : startsLabel rest = false)
    (ht : Goes mem block head P
      ⟨rest, set (set regs .rax (.int q)) .rdx (.int r), none, stack, m⟩) :
    Goes mem block head P ⟨.idiv src :: rest, regs, flags, stack, m⟩ := by
  refine exec_next rfl ?_ hr ht
  simp only [exec, hh, hl, hy, hq, bind, Except.bind, Val.toInt]

theorem mov8 {dst src : Reg} {b : BitVec 8} (hs : (regs src).lowByte = .ok b)
    (hr : startsLabel rest = false)
    (ht : Goes mem block head P
      ⟨rest, set regs dst ((regs dst).withLowByte b), flags, stack, m⟩) :
    Goes mem block head P ⟨.mov8 dst src :: rest, regs, flags, stack, m⟩ := by
  refine exec_next rfl ?_ hr ht
  simp only [exec, hs, bind, Except.bind]

theorem shlCl {dst : Reg} {x : BitVec 64} {n : BitVec 8} (hx : regs dst = .int x)
    (hn : (regs .rcx).lowByte = .ok n) (hr : startsLabel rest = false)
    (ht : Goes mem block head P
      ⟨rest, set regs dst (.int (x <<< (n.toNat % 64))), none, stack, m⟩) :
    Goes mem block head P ⟨.shlCl dst :: rest, regs, flags, stack, m⟩ := by
  refine exec_next rfl ?_ hr ht
  simp only [exec, hx, hn, bind, Except.bind, Val.toInt]

theorem shrCl {dst : Reg} {x : BitVec 64} {n : BitVec 8} (hx : regs dst = .int x)
    (hn : (regs .rcx).lowByte = .ok n) (hr : startsLabel rest = false)
    (ht : Goes mem block head P
      ⟨rest, set regs dst (.int (x >>> (n.toNat % 64))), none, stack, m⟩) :
    Goes mem block head P ⟨.shrCl dst :: rest, regs, flags, stack, m⟩ := by
  refine exec_next rfl ?_ hr ht
  simp only [exec, hx, hn, bind, Except.bind, Val.toInt]

/-- An `idiv` whose quotient does not fit ends the run. -/
theorem idiv_trap {src : Reg} {high low y : BitVec 64} {e : Trap} (hh : regs .rdx = .int high)
    (hl : regs .rax = .int low) (hy : regs src = .int y) (hq : idivide high low y = .error e)
    (hP : P (.done (.trapped e))) :
    Goes mem block head P ⟨.idiv src :: rest, regs, flags, stack, m⟩ := by
  refine done ?_ hP
  simp only [step, exec, hh, hl, hy, hq, bind, Except.bind, Val.toInt]

section Access
variable {ref : MemRef} {object : B} {offset index : BitVec 64}

theorem load {dst : Reg} {v : Val B} (ha : address regs ref = .ok (object, offset, index))
    (hv : mem.read m object offset ref.disp index = some v) (hr : startsLabel rest = false)
    (ht : Goes mem block head P ⟨rest, set regs dst v, flags, stack, m⟩) :
    Goes mem block head P ⟨.mov dst (.mem ref) :: rest, regs, flags, stack, m⟩ := by
  refine exec_next rfl ?_ hr ht
  simp only [exec, source, ha, hv, bind, Except.bind, orAccess]

theorem load8 {dst : Reg} {v : BitVec 8} (ha : address regs ref = .ok (object, offset, index))
    (hv : mem.read8 m object offset ref.disp index = some v) (hr : startsLabel rest = false)
    (ht : Goes mem block head P ⟨rest, set regs dst (.int (v.setWidth 64)), flags, stack, m⟩) :
    Goes mem block head P ⟨.movzx dst ref :: rest, regs, flags, stack, m⟩ := by
  refine exec_next rfl ?_ hr ht
  simp only [exec, ha, hv, bind, Except.bind, orAccess]

theorem store {src : Reg} {v : BitVec 64} {k : M}
    (ha : address regs ref = .ok (object, offset, index)) (hs : regs src = .int v)
    (hv : mem.write m object offset ref.disp index v = some k) (hr : startsLabel rest = false)
    (ht : Goes mem block head P ⟨rest, regs, flags, stack, k⟩) :
    Goes mem block head P ⟨.store ref src :: rest, regs, flags, stack, m⟩ := by
  refine exec_next rfl ?_ hr ht
  simp only [exec, ha, hs, hv, bind, Except.bind, orAccess, Val.toInt]

theorem store8 {n : BitVec 8} {k : M} (ha : address regs ref = .ok (object, offset, index))
    (hv : mem.write8 m object offset ref.disp index n = some k) (hr : startsLabel rest = false)
    (ht : Goes mem block head P ⟨rest, regs, flags, stack, k⟩) :
    Goes mem block head P ⟨.store8 ref n :: rest, regs, flags, stack, m⟩ := by
  refine exec_next rfl ?_ hr ht
  simp only [exec, ha, hv, bind, Except.bind, orAccess]

theorem store32 {n : BitVec 32} {k : M} (ha : address regs ref = .ok (object, offset, index))
    (hv : mem.write32 m object offset ref.disp index n = some k) (hr : startsLabel rest = false)
    (ht : Goes mem block head P ⟨rest, regs, flags, stack, k⟩) :
    Goes mem block head P ⟨.store32 ref n :: rest, regs, flags, stack, m⟩ := by
  refine exec_next rfl ?_ hr ht
  simp only [exec, ha, hv, bind, Except.bind, orAccess]

theorem sete {f : Flags} {k : M} (ha : address regs ref = .ok (object, offset, index))
    (hv : mem.write8 m object offset ref.disp index (if f.zf then 1 else 0) = some k)
    (hr : startsLabel rest = false)
    (ht : Goes mem block head P ⟨rest, regs, some f, stack, k⟩) :
    Goes mem block head P ⟨.sete ref :: rest, regs, some f, stack, m⟩ := by
  refine exec_next rfl ?_ hr ht
  simp only [exec, ha, hv, bind, Except.bind, orAccess]

theorem alu_mem {op : Alu} {dst : Reg} {v w : Val B}
    (ha : address regs ref = .ok (object, offset, index))
    (hv : mem.read m object offset ref.disp index = some v) (hw : op.apply (regs dst) v = .ok w)
    (hr : startsLabel rest = false)
    (ht : Goes mem block head P ⟨rest, set regs dst w, none, stack, m⟩) :
    Goes mem block head P ⟨.alu op dst (.mem ref) :: rest, regs, flags, stack, m⟩ := by
  refine exec_next rfl ?_ hr ht
  simp only [exec, source, ha, hv, hw, bind, Except.bind, orAccess]

theorem cmp_load {a : Reg} {x y : BitVec 64} (hx : regs a = .int x)
    (ha : address regs ref = .ok (object, offset, index))
    (hv : mem.read m object offset ref.disp index = some (.int y)) (hr : startsLabel rest = false)
    (ht : Goes mem block head P ⟨rest, regs, some (cmpFlags x y), stack, m⟩) :
    Goes mem block head P ⟨.cmp a (.mem ref) :: rest, regs, flags, stack, m⟩ := by
  refine exec_next rfl ?_ hr ht
  simp only [exec, source, hx, ha, hv, bind, Except.bind, orAccess, Val.toInt]

theorem cmp_mem {n x : BitVec 64} (ha : address regs ref = .ok (object, offset, index))
    (hv : mem.read m object offset ref.disp index = some (.int x)) (hr : startsLabel rest = false)
    (ht : Goes mem block head P ⟨rest, regs, some (cmpFlags x n), stack, m⟩) :
    Goes mem block head P ⟨.cmpMem ref n :: rest, regs, flags, stack, m⟩ := by
  refine exec_next rfl ?_ hr ht
  simp only [exec, ha, hv, bind, Except.bind, orAccess, Val.toInt]

theorem cmp_mem8 {n x : BitVec 8} (ha : address regs ref = .ok (object, offset, index))
    (hv : mem.read8 m object offset ref.disp index = some x) (hr : startsLabel rest = false)
    (ht : Goes mem block head P ⟨rest, regs, some (cmpFlags x n), stack, m⟩) :
    Goes mem block head P ⟨.cmpMem8 ref n :: rest, regs, flags, stack, m⟩ := by
  refine exec_next rfl ?_ hr ht
  simp only [exec, ha, hv, bind, Except.bind, orAccess]

end Access

end Rules

end Goes

/-! ## Values and conditions -/

/-- The lowest byte is known once it has been written, whatever was there. -/
theorem lowByte_withLowByte (v : Val B) (b : BitVec 8) : (v.withLowByte b).lowByte = .ok b := by
  cases v with
  | int v =>
    refine congrArg Except.ok (BitVec.eq_of_getLsbD_eq fun i hi => ?_)
    simp [hi]
  | _ => rfl

/-- `cqo` extends the sign of `rax`. -/
theorem toInt_cqo (x : BitVec 64) : (x.sshiftRight 63 ++ x).toInt = x.toInt := by
  have h : x.sshiftRight 63 ++ x = x.signExtend 128 := by
    apply BitVec.eq_of_getLsbD_eq
    intro i hi
    rw [BitVec.getLsbD_append, BitVec.getLsbD_signExtend, BitVec.getLsbD_sshiftRight]
    by_cases h64 : i < 64
    · simp [h64, hi]
    · have hmsb : ¬ 63 + (i - 64) < 64 ∨ 63 + (i - 64) = 63 := by omega
      have hx : ¬ 64 ≤ i - 64 := by omega
      rcases hmsb with h1 | h1
      · simp [h64, hi, h1, hx]
      · simp [h64, hi, h1, hx, BitVec.msb_eq_getLsbD_last]
  rw [h, BitVec.toInt_signExtend_of_le (by decide)]

/-- `cqo` and `idiv`: the division of two 64-bit numbers. -/
theorem idivide_cqo {x y : BitVec 64} (hy : y ≠ 0) :
    idivide (x.sshiftRight 63) x y =
      if -2 ^ 63 ≤ x.toInt.tdiv y.toInt ∧ x.toInt.tdiv y.toInt < 2 ^ 63 then
        .ok (BitVec.ofInt 64 (x.toInt.tdiv y.toInt), BitVec.ofInt 64 (x.toInt.tmod y.toInt))
      else .error .divide := by
  unfold idivide
  rw [toInt_cqo]
  by_cases h : -2 ^ 63 ≤ x.toInt.tdiv y.toInt ∧ x.toInt.tdiv y.toInt < 2 ^ 63
  · rw [if_pos h]
    exact if_neg (not_or.mpr ⟨hy, not_not_intro h⟩)
  · rw [if_neg h]
    exact if_pos (.inr h)

section Conditions
variable {w : Nat} {x y : BitVec w}

theorem holds_e : Cond.holds .e (cmpFlags x y) = decide (x = y) := rfl

theorem holds_ne : Cond.holds .ne (cmpFlags x y) = decide (x ≠ y) := by
  simp [Cond.holds, cmpFlags]

theorem holds_a : Cond.holds .a (cmpFlags x y) = decide (y < x) := by
  rw [Bool.eq_iff_iff]
  simp only [Cond.holds, cmpFlags, Bool.and_eq_true, Bool.not_eq_true', decide_eq_false_iff_not,
    decide_eq_true_eq]
  rw [BitVec.not_lt]
  constructor
  · rintro ⟨hle, hne⟩
    exact Nat.lt_of_le_of_ne hle fun e => hne (BitVec.eq_of_toNat_eq e.symm)
  · exact fun h => ⟨BitVec.le_of_lt h, fun e => absurd (e ▸ h) (BitVec.lt_irrefl _)⟩

theorem holds_ae : Cond.holds .ae (cmpFlags x y) = decide (y ≤ x) := by
  rw [Bool.eq_iff_iff]
  simp [Cond.holds, cmpFlags]

theorem holds_b : Cond.holds .b (cmpFlags x y) = decide (x < y) := rfl

theorem holds_test_e : Cond.holds .e (testFlags x x) = decide (x = 0) := by
  simp [Cond.holds, testFlags]

theorem holds_test_s {x : BitVec 64} :
    Cond.holds .s (testFlags x x) = decide (x.toInt < 0) := by
  simp [Cond.holds, testFlags, BitVec.msb_eq_toInt]

end Conditions

end X86
