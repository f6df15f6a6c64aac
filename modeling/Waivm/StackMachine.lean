import Waivm.ByteMemory
import Waivm.Isa

/-!
# The stack as a list

The stack of the machine lies in the memory that loads and stores reach: a program can overwrite a
return address, and its stack can run into its data. Most programs keep the two apart: the data is
below some address, the stack above it. `stackMemory` is the memory of such a program, bytes and a list
of values. It does not know what an access behind the data does, nor a push into the data.

Results:
1. `stackMemory_agrees`: the memory of the machine does what `stackMemory` says, where that says
   anything.
2. `engine_runs_stack_machine`: the engine runs every program as the machine with a list does, until
   that machine does not know. This is at an access behind the data or at a push into the data, and where
   addresses are constants, and the data is all that they name, at a push.
-/

namespace Waivm

open LittleEndian (Byte)
open LabelledCode (Move numberStep moveNumber enterNumber)
open X86 (Reg Val)
open Machine (Outcome LockStepUnless ReachesIn Ends)

namespace Isa

/-! ## 1. Memories that agree -/

/-- The second answer is the first one, up to `R`, or it is not known. -/
inductive Answers {α β : Type} (R : α → β → Prop) : Except Stop α → Except Stop β → Prop
  | ok {a : α} {b : β} : R a b → Answers R (.ok a) (.ok b)
  | error (why : Stop) : Answers R (.error why) (.error why)
  | unknown (x : Except Stop α) : Answers R x (.error .unknown)

/-- On related memories `mm` does what `mm'` says, where that says anything. -/
structure MemoryModel.Agrees {M M' : Type} (mm : MemoryModel M) (mm' : MemoryModel M')
    (R : M → M' → Prop) : Prop where
  load : ∀ {m m'}, R m m' → ∀ address, Answers (· = ·) (mm.load m address) (mm'.load m' address)
  store : ∀ {m m'}, R m m' → ∀ address value,
    Answers R (mm.store m address value) (mm'.store m' address value)
  push : ∀ {m m'}, R m m' → ∀ value, Answers R (mm.push m value) (mm'.push m' value)
  pop : ∀ {m m'}, R m m' → Answers (fun x y => x.1 = y.1 ∧ R x.2 y.2) (mm.pop m) (mm'.pop m')

/-- The same data, in related memories. -/
structure SameData {M M' : Type} (R : M → M' → Prop) (d : Data M) (d' : Data M') : Prop where
  regs : d.regs = d'.regs
  zf : d.zf = d'.zf
  memory : R d.memory d'.memory
  printed : d.printed = d'.printed

/-- The same end, in related memories. -/
inductive SameOutcome {M M' : Type} (R : M → M' → Prop) : Result M → Result M' → Prop
  | halted {d : Data M} {d' : Data M'} : SameData R d d' → SameOutcome R (.halted d) (.halted d')
  | stopped {why : Stop} {d : Data M} {d' : Data M'} :
      SameData R d d' → SameOutcome R (.stopped why d) (.stopped why d')

/-- The same move, in related memories. -/
inductive SameMove {M M' : Type} (R : M → M' → Prop) :
    Move (Data M) (Result M) → Move (Data M') (Result M') → Prop
  | forward {d : Data M} {d' : Data M'} : SameData R d d' → SameMove R (.forward d) (.forward d')
  | jump {d : Data M} {d' : Data M'} : SameData R d d' → SameMove R (.jump d) (.jump d')
  | resume {d : Data M} {d' : Data M'} (n : Nat) :
      SameData R d d' → SameMove R (.resume d n) (.resume d' n)
  | stop {r : Result M} {r' : Result M'} : SameOutcome R r r' → SameMove R (.stop r) (.stop r')

/-- The run came to an access that the memory does not know. -/
def GaveUp {M : Type} (r : Result M) : Prop :=
  ∃ d, r = .stopped .unknown d

section Agreement
variable {M M' : Type} {mm : MemoryModel M} {mm' : MemoryModel M'} {R : M → M' → Prop}
  {d : Data M} {d' : Data M'} {α β γ δ : Type}

theorem Answers.bind {S : α → β → Prop} {T : γ → δ → Prop} {x : Except Stop α} {y : Except Stop β}
    {f : α → Except Stop γ} {g : β → Except Stop δ} (h : Answers S x y)
    (hfg : ∀ a b, S a b → Answers T (f a) (g b)) : Answers T (x >>= f) (y >>= g) := by
  cases h with
  | ok hab => exact hfg _ _ hab
  | error why => exact .error why
  | unknown x => exact .unknown _

theorem Answers.same (x : Except Stop α) : Answers (· = ·) x x := by
  cases x with
  | ok a => exact .ok rfl
  | error why => exact .error why

theorem SameData.assign (h : SameData R d d') (a : Byte) (value : WaiValue) :
    SameData R (d.assign a value) (d'.assign a value) where
  regs := by
    unfold Data.assign
    rw [h.regs]
  zf := rfl
  memory := h.memory
  printed := h.printed

theorem SameData.withMemory (h : SameData R d d') {m : M} {m' : M'} (hm : R m m') :
    SameData R { d with memory := m } { d' with memory := m' } :=
  ⟨h.regs, h.zf, hm, h.printed⟩

theorem SameData.reg (h : SameData R d d') (r : Byte) : Answers (· = ·) (d.reg r) (d'.reg r) := by
  unfold Data.reg
  rw [h.regs]
  exact .same _

theorem SameData.source (h : SameData R d d') (source : Source) :
    Answers (· = ·) (d.source source) (d'.source source) := by
  cases source with
  | reg r => exact h.reg r
  | imm value => exact .ok rfl

theorem SameData.holds (h : SameData R d d') (condition : Condition) :
    Answers (· = ·) (d.holds condition) (d'.holds condition) := by
  have hreg : ∀ r, d.reg r = d'.reg r := fun r => by
    unfold Data.reg
    rw [h.regs]
  cases condition with
  | always => exact .ok rfl
  | zero a =>
    rw [Data.holds, Data.holds, hreg]
    exact .same _
  | nonzero a =>
    rw [Data.holds, Data.holds, hreg]
    exact .same _
  | equal => exact .ok h.zf
  | notEqual => exact .ok (congrArg not h.zf)

/-- Each operation makes the same move. -/
theorem run_answers (agrees : mm.Agrees mm' R) (h : SameData R d d') (next : Nat) (target : Bool)
    (op : Operation) : Answers (SameMove R) (op.run mm next target d) (op.run mm' next target d') := by
  cases op with
  | binary op a source =>
    refine (h.reg a).bind fun x _ hx => (h.source source).bind fun y _ hy => ?_
    subst hx hy
    refine (Answers.same (completed (op x y))).bind fun value _ hvalue => ?_
    subst hvalue
    exact .ok (.forward (h.assign a value))
  | compare a source =>
    refine (h.reg a).bind fun x _ hx => (h.source source).bind fun y _ hy => ?_
    subst hx hy
    exact .ok (.forward ⟨h.regs, rfl, h.memory, h.printed⟩)
  | load a address =>
    refine (h.reg a).bind fun _ _ _ => (h.source address).bind fun p _ hp => ?_
    subst hp
    refine (agrees.load h.memory p).bind fun value _ hvalue => ?_
    subst hvalue
    exact .ok (.forward (h.assign a value))
  | store address a =>
    refine (h.reg a).bind fun value _ hvalue => (h.source address).bind fun p _ hp => ?_
    subst hvalue hp
    exact (agrees.store h.memory p value).bind fun m m' hm => .ok (.forward (h.withMemory hm))
  | push a =>
    refine (h.reg a).bind fun value _ hvalue => ?_
    subst hvalue
    exact (agrees.push h.memory value).bind fun m m' hm => .ok (.forward (h.withMemory hm))
  | pop a =>
    refine (h.reg a).bind fun _ _ _ => (agrees.pop h.memory).bind ?_
    rintro ⟨value, m⟩ ⟨_, m'⟩ ⟨rfl, hm⟩
    exact .ok (.forward ((h.withMemory hm).assign a value))
  | print a =>
    refine (h.reg a).bind fun value _ hvalue => ?_
    subst hvalue
    exact .ok (.forward ⟨h.regs, h.zf, h.memory, congrArg (· ++ [value]) h.printed⟩)
  | jump condition =>
    refine (h.holds condition).bind fun taken _ htaken => ?_
    subst htaken
    cases taken with
    | false => exact .ok (.forward h)
    | true =>
      cases target with
      | false => exact .error _
      | true => exact .ok (.jump h)
  | call =>
    cases target with
    | false => exact .error _
    | true => exact (agrees.push h.memory _).bind fun m m' hm => .ok (.jump (h.withMemory hm))
  | ret =>
    refine (agrees.pop h.memory).bind ?_
    rintro ⟨value, m⟩ ⟨_, m'⟩ ⟨rfl, hm⟩
    exact .ok (.resume _ (h.withMemory hm))
  | nop => exact .ok (.forward h)
  | halt => exact .ok (.stop (.halted h))
  | invalid => exact .error _

/-- The same data, at the same instruction. -/
def SameConfig (R : M → M' → Prop) (c : Data M × Nat) (a : Data M' × Nat) : Prop :=
  SameData R c.1 a.1 ∧ c.2 = a.2

theorem enter_related (code : List (Operation × Option Nat)) (h : SameData R d d') (n : Nat) :
    Outcome.Related (SameConfig R) (SameOutcome R) (enterNumber (language mm) code d n)
      (enterNumber (language mm') code d' n) := by
  unfold enterNumber
  split
  · exact .next ⟨h, rfl⟩
  · exact .done (.stopped h)

theorem move_related (code : List (Operation × Option Nat)) (rest dest : Nat)
    {move : Move (Data M) (Result M)} {move' : Move (Data M') (Result M')} (h : SameMove R move move') :
    Outcome.Related (SameConfig R) (SameOutcome R) (moveNumber (language mm) code rest dest move)
      (moveNumber (language mm') code rest dest move') := by
  cases h with
  | forward h => exact .next ⟨h, rfl⟩
  | jump h => exact enter_related code h dest
  | resume n h => exact enter_related code h n
  | stop h => exact .done h

/-- Code runs alike over memories that agree, until the second one does not know. -/
theorem memories_lockStep (agrees : mm.Agrees mm' R) (code : List (Operation × Option Nat)) :
    LockStepUnless GaveUp (numberStep (language mm) code) (numberStep (language mm') code)
      (SameConfig R) (SameOutcome R) := by
  rintro ⟨d, n⟩ ⟨d', _⟩ ⟨h, rfl⟩
  unfold numberStep
  cases code[n]? with
  | none => exact .inr (.done (.stopped h))
  | some line =>
    obtain ⟨op, target⟩ := line
    have hrun := run_answers agrees h (n + 1) (target.getD code.length < code.length) op
    generalize hd : op.run mm (n + 1) (target.getD code.length < code.length) d = x at hrun
    generalize hd' : op.run mm' (n + 1) (target.getD code.length < code.length) d' = y at hrun
    simp only [language, hd, hd']
    cases hrun with
    | ok hmove => exact .inr (move_related code _ _ hmove)
    | error why => exact .inr (.done (.stopped h))
    | unknown => exact .inl ⟨_, rfl, d', rfl⟩

end Agreement

/-! ## 2. A list for a stack -/

/-- Data bytes, and the values on the stack, the last one first. -/
structure ListStack where
  bytes : VmMemory
  stack : List WaiValue

/-- An access to the data, which is below `heap`. -/
def InHeap (heap : Nat) (address : WaiValue) : Prop :=
  address.toNat + 8 ≤ heap

instance (heap : Nat) (address : WaiValue) : Decidable (InHeap heap address) :=
  inferInstanceAs (Decidable (_ ≤ _))

/-- A push into the data. -/
def PushHitsHeap (heap : Nat) (m : ListStack) : Prop :=
  waiMemorySize < heap + 8 * (m.stack.length + 1)

instance (heap : Nat) (m : ListStack) : Decidable (PushHitsHeap heap m) :=
  inferInstanceAs (Decidable (_ < _))

/-- Data below `heap`, and a stack apart from it. -/
def stackMemory (heap : Nat) : MemoryModel ListStack where
  load m address :=
    if ¬ ValidAddress address then .error (.error .errMemoryOob)
    else if InHeap heap address then .ok (readQword m.bytes address.toNat)
    else .error .unknown
  store m address value :=
    if ¬ ValidAddress address then .error (.error .errMemoryOob)
    else if InHeap heap address then .ok { m with bytes := writeQword m.bytes address.toNat value }
    else .error .unknown
  push m value :=
    if stackCapacity ≤ m.stack.length then .error (.error .errStackOverflow)
    else if PushHitsHeap heap m then .error .unknown
    else .ok { m with stack := value :: m.stack }
  pop m :=
    match m.stack with
    | [] => .error (.error .errStackUnderflow)
    | value :: rest => .ok (value, { m with stack := rest })

/-- The values of `stack` lie in the memory from `p` on. -/
def Holds (bytes : VmMemory) : Nat → List WaiValue → Prop
  | _, [] => True
  | p, value :: rest => readQword bytes p = value ∧ Holds bytes (p + 8) rest

/-- The memory has the data below `heap`, and behind it the stack, up to the end. -/
structure OnStack (heap : Nat) (m : ByteStack) (s : ListStack) : Prop where
  depth : m.sp.toNat + 8 * s.stack.length = waiMemorySize
  above : s.stack ≠ [] → heap ≤ m.sp.toNat
  heap : ∀ i : Fin waiMemorySize, i.val < heap → m.bytes i = s.bytes i
  stack : Holds m.bytes m.sp.toNat s.stack

section Lists
variable {heap p q : Nat} {bytes : VmMemory} {stack : List WaiValue} {m : ByteStack} {s : ListStack}
  {address value : WaiValue}

/-- A store below a stack does not change it. -/
theorem Holds.store (h : Holds bytes p stack) (hq : q ≤ maxAddress) (hle : q + 8 ≤ p) :
    Holds (writeQword bytes q value) p stack := by
  induction stack generalizing p with
  | nil => trivial
  | cons top rest ih =>
    refine ⟨?_, ih h.2 (by omega)⟩
    rw [readQword_writeQword_of_disjoint _ _ hq (.inl hle)]
    exact h.1

theorem readQword_heap (h : OnStack heap m s) (hp : p + 8 ≤ heap) :
    readQword m.bytes p = readQword s.bytes p := by
  refine LittleEndian.join_congr fun i hi => ?_
  unfold byteD
  split
  · exact h.heap _ (show p + i < heap by omega)
  · rfl

theorem writeQword_heap (h : OnStack heap m s) (p : Nat) (value : WaiValue)
    (i : Fin waiMemorySize) (hi : i.val < heap) :
    writeQword m.bytes p value i = writeQword s.bytes p value i := by
  unfold writeQword writeBytes
  split
  · rfl
  · exact h.heap i hi

theorem OnStack.full_iff (h : OnStack heap m s) :
    stackCapacity ≤ s.stack.length ↔ m.sp.toNat < 8 := by
  have hdepth := h.depth
  have hcapacity : stackCapacity = 8192 := rfl
  have hsize : waiMemorySize = 65536 := rfl
  omega

theorem OnStack.stored (h : OnStack heap m s) (hvalid : ValidAddress address)
    (hin : InHeap heap address) (value : WaiValue) :
    OnStack heap { m with bytes := writeQword m.bytes address.toNat value }
      { s with bytes := writeQword s.bytes address.toNat value } := by
  refine ⟨h.depth, h.above, writeQword_heap h _ _, ?_⟩
  obtain ⟨bytes, stack⟩ := s
  cases stack with
  | nil => trivial
  | cons top rest =>
    have habove := h.above (List.cons_ne_nil _ _)
    exact h.stack.store ((validAddress_iff _).mp hvalid) (Nat.le_trans hin habove)

/-- A push goes below the stack, and above the data. -/
theorem OnStack.pushed (h : OnStack heap m s) (hroom : 8 ≤ m.sp.toNat) (hapart : ¬ PushHitsHeap heap s)
    (value : WaiValue) :
    OnStack heap { bytes := writeQword m.bytes (m.sp - 8).toNat value, sp := m.sp - 8 }
      { s with stack := value :: s.stack } := by
  have hdepth := h.depth
  have hsize : waiMemorySize = 65536 := rfl
  have hmax : maxAddress = 65528 := rfl
  have hsp : (m.sp - 8).toNat = m.sp.toNat - 8 := by
    rw [BitVec.toNat_sub, show (8 : BitVec 64).toNat = 8 from rfl]
    omega
  have habove : heap ≤ m.sp.toNat - 8 := by
    unfold PushHitsHeap at hapart
    omega
  have hbelow : m.sp.toNat - 8 ≤ maxAddress := by omega
  rw [hsp]
  refine ⟨?_, fun _ => hsp ▸ habove, fun i hi => ?_, ?_⟩
  · show (m.sp - 8).toNat + 8 * (s.stack.length + 1) = waiMemorySize
    omega
  · show writeQword m.bytes (m.sp.toNat - 8) value i = s.bytes i
    rw [writeQword_frame _ _ (.inl (by omega))]
    exact h.heap i hi
  · show Holds (writeQword m.bytes (m.sp.toNat - 8) value) (m.sp - 8).toNat (value :: s.stack)
    rw [hsp]
    refine ⟨readQword_writeQword _ _ hbelow, ?_⟩
    rw [show m.sp.toNat - 8 + 8 = m.sp.toNat by omega]
    exact h.stack.store hbelow (by omega)

theorem OnStack.popped {rest : List WaiValue} (h : OnStack heap m { s with stack := value :: rest }) :
    m.sp.toNat ≤ maxAddress ∧ readQword m.bytes m.sp.toNat = value ∧
      OnStack heap { m with sp := m.sp + 8 } { s with stack := rest } := by
  have hdepth : m.sp.toNat + 8 * (rest.length + 1) = waiMemorySize := h.depth
  have hsize : waiMemorySize = 65536 := rfl
  have hmax : maxAddress = 65528 := rfl
  have hsp : (m.sp + 8).toNat = m.sp.toNat + 8 := by
    rw [BitVec.toNat_add, show (8 : BitVec 64).toNat = 8 from rfl]
    omega
  refine ⟨by omega, h.stack.1, ?_, fun _ => ?_, h.heap, ?_⟩
  · show (m.sp + 8).toNat + 8 * rest.length = waiMemorySize
    omega
  · have habove := h.above (List.cons_ne_nil _ _)
    show heap ≤ (m.sp + 8).toNat
    omega
  · show Holds m.bytes (m.sp + 8).toNat rest
    rw [hsp]
    exact h.stack.2

/-- The memory of the machine does what `stackMemory` says, where that says anything. -/
theorem stackMemory_agrees (heap : Nat) : machineMemory.Agrees (stackMemory heap) (OnStack heap) where
  load := by
    intro m s h address
    unfold machineMemory stackMemory
    by_cases hvalid : ValidAddress address
    · simp only [if_pos hvalid, if_neg (not_not_intro hvalid)]
      by_cases hin : InHeap heap address
      · rw [if_pos hin]
        exact .ok (readQword_heap h hin)
      · rw [if_neg hin]
        exact .unknown _
    · simp only [if_neg hvalid, if_pos hvalid]
      exact .error _
  store := by
    intro m s h address value
    unfold machineMemory stackMemory
    by_cases hvalid : ValidAddress address
    · simp only [if_pos hvalid, if_neg (not_not_intro hvalid)]
      by_cases hin : InHeap heap address
      · rw [if_pos hin]
        exact .ok (h.stored hvalid hin value)
      · rw [if_neg hin]
        exact .unknown _
    · simp only [if_neg hvalid, if_pos hvalid]
      exact .error _
  push := by
    intro m s h value
    unfold machineMemory stackMemory
    by_cases hfull : m.sp.toNat < 8
    · simp only [if_pos hfull, if_pos (h.full_iff.mpr hfull)]
      exact .error _
    · simp only [if_neg hfull, if_neg (mt h.full_iff.mp hfull)]
      by_cases hhits : PushHitsHeap heap s
      · rw [if_pos hhits]
        exact .unknown _
      · rw [if_neg hhits]
        exact .ok (h.pushed (Nat.not_lt.mp hfull) hhits value)
  pop := by
    intro m s h
    obtain ⟨bytes, stack⟩ := s
    unfold machineMemory stackMemory
    cases stack with
    | nil =>
      have hempty : maxAddress < m.sp.toNat := (show m.sp.toNat = waiMemorySize from h.depth) ▸ by decide
      simp only [if_pos hempty]
      exact .error _
    | cons top rest =>
      obtain ⟨hsome, htop, hrest⟩ := @OnStack.popped _ _ ⟨bytes, []⟩ _ _ h
      simp only [if_neg (Nat.not_lt.mpr hsome)]
      exact .ok ⟨htop, hrest⟩

/-- Both memories are empty at the start. -/
theorem onStack_start (heap : Nat) :
    OnStack heap ⟨fun _ => 0, waiStackStart⟩ ⟨fun _ => 0, []⟩ :=
  ⟨rfl, fun h => absurd rfl h, fun _ _ => rfl, trivial⟩

end Lists

end Isa

open Isa

/-! ## 3. Constant addresses -/

/-- An operation whose address, if it has one, is a constant, and refused or that of data. -/
def ConstantAddress (heap : Nat) : Operation → Prop
  | .load _ (.reg _) | .store (.reg _) _ => False
  | .load _ (.imm address) | .store (.imm address) _ => ValidAddress address → InHeap heap address
  | _ => True

/-- An operation whose address, if it has one, is not in a register. -/
def NamesAddress : Operation → Prop
  | .load _ (.reg _) | .store (.reg _) _ => False
  | _ => True

/-- Where the data ends that an operation names. -/
def dataEnd : Operation → Nat
  | .load _ (.imm address) | .store (.imm address) _ =>
    if ValidAddress address then address.toNat + 8 else 0
  | _ => 0

/-- A push into the data, by a stack that is not full. -/
def StackMeetsHeap (heap : Nat) (m : ListStack) : Prop :=
  m.stack.length < stackCapacity ∧ PushHitsHeap heap m

/-- What the machine with a list does not know: an access at a valid address behind the data, and a push
into the data. -/
def GivesUp (heap : Nat) (d : Data ListStack) : Operation → Prop
  | .load _ source | .store source _ =>
    ∃ address, d.source source = .ok address ∧ ValidAddress address ∧ ¬ InHeap heap address
  | .push _ | .call => StackMeetsHeap heap d.memory
  | _ => False

section Constant
variable {heap : Nat} {op : Operation} {m : ListStack} {d d' : Data ListStack}
  {address value : WaiValue} {α : Type}

theorem constantAddress_of_named (hnames : NamesAddress op) (hheap : dataEnd op ≤ heap) :
    ConstantAddress heap op := by
  cases op with
  | load a source | store source a =>
    cases source with
    | reg r => exact absurd hnames id
    | imm address =>
      intro hvalid
      change (if ValidAddress address then address.toNat + 8 else 0) ≤ heap at hheap
      rwa [if_pos hvalid] at hheap
  | _ => trivial

theorem unknown_bind {x : Except Stop α} {f : α → Except Stop (Move (Data ListStack) (Result ListStack))}
    (h : moveOf d (x >>= f) = .stop (.stopped .unknown d')) :
    (x = .error .unknown ∧ d = d') ∨
      ∃ a, x = .ok a ∧ moveOf d (f a) = .stop (.stopped .unknown d') := by
  cases x with
  | ok a => exact .inr ⟨a, rfl, h⟩
  | error why =>
    cases h
    exact .inl ⟨rfl, rfl⟩

theorem reg_known (r : Byte) : d.reg r ≠ .error .unknown := by
  unfold Data.reg
  split <;> exact nofun

theorem source_known (source : Source) : d.source source ≠ .error .unknown := by
  cases source with
  | reg r => exact reg_known r
  | imm value => exact nofun

theorem holds_known (condition : Condition) : d.holds condition ≠ .error .unknown := by
  have hreg : ∀ a (f : WaiValue → Bool), (d.reg a).map f ≠ .error .unknown := by
    intro a f
    have hknown := @reg_known d a
    cases hr : d.reg a with
    | ok value => exact nofun
    | error why =>
      rw [hr] at hknown
      rintro ⟨⟩
      exact hknown rfl
  cases condition with
  | always | equal | notEqual => exact nofun
  | zero a | nonzero a => exact hreg a _

theorem completed_known (result : Except Fault (Except WaiErrorCode WaiValue)) :
    completed result ≠ .error .unknown := by
  rcases result with f | (status | value) <;> exact nofun

/-- Loads and stores are refused, or done in the data, or not known. -/
theorem access_unknown {x : α} (h : (if ¬ ValidAddress address then .error (.error .errMemoryOob)
    else if InHeap heap address then .ok x else .error .unknown : Except Stop α) = .error .unknown) :
    ValidAddress address ∧ ¬ InHeap heap address := by
  by_cases hvalid : ValidAddress address
  · by_cases hin : InHeap heap address
    · rw [if_neg (not_not_intro hvalid), if_pos hin] at h
      cases h
    · exact ⟨hvalid, hin⟩
  · rw [if_pos hvalid] at h
    cases h

theorem push_unknown (h : (stackMemory heap).push m value = .error .unknown) :
    StackMeetsHeap heap m := by
  unfold stackMemory at h
  by_cases hfull : stackCapacity ≤ m.stack.length
  · simp only [if_pos hfull] at h
    cases h
  · by_cases hhits : PushHitsHeap heap m
    · exact ⟨Nat.not_le.mp hfull, hhits⟩
    · simp only [if_neg hfull, if_neg hhits] at h
      cases h

theorem pop_known : (stackMemory heap).pop m ≠ .error .unknown := by
  obtain ⟨bytes, stack⟩ := m
  cases stack <;> exact nofun

theorem run_unknown {next : Nat} {target : Bool}
    (h : moveOf d (op.run (stackMemory heap) next target d) = .stop (.stopped .unknown d')) :
    d = d' ∧ GivesUp heap d op := by
  cases op with
  | binary op a source =>
    obtain ⟨hx, _⟩ | ⟨x, _, h⟩ := unknown_bind h
    · exact absurd hx (reg_known a)
    obtain ⟨hy, _⟩ | ⟨y, _, h⟩ := unknown_bind h
    · exact absurd hy (source_known source)
    obtain ⟨hvalue, _⟩ | ⟨value, _, h⟩ := unknown_bind h
    · exact absurd hvalue (completed_known _)
    · cases h
  | compare a source =>
    obtain ⟨hx, _⟩ | ⟨x, _, h⟩ := unknown_bind h
    · exact absurd hx (reg_known a)
    obtain ⟨hy, _⟩ | ⟨y, _, h⟩ := unknown_bind h
    · exact absurd hy (source_known source)
    · cases h
  | load a source =>
    obtain ⟨ha, _⟩ | ⟨_, _, h⟩ := unknown_bind h
    · exact absurd ha (reg_known a)
    obtain ⟨hp, _⟩ | ⟨address, hp, h⟩ := unknown_bind h
    · exact absurd hp (source_known source)
    obtain ⟨hload, rfl⟩ | ⟨value, _, h⟩ := unknown_bind h
    · exact ⟨rfl, address, hp, access_unknown hload⟩
    · cases h
  | store source a =>
    obtain ⟨ha, _⟩ | ⟨value, _, h⟩ := unknown_bind h
    · exact absurd ha (reg_known a)
    obtain ⟨hp, _⟩ | ⟨address, hp, h⟩ := unknown_bind h
    · exact absurd hp (source_known source)
    obtain ⟨hstore, rfl⟩ | ⟨m, _, h⟩ := unknown_bind h
    · exact ⟨rfl, address, hp, access_unknown hstore⟩
    · cases h
  | push a =>
    obtain ⟨ha, _⟩ | ⟨value, _, h⟩ := unknown_bind h
    · exact absurd ha (reg_known a)
    obtain ⟨hpush, rfl⟩ | ⟨m, _, h⟩ := unknown_bind h
    · exact ⟨rfl, push_unknown hpush⟩
    · cases h
  | pop a =>
    obtain ⟨ha, _⟩ | ⟨_, _, h⟩ := unknown_bind h
    · exact absurd ha (reg_known a)
    obtain ⟨hpop, _⟩ | ⟨_, _, h⟩ := unknown_bind h
    · exact absurd hpop pop_known
    · cases h
  | print a =>
    obtain ⟨ha, _⟩ | ⟨value, _, h⟩ := unknown_bind h
    · exact absurd ha (reg_known a)
    · cases h
  | jump condition =>
    obtain ⟨hc, _⟩ | ⟨taken, _, h⟩ := unknown_bind h
    · exact absurd hc (holds_known condition)
    · cases taken <;> cases target <;> cases h
  | call =>
    cases target with
    | false => cases h
    | true =>
      obtain ⟨hpush, rfl⟩ | ⟨m, _, h⟩ := unknown_bind h
      · exact ⟨rfl, push_unknown hpush⟩
      · cases h
  | ret =>
    obtain ⟨hpop, _⟩ | ⟨_, _, h⟩ := unknown_bind h
    · exact absurd hpop pop_known
    · cases h
  | nop | halt | invalid => cases h

/-- With constant addresses, only a push is not known. -/
theorem stackMeetsHeap_of_givesUp (hconstant : ConstantAddress heap op) (h : GivesUp heap d op) :
    StackMeetsHeap heap d.memory := by
  cases op with
  | load a source | store source a =>
    cases source with
    | reg r => exact absurd hconstant id
    | imm address =>
      obtain ⟨_, ⟨⟩, hvalid, hout⟩ := h
      exact absurd (hconstant hvalid) hout
  | push | call => exact h
  | _ => exact absurd h id

/-- The machine itself gives up nowhere. -/
theorem enter_known (code : List (Operation × Option Nat)) (n : Nat) :
    enterNumber (language (stackMemory heap)) code d n ≠ .done (.stopped .unknown d') := by
  unfold enterNumber
  split <;> exact nofun

theorem move_unknown {code : List (Operation × Option Nat)} {rest dest : Nat}
    {move : Move (Data ListStack) (Result ListStack)}
    (h : moveNumber (language (stackMemory heap)) code rest dest move = .done (.stopped .unknown d')) :
    move = .stop (.stopped .unknown d') := by
  cases move with
  | forward d => cases h
  | jump d => exact absurd h (enter_known code dest)
  | resume d n => exact absurd h (enter_known code n)
  | stop r =>
    cases h
    rfl

end Constant

/-! ## 4. The engine -/

/-- One instruction of a program, on a list for a stack. -/
def stackStep (heap : Nat) (program : OwnedProgram) :
    Data ListStack × Nat → Outcome (Data ListStack × Nat) (Result ListStack) :=
  numberStep (language (stackMemory heap)) (program.instructions.map numbered)

/-- An empty machine at the first instruction. -/
def stackStart : Data ListStack × Nat :=
  (.zero ⟨fun _ => 0, []⟩, 0)

/-- The engine has ended as the machine with a list did. -/
def ShowsOnStack (heap : Nat) (e : AsmEnd) (r : Result ListStack) : Prop :=
  ∃ r', ShowsResult e r' ∧ SameOutcome (OnStack heap) r' r

/-- Each address in the program is a constant, and refused or that of data. -/
def ConstantAddresses (heap : Nat) (program : OwnedProgram) : Prop :=
  ∀ ins ∈ program.instructions, ConstantAddress heap (decode ins)

/-- No address of the program is in a register. -/
def NamesAddresses (program : OwnedProgram) : Prop :=
  ∀ ins ∈ program.instructions, NamesAddress (decode ins)

/-- Where the data ends that the program names. -/
def programDataEnd (program : OwnedProgram) : Nat :=
  (program.instructions.map fun ins => dataEnd (decode ins)).max?.getD 0

/-- The engine runs the program as the machine with a list does, until that gives up. This is at an
instruction that it does not know. With constant addresses, and all that they name in the data, it is one
where the stack meets the data, and without data there is none. -/
structure RunsOnStack (heap : Nat) (program : OwnedProgram) : Prop where
  executed : ∀ regs n d ip, ReachesIn (stackStep heap program) n stackStart (d, ip) →
    ∃ vm, Executed regs program.initialVm n vm ∧ SameData (OnStack heap) vm.data d
  ends : ∀ regs r, Ends (stackStep heap program) stackStart r → ¬ GaveUp r →
    ∃ e, ShowsOnStack heap e r ∧ Ends asmStep (asmEntry regs program.initialVm) e
  ended : ∀ regs e, Ends asmStep (asmEntry regs program.initialVm) e →
    ∃ r, Ends (stackStep heap program) stackStart r ∧ (GaveUp r ∨ ShowsOnStack heap e r)
  gives_up : ∀ d, Ends (stackStep heap program) stackStart (.stopped .unknown d) →
    ∃ n ip ins, ReachesIn (stackStep heap program) n stackStart (d, ip) ∧
      program.instructions[ip]? = some ins ∧ GivesUp heap d (decode ins)
  known : ConstantAddresses heap program → ∀ d,
    Ends (stackStep heap program) stackStart (.stopped .unknown d) → StackMeetsHeap heap d.memory
  named : NamesAddresses program → programDataEnd program ≤ heap → ∀ d,
    Ends (stackStep heap program) stackStart (.stopped .unknown d) → StackMeetsHeap heap d.memory
  without_data : NamesAddresses program → programDataEnd program = 0 → heap = 0 → ∀ r,
    Ends (stackStep heap program) stackStart r → ¬ GaveUp r

theorem constantAddresses_of_named {heap : Nat} {program : OwnedProgram}
    (hnames : NamesAddresses program) (hheap : programDataEnd program ≤ heap) :
    ConstantAddresses heap program := by
  intro ins hins
  have hend : dataEnd (decode ins) ≤ programDataEnd program :=
    List.le_max?_getD_of_mem (List.mem_map_of_mem hins)
  exact constantAddress_of_named (hnames ins hins) (Nat.le_trans hend hheap)

theorem not_stackMeetsHeap_zero (m : ListStack) : ¬ StackMeetsHeap 0 m := by
  rintro ⟨hroom, hhits⟩
  have hcapacity : stackCapacity = 8192 := rfl
  have hsize : waiMemorySize = 65536 := rfl
  unfold PushHitsHeap at hhits
  omega

/-- The machine with a list gives up in the state of an instruction that it does not know. -/
theorem givesUp_of_unknown {heap : Nat} {program : OwnedProgram} {d : Data ListStack}
    (h : Ends (stackStep heap program) stackStart (.stopped .unknown d)) :
    ∃ n ip ins, ReachesIn (stackStep heap program) n stackStart (d, ip) ∧
      program.instructions[ip]? = some ins ∧ GivesUp heap d (decode ins) := by
  obtain ⟨n, h⟩ := h
  obtain ⟨k, ⟨d', ip⟩, _, hreach, hlast⟩ := Machine.endsIn_cases h
  unfold stackStep numberStep at hlast
  rw [List.getElem?_map] at hlast
  cases hget : program.instructions[ip]? with
  | none =>
    rw [hget] at hlast
    cases hlast
  | some ins =>
    rw [hget] at hlast
    obtain ⟨rfl, hgives⟩ := run_unknown (move_unknown hlast)
    exact ⟨k, ip, ins, hreach, hget, hgives⟩

theorem stackMeetsHeap_of_unknown {heap : Nat} {program : OwnedProgram}
    (hconstant : ConstantAddresses heap program) {d : Data ListStack}
    (h : Ends (stackStep heap program) stackStart (.stopped .unknown d)) :
    StackMeetsHeap heap d.memory := by
  obtain ⟨_, _, ins, _, hget, hgives⟩ := givesUp_of_unknown h
  exact stackMeetsHeap_of_givesUp (hconstant ins (List.mem_of_getElem? hget)) hgives

theorem engine_runs_stack_machine (heap : Nat) (program : OwnedProgram) :
    RunsOnStack heap program := by
  have hruns : RunsAs program _ _ Prod.fst :=
    runsAs_of_lockStep (isa_lockStep program.length_le) (sameRun_start program)
      fun vm a h => congrArg Prod.fst h.1
  have hstep := memories_lockStep (stackMemory_agrees heap) (program.instructions.map numbered)
  have hstart : SameConfig (OnStack heap) (.zero ⟨fun _ => 0, waiStackStart⟩, 0) stackStart :=
    ⟨⟨rfl, rfl, onStack_start heap, rfl⟩, rfl⟩
  constructor
  · intro regs n d ip h
    obtain ⟨c, hc, hreach⟩ := hstep.reachesIn hstart h
    obtain ⟨vm, hvm, hdata⟩ := (hruns.executed regs n c.1).mpr ⟨c, hreach, rfl⟩
    exact ⟨vm, hvm, hdata ▸ hc.1⟩
  · intro regs r hr hknown
    obtain ⟨r', hsame, hr'⟩ := hstep.ends hstart hr hknown
    obtain ⟨e, hshows, he⟩ := hruns.ends regs r' hr'
    exact ⟨e, ⟨r', hshows, hsame⟩, he⟩
  · intro regs e he
    obtain ⟨r', hshows, hr'⟩ := hruns.ended regs e he
    obtain ⟨r, hr, hsame⟩ := hstep.ends_reflect hstart hr'
    exact ⟨r, hr, hsame.imp_right fun hsame => ⟨r', hshows, hsame⟩⟩
  · exact fun d h => givesUp_of_unknown h
  · exact fun hconstant d h => stackMeetsHeap_of_unknown hconstant h
  · intro hnames hheap d h
    exact stackMeetsHeap_of_unknown (constantAddresses_of_named hnames hheap) h
  · rintro hnames hend rfl r h ⟨d, rfl⟩
    have hconstant : ConstantAddresses 0 program := constantAddresses_of_named hnames hend.le
    exact not_stackMeetsHeap_zero _ (stackMeetsHeap_of_unknown hconstant h)

end Waivm
