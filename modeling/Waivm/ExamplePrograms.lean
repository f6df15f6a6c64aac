import Mathlib.Data.Nat.Fib.Basic
import Mathlib.Data.Nat.Factorial.Basic
import Waivm.DisassemblyLines
import Waivm.ProgramLogic

/-!
# The example programs (`examples/*.wai`)

The examples with a loop begin with a `mov r0` of the number that they start with. Here this is any
64-bit value, and the rest of the text is that of the file.

Results:
1. `source_program`: what the assembler makes of an example.
2. `factorial_prints`, `sum_prints`: `factorial.wai` and `sum.wai`.
3. `fib_prints`: `fib.wai`.
4. `loop_prints`: `loop.wai`.
5. `modulo_prints`: `modulo.wai`.
-/

namespace Waivm

open CString Printf Isa
open LittleEndian (Byte)
open LabelledCode (numberStep At)
open Machine (Outcome LeadsTo leadsTo_of_imp leadsTo_loop)

/-! ## 1. The sources -/

/-- The line that gives `r0` its first value. -/
def startLine (start : WaiValue) (remark : Text) : Text :=
  operation ['m', 'o', 'v'] [['r', '0'], signed start.toInt] ++ remark

/-- An example: its first line, what stands behind the number that it starts with, and the lines from
there on. -/
structure Example where
  comment : Text
  remark : Text
  rest : Text

/-- The lines of an example up to the number that it starts with. -/
def Example.front (e : Example) (start : WaiValue) : Text :=
  joinSources e.comment (joinSources [] (startLine start e.remark))

/-- The text of an example that starts with another number. -/
def Example.source (e : Example) (start : WaiValue) : Text :=
  joinSources (e.front start) e.rest

/-- The parts of an example are what they should be. -/
structure Example.Fits (e : Example) (rest : List WaiInstruction) : Prop where
  comment_first : e.comment.head? = some ';'
  comment_line : sourceLines e.comment = [[]]
  remark_blank : (e.remark.takeWhile (· != ';')).all isspace = true
  remark_line : '\n' ∉ e.remark
  length_le : e.comment.length + e.remark.length + e.rest.length ≤ 300
  assembled : (waiAssembleSource .unlimited e.rest).1.error = .ok ∧
    (waiAssembleSource .unlimited e.rest).2.instructions.map (.relocated 1) = rest

section Source
variable {e : Example} {rest : List WaiInstruction} {start : WaiValue} {mnemonic : Text}
  {operands : List Text} {remark : Text}

/-- Behind an operation a comment, and blanks before it, are left out. -/
theorem stripLine_remark (hwords : ∀ word ∈ mnemonic :: operands, Word word)
    (hblank : (remark.takeWhile (· != ';')).all isspace = true) :
    stripLine (operation mnemonic operands ++ remark) = operation mnemonic operands := by
  have hcomment : ∀ c ∈ operation mnemonic operands, (c != ';') = true := by
    intro c hc
    rw [bne_iff_ne]
    rintro rfl
    exact not_mem_operation hwords rfl (by decide) (by decide) hc
  have hstripped := stripLine_operation hwords
  rw [stripLine, List.takeWhile_eq_self_iff.mpr hcomment, trim] at hstripped
  have hhead : ∃ c tail, operation mnemonic operands = c :: tail ∧ isspace c = false := by
    obtain ⟨⟨tail, htail⟩, _⟩ := operation_ends mnemonic operands
    have hword := hwords mnemonic List.mem_cons_self
    obtain ⟨c, front, hfront⟩ := List.exists_cons_of_ne_nil hword.ne_nil
    refine ⟨c, front ++ tail, by rw [htail, hfront]; rfl, ?_⟩
    have hc := not_separator_of_word hword c (hfront ▸ List.mem_cons_self)
    exact (Bool.or_eq_false_iff.mp hc).1
  obtain ⟨c, tail, hcons, hc⟩ := hhead
  rw [stripLine, List.takeWhile_append_of_pos hcomment, trim, hcons, List.cons_append,
    List.dropWhile_cons_of_neg (by rw [hc]; exact Bool.false_ne_true), ← List.cons_append, ← hcons]
  rw [hcons, List.dropWhile_cons_of_neg (by rw [hc]; exact Bool.false_ne_true), ← hcons] at hstripped
  rw [List.rdropWhile, List.reverse_append, List.dropWhile_append_of_pos]
  · exact hstripped
  · exact fun c hc => List.all_eq_true.mp hblank c (List.mem_reverse.mp hc)

theorem start_form (start : WaiValue) :
    InstructionForm [['m', 'o', 'v'], ['r', '0'], signed start.toInt]
      ⟨WaiOpcode.movImm.value, 0, 0, 0, start⟩ none := by
  have hname : (['m', 'o', 'v'], WaiOpcode.movReg, WaiOpcode.movImm) ∈ aluOpcodes := by decide
  have hregister : RegisterToken ['r', '0'] 0 := @register_printReg 0 (by decide)
  exact .aluImm hname hregister (integer_signed start)

theorem start_reads (h : e.Fits rest) (start : WaiValue) :
    ReadsAs (sourceLines (startLine start e.remark))
      [.instruction ⟨WaiOpcode.movImm.value, 0, 0, 0, start⟩ none] := by
  have hform := start_form start
  have hwords := words_of_form hform
  have hline : '\n' ∉ startLine start e.remark := by
    rw [startLine, List.mem_append, not_or]
    exact ⟨not_mem_operation hwords rfl (by decide) (by decide), h.remark_line⟩
  rw [sourceLines, List.splitOn_eq_singleton hline, List.map_singleton]
  refine .item ?_ .nil
  have hitem := lineItem_operation (le_refl 2) hform
  rwa [stripLine_operation hwords, ← stripLine_remark hwords h.remark_blank] at hitem

theorem front_reads (h : e.Fits rest) (start : WaiValue) :
    ReadsAs (sourceLines (e.front start)) [.instruction ⟨WaiOpcode.movImm.value, 0, 0, 0, start⟩ none] := by
  have hblank : ReadsAs [[]] [] := .blank nofun .nil
  have hcomment : ReadsAs (sourceLines e.comment) [] := h.comment_line ▸ hblank
  exact reads_join hcomment (reads_join (show ReadsAs (sourceLines []) [] from hblank) (start_reads h start))

theorem source_short (h : e.Fits rest) (start : WaiValue) : (e.source start).length < 2 ^ 60 := by
  have hnumber : (signed start.toInt).length ≤ 20 := by
    apply length_signed_le
    have := start.toInt_lt
    have := start.le_toInt
    omega
  have hlength := h.length_le
  simp only [Example.source, Example.front, joinSources, startLine, operation, List.length_append,
    List.length_cons, List.length_nil]
  omega

theorem front_program (h : e.Fits rest) (start : WaiValue) :
    ∃ program, Assembled (e.front start) [.instruction ⟨WaiOpcode.movImm.value, 0, 0, 0, start⟩ none]
      program ∧ program.instructions = [⟨WaiOpcode.movImm.value, 0, 0, 0, start⟩] := by
  have hreads := front_reads h start
  have hlength : (e.front start).length < 2 ^ 60 := by
    refine Nat.lt_of_le_of_lt ?_ (source_short h start)
    rw [Example.source, joinSources, List.length_append]
    exact Nat.le_add_right _ _
  have hreferences (name : Text)
      (hmem : name ∈ references [.instruction ⟨WaiOpcode.movImm.value, 0, 0, 0, start⟩ none]) :
      False := by
    cases hmem
  have hok : (waiAssembleSource .unlimited (e.front start)).1.error = .ok :=
    (assembles_of_items hreads ⟨.nil, fun name hmem => (hreferences name hmem).elim⟩).resolve_right
      (not_oom AssemblerAlloc.unlimited_grants hlength)
  obtain ⟨items, hassembled⟩ := assembled_of_accepted hok
  obtain rfl := readsAs_unique hassembled.reads hreads
  exact ⟨_, hassembled, hassembled.instructions⟩

/-- An example is accepted, and its program is a `mov` with the rest behind it. -/
theorem source_program (h : e.Fits rest) (start : WaiValue) :
    (waiAssembleSource .unlimited (e.source start)).1.error = .ok ∧
      (waiAssembleSource .unlimited (e.source start)).2.instructions =
        ⟨WaiOpcode.movImm.value, 0, 0, 0, start⟩ :: rest := by
  obtain ⟨program, hfront, hprogram⟩ := front_program h start
  obtain ⟨items, hrest⟩ := assembled_of_accepted h.assembled.1
  have hapart : LabelsApart [.instruction ⟨WaiOpcode.movImm.value, 0, 0, 0, start⟩ none] items := nofun
  have hok : (waiAssembleSource .unlimited (e.source start)).1.error = .ok :=
    (assembles_of_items (reads_join hfront.reads hrest.reads)
      (accepts_append hfront.accepts hrest.accepts hapart)).resolve_right
      (not_oom AssemblerAlloc.unlimited_grants (source_short h start))
  refine ⟨hok, ?_⟩
  obtain ⟨all, hall⟩ := assembled_of_accepted hok
  have hcount : program.count = 1 := by rw [hfront.count_eq]; rfl
  rw [joined_of_assembled hfront hrest hapart hall, hprogram, hcount, h.assembled.2]
  rfl

theorem source_first (h : e.Fits rest) : (e.source start).head? ≠ some 'W' := by
  obtain ⟨tail, htail⟩ := List.head?_eq_some_iff.mp h.comment_first
  rw [Example.source, Example.front, joinSources, joinSources, htail]
  exact fun hhead => absurd (Option.some.inj hhead) (by decide)

/-- The code of an example, whose first instruction gives `r0` its value. -/
def exampleCode (start : WaiValue) (rest : List WaiInstruction) : List (Operation × Option Nat) :=
  (⟨WaiOpcode.movImm.value, 0, 0, 0, start⟩ :: rest).map numbered

/-- One instruction of an example. -/
def exampleStep (start : WaiValue) (rest : List WaiInstruction) :
    Data ByteStack × Nat → Outcome (Data ByteStack × Nat) (Result ByteStack) :=
  numberStep (language machineMemory) (exampleCode start rest)

/-- What an example prints is shown of its code behind the first instruction. -/
theorem example_prints {host : Host} {path : Text} {values : List WaiValue} {n : Nat}
    {known : List (Byte × WaiValue)} (h : e.Fits rest) (hgrants : host.load.Grants)
    (hfile : HoldsSource host path (e.source start))
    (hget : (exampleCode start rest)[n]? = some (.halt, none))
    (hcode : LeadsTo (exampleStep start rest) (At 1 (InRegs [(0, start)] []))
      (At n (InRegs known values))) :
    Prints host path values := by
  obtain ⟨hok, hinstructions⟩ := source_program h start
  have hnumbered : (waiAssembleSource .unlimited (e.source start)).2.instructions.map numbered =
      exampleCode start rest := by rw [hinstructions]; rfl
  refine prints_of_leadsTo hgrants hfile (source_first h) hok (hnumbered ▸ hget) ?_
  unfold isaStep
  rw [hnumbered]
  have hfirst : LeadsTo (exampleStep start rest) (At 0 (InRegs [] [])) (At 1 (InRegs [(0, start)] [])) :=
    holds_mov rfl (show validReg 0 = true by decide) rfl
  refine (hfirst.trans hcode).imp ?_ (At.imp fun d hd => hd.printed_eq)
  rintro _ rfl
  exact ⟨rfl, nofun, rfl⟩

end Source

section Numbers
variable {start : WaiValue} {k : Nat}

/-- A loop whose counter has not come to zero. -/
theorem ofNat_ne_zero (h0 : k ≠ 0) (hk : k ≤ start.toNat) : BitVec.ofNat 64 k ≠ 0 := by
  intro hzero
  have htoNat := congrArg BitVec.toNat hzero
  rw [BitVec.toNat_ofNat, Nat.mod_eq_of_lt (Nat.lt_of_le_of_lt hk start.isLt)] at htoNat
  exact h0 htoNat

theorem ofNat_pred (k : Nat) : BitVec.ofNat 64 (k + 1) - 1 = BitVec.ofNat 64 k := by
  rw [BitVec.ofNat_add]
  exact BitVec.add_sub_cancel _ _

theorem ofNat_start (start : WaiValue) : start = BitVec.ofNat 64 start.toNat :=
  ((BitVec.ofNat_toNat _ _).trans (BitVec.setWidth_eq _)).symm

theorem start_ne_zero (h : start ≠ 0) : start.toNat ≠ 0 :=
  fun hzero => h (BitVec.eq_of_toNat_eq hzero)

end Numbers

section Branches
variable {code : List (Operation × Option Nat)} {n m k : Nat} {known : List (Byte × WaiValue)}
  {printed : List WaiValue} {start : WaiValue}

/-- The end of a round: the counter is in `r0`, and the loop starts again at `m` if it is not zero. -/
theorem count_down (hget : code[n]? = some (.binary subOp 0 (.imm 1), none))
    (hjump : code[n + 1]? = some (.jump (.nonzero 0), some m)) (hm : m < code.length)
    (hcounter : known.lookup 0 = some (BitVec.ofNat 64 (k + 1))) (hk : k < start.toNat) :
    LeadsTo (numberStep (language machineMemory) code) (At n (InRegs known printed))
      (At (if k = 0 then n + 2 else m) (InRegs ((0, BitVec.ofNat 64 k) :: known) printed)) := by
  have hcount : LeadsTo (numberStep (language machineMemory) code) (At n (InRegs known printed))
      (At (n + 1) (InRegs ((0, BitVec.ofNat 64 k) :: known) printed)) :=
    holds_binary hget hcounter rfl rfl (ofNat_pred k)
  have hreg : ∀ d : Data ByteStack, InRegs ((0, BitVec.ofNat 64 k) :: known) printed d →
      d.holds (.nonzero 0) = .ok (decide (BitVec.ofNat 64 k ≠ 0)) := by
    intro d hd
    rw [Data.holds, hd.regs 0 _ List.lookup_cons_self]
    rfl
  refine hcount.trans ?_
  by_cases h0 : k = 0
  · rw [if_pos h0]
    refine leadsTo_untaken hjump fun d hd => ⟨(hreg d hd).trans ?_, hd⟩
    rw [h0]
    rfl
  · rw [if_neg h0]
    refine leadsTo_taken hjump hm fun d hd => ⟨(hreg d hd).trans ?_, hd⟩
    exact congrArg Except.ok (decide_eq_true (ofNat_ne_zero h0 hk.le))

end Branches

/-- The directory with the text `text` in the file `s`. -/
def textHost (text : String) : Host :=
  sourceHost (text.toList.map fun c => BitVec.ofNat 8 c.toNat)

theorem textHost_grants (text : String) : (textHost text).load.Grants :=
  ⟨AssemblerAlloc.unlimited_grants, fun _ => rfl⟩

theorem textHost_holds {text : String} {source : Text}
    (h : textOf (text.toList.map fun c => BitVec.ofNat 8 c.toNat) = source) :
    HoldsSource (textHost text) ['s'] source :=
  ⟨_, rfl, h⟩

/-! ## 2. `factorial.wai` and `sum.wai` -/

/-- The two programs behind their first instruction. -/
def accumulateRest (opcode : WaiOpcode) (first : WaiValue) : List WaiInstruction :=
  [⟨WaiOpcode.movImm.value, 1, 0, 0, first⟩, ⟨opcode.value, 1, 0, 0, 0⟩,
    ⟨WaiOpcode.subImm.value, 0, 0, 0, 1⟩, ⟨WaiOpcode.jnz.value, 0, 0, 0, 2⟩,
    ⟨WaiOpcode.print.value, 1, 0, 0, 0⟩, ⟨WaiOpcode.halt.value, 0, 0, 0, 0⟩]

section Accumulate
variable {opcode : WaiOpcode} {f : WaiValue → WaiValue → WaiValue} {start first : WaiValue}

/-- The loop: `acc k` is in `r1` when `k` rounds are left. -/
theorem accumulate_leadsTo (acc : Nat → WaiValue) (hstart : start ≠ 0)
    (hop : numbered ⟨opcode.value, 1, 0, 0, 0⟩ =
      (.binary (fun x y => .ok (.ok (f x y))) 1 (.reg 0), none))
    (hfirst : acc start.toNat = first)
    (hround : ∀ k, k < start.toNat → f (acc (k + 1)) (BitVec.ofNat 64 (k + 1)) = acc k) :
    LeadsTo (exampleStep start (accumulateRest opcode first)) (At 1 (InRegs [(0, start)] []))
      (At 6 (InRegs [(0, 0), (1, acc 0)] [acc 0])) := by
  have hmov : LeadsTo (exampleStep start (accumulateRest opcode first)) (At 1 (InRegs [(0, start)] []))
      (At 2 (InRegs [(1, first), (0, start)] [])) :=
    holds_mov rfl (show validReg 1 = true by decide) rfl
  have hloop : LeadsTo (exampleStep start (accumulateRest opcode first)) _ _ :=
    leadsTo_loop (I := fun k => At (if k = 0 then 5 else 2)
      (InRegs [(0, BitVec.ofNat 64 k), (1, acc k)] [])) (n := start.toNat) fun k hk => by
      have hput : LeadsTo (exampleStep start (accumulateRest opcode first))
          (At 2 (InRegs [(0, BitVec.ofNat 64 (k + 1)), (1, acc (k + 1))] []))
          (At 3 (InRegs [(1, acc k), (0, BitVec.ofNat 64 (k + 1)), (1, acc (k + 1))] [])) :=
        holds_binary (congrArg some hop) rfl rfl rfl (hround k hk)
      refine hput.trans ((count_down rfl rfl (show 2 < 7 by decide) rfl hk).imp (fun _ h => h) ?_)
      exact At.imp fun d hd => hd.weaken ⟨rfl, rfl, trivial⟩
  have hprint : LeadsTo (exampleStep start (accumulateRest opcode first))
      (At 5 (InRegs [(0, 0), (1, acc 0)] [])) (At 6 (InRegs [(0, 0), (1, acc 0)] [acc 0])) :=
    holds_print rfl rfl
  rw [if_neg (start_ne_zero hstart)] at hloop
  refine hmov.trans (LeadsTo.trans ?_ (hloop.trans hprint))
  exact leadsTo_of_imp (At.imp fun d hd =>
    hd.weaken ⟨congrArg some (ofNat_start start), congrArg some hfirst.symm, trivial⟩)

/-- What `factorial.wai` has multiplied when `k` rounds are left. -/
theorem factorial_round {n k : Nat} (h : k < n) :
    BitVec.ofNat 64 (n.descFactorial (n - (k + 1))) * BitVec.ofNat 64 (k + 1) =
      BitVec.ofNat 64 (n.descFactorial (n - k)) := by
  obtain ⟨m, rfl⟩ := Nat.exists_eq_add_of_lt h
  rw [← BitVec.ofNat_mul, show k + m + 1 - k = m + 1 by omega, show k + m + 1 - (k + 1) = m by omega,
    Nat.descFactorial_succ, Nat.mul_comm, show k + m + 1 - m = k + 1 by omega]

/-- What `sum.wai` has added. -/
theorem sum_round {n k : Nat} (h : k < n) :
    BitVec.ofNat 64 (∑ i ∈ Finset.Ioc (k + 1) n, i) + BitVec.ofNat 64 (k + 1) =
      BitVec.ofNat 64 (∑ i ∈ Finset.Ioc k n, i) := by
  rw [← BitVec.ofNat_add, ← Finset.sum_Ioc_consecutive _ (Nat.le_succ k) h, Nat.Ioc_succ_singleton,
    Finset.sum_singleton, Nat.add_comm]

end Accumulate

/-- `factorial.wai` -/
def factorialExample : Example where
  comment := "; factorial of 5".toList
  remark := "      ; counter".toList
  rest := ("mov r1, 1      ; result\n\n" ++ "loop:\n" ++ "  mul r1, r0\n" ++ "  sub r0, 1\n" ++
    "  jnz r0, loop\n\n" ++ "print r1\n" ++ "halt\n").toList

theorem factorial_fits : factorialExample.Fits (accumulateRest .mulReg 1) := by
  constructor
  -- the length of one list: the kernel would evaluate each of the three where they are only compared
  case' length_le => rw [← List.length_append, ← List.length_append]
  -- the literals become lists of characters before anything is evaluated
  all_goals
    unfold factorialExample
    dsimp only
    repeat rw [String.toList_append]
    repeat rw [String.toList_ofList]
    decide

/-- `sum.wai` -/
def sumExample : Example where
  comment := "; sum 10 + 9 + ... + 1".toList
  remark := []
  rest := ("mov r1, 0\n\n" ++ "loop:\n" ++ "  add r1, r0\n" ++ "  sub r0, 1\n" ++
    "  jnz r0, loop\n\n" ++ "print r1\n" ++ "halt\n").toList

theorem sum_fits : sumExample.Fits (accumulateRest .addReg 0) := by
  constructor
  case' length_le => rw [← List.length_append, ← List.length_append]
  all_goals
    unfold sumExample
    dsimp only
    repeat rw [String.toList_append]
    repeat rw [String.toList_ofList]
    decide

/-- `factorial.wai` prints the factorial of any number other than zero, in 64 bits. -/
theorem factorial_prints {host : Host} {path : Text} {start : WaiValue} (hgrants : host.load.Grants)
    (hfile : HoldsSource host path (factorialExample.source start)) (hstart : start ≠ 0) :
    Prints host path [BitVec.ofNat 64 start.toNat.factorial] := by
  have hcode : LeadsTo (exampleStep start (accumulateRest .mulReg 1)) (At 1 (InRegs [(0, start)] [])) _ :=
    accumulate_leadsTo (f := (· * ·))
      (fun k => BitVec.ofNat 64 (start.toNat.descFactorial (start.toNat - k))) hstart rfl
      (by rw [Nat.sub_self]; rfl) fun k hk => factorial_round hk
  rw [Nat.sub_zero, Nat.descFactorial_self] at hcode
  exact example_prints factorial_fits hgrants hfile rfl hcode

theorem factorial_prints_five :
    Prints (textHost ("; factorial of 5\n\n" ++ "mov r0, 5      ; counter\n" ++ "mov r1, 1      ; result\n\n" ++
      "loop:\n" ++ "  mul r1, r0\n" ++ "  sub r0, 1\n" ++ "  jnz r0, loop\n\n" ++ "print r1\n" ++
      "halt\n")) ['s'] [120] := by
  refine @factorial_prints _ _ 5 (textHost_grants _) (textHost_holds ?_) (by decide)
  unfold factorialExample Example.source Example.front
  dsimp only
  repeat rw [String.toList_append]
  repeat rw [String.toList_ofList]
  decide

/-- `sum.wai` adds the numbers from any number other than zero down to one. -/
theorem sum_prints {host : Host} {path : Text} {start : WaiValue} (hgrants : host.load.Grants)
    (hfile : HoldsSource host path (sumExample.source start)) (hstart : start ≠ 0) :
    Prints host path [BitVec.ofNat 64 (∑ i ∈ Finset.Ioc 0 start.toNat, i)] := by
  have hcode : LeadsTo (exampleStep start (accumulateRest .addReg 0)) (At 1 (InRegs [(0, start)] [])) _ :=
    accumulate_leadsTo (f := (· + ·))
      (fun k => BitVec.ofNat 64 (∑ i ∈ Finset.Ioc k start.toNat, i)) hstart rfl
      (by rw [Finset.Ioc_self]; rfl) fun k hk => sum_round hk
  exact example_prints sum_fits hgrants hfile rfl hcode

/-! ## 3. `fib.wai` -/

/-- The program of `fib.wai` behind its first instruction. -/
def fibRest : List WaiInstruction :=
  [⟨WaiOpcode.movImm.value, 1, 0, 0, 0⟩, ⟨WaiOpcode.movImm.value, 2, 0, 0, 1⟩,
    ⟨WaiOpcode.jz.value, 0, 0, 0, 10⟩, ⟨WaiOpcode.movReg.value, 3, 1, 0, 0⟩,
    ⟨WaiOpcode.addReg.value, 3, 2, 0, 0⟩, ⟨WaiOpcode.movReg.value, 1, 2, 0, 0⟩,
    ⟨WaiOpcode.movReg.value, 2, 3, 0, 0⟩, ⟨WaiOpcode.subImm.value, 0, 0, 0, 1⟩,
    ⟨WaiOpcode.jmp.value, 0, 0, 0, 3⟩, ⟨WaiOpcode.print.value, 1, 0, 0, 0⟩,
    ⟨WaiOpcode.halt.value, 0, 0, 0, 0⟩]

/-- `fib.wai` -/
def fibExample : Example where
  comment := "; fibonacci: compute F(10) = 55".toList
  remark := "     ; n".toList
  rest := ("mov r1, 0      ; a\n" ++ "mov r2, 1      ; b\n\n" ++ "loop:\n" ++ "  jz r0, done\n" ++
    "  mov r3, r1\n" ++ "  add r3, r2\n" ++ "  mov r1, r2\n" ++ "  mov r2, r3\n" ++ "  sub r0, 1\n" ++
    "  jmp loop\n\n" ++ "done:\n" ++ "  print r1\n" ++ "  halt\n").toList

theorem fib_fits : fibExample.Fits fibRest := by
  constructor
  case' length_le => rw [← List.length_append, ← List.length_append]
  all_goals
    unfold fibExample
    dsimp only
    repeat rw [String.toList_append]
    repeat rw [String.toList_ofList]
    decide +kernel

section Fib
variable {start : WaiValue} {k : Nat}

/-- `k` rounds are left. -/
def FibAt (n k : Nat) : Data ByteStack → Prop :=
  InRegs [(0, BitVec.ofNat 64 k), (1, BitVec.ofNat 64 (n - k).fib), (2, BitVec.ofNat 64 (n - k + 1).fib)] []

theorem fib_round (hk : k < start.toNat) :
    LeadsTo (exampleStep start fibRest) (At 3 (FibAt start.toNat (k + 1)))
      (At 3 (FibAt start.toNat k)) := by
  have hnext : start.toNat - k = start.toNat - (k + 1) + 1 := by omega
  unfold FibAt
  rw [hnext]
  generalize start.toNat - (k + 1) = m
  have hgo : LeadsTo (exampleStep start fibRest)
      (At 3 (InRegs [(0, BitVec.ofNat 64 (k + 1)), (1, BitVec.ofNat 64 m.fib),
        (2, BitVec.ofNat 64 (m + 1).fib)] []))
      (At 4 (InRegs [(0, BitVec.ofNat 64 (k + 1)), (1, BitVec.ofNat 64 m.fib),
        (2, BitVec.ofNat 64 (m + 1).fib)] [])) := by
    refine leadsTo_untaken rfl fun d hd => ⟨?_, hd⟩
    rw [Data.holds, hd.regs 0 _ rfl]
    exact congrArg Except.ok (decide_eq_false (ofNat_ne_zero (Nat.succ_ne_zero k) hk))
  have hthree : validReg 3 = true := by decide
  have hone : validReg 1 = true := by decide
  have htwo : validReg 2 = true := by decide
  have hsum : BitVec.ofNat 64 m.fib + BitVec.ofNat 64 (m + 1).fib = BitVec.ofNat 64 (m + 1 + 1).fib := by
    rw [← BitVec.ofNat_add, Nat.fib_add_two]
  refine hgo.trans ((holds_mov rfl hthree rfl).trans ((holds_binary rfl rfl rfl rfl hsum).trans
    ((holds_mov rfl hone rfl).trans ((holds_mov rfl htwo rfl).trans
    ((holds_binary rfl rfl rfl rfl (ofNat_pred k)).trans
    (leadsTo_taken rfl (show 3 < 12 by decide) fun d hd => ⟨rfl, ?_⟩))))))
  exact hd.weaken ⟨rfl, rfl, rfl, trivial⟩

theorem fib_leadsTo (start : WaiValue) :
    LeadsTo (exampleStep start fibRest) (At 1 (InRegs [(0, start)] []))
      (At 11 (InRegs [(0, 0), (1, BitVec.ofNat 64 start.toNat.fib),
        (2, BitVec.ofNat 64 (start.toNat + 1).fib)] [BitVec.ofNat 64 start.toNat.fib])) := by
  have hone : validReg 1 = true := by decide
  have htwo : validReg 2 = true := by decide
  have hbegin : LeadsTo (exampleStep start fibRest) (At 1 (InRegs [(0, start)] []))
      (At 3 (InRegs [(2, 1), (1, 0), (0, start)] [])) :=
    (holds_mov rfl hone rfl).trans (holds_mov rfl htwo rfl)
  have hloop : LeadsTo (exampleStep start fibRest) (At 3 (FibAt start.toNat start.toNat))
      (At 3 (FibAt start.toNat 0)) :=
    leadsTo_loop (I := fun k => At 3 (FibAt start.toNat k)) fun k hk => fib_round hk
  have hdone : LeadsTo (exampleStep start fibRest) (At 3 (FibAt start.toNat 0))
      (At 10 (FibAt start.toNat 0)) := by
    refine leadsTo_taken rfl (show 10 < 12 by decide) fun d hd => ⟨?_, hd⟩
    rw [Data.holds, hd.regs 0 _ rfl]
    rfl
  refine hbegin.trans (LeadsTo.trans ?_ (hloop.trans (hdone.trans (holds_print rfl rfl))))
  refine leadsTo_of_imp (At.imp fun d hd => hd.weaken ⟨congrArg some (ofNat_start start), ?_, ?_, trivial⟩)
  · rw [Nat.sub_self]
    rfl
  · rw [Nat.sub_self]
    rfl

end Fib

/-- `fib.wai` prints the Fibonacci number of any number, in 64 bits. -/
theorem fib_prints {host : Host} {path : Text} {start : WaiValue} (hgrants : host.load.Grants)
    (hfile : HoldsSource host path (fibExample.source start)) :
    Prints host path [BitVec.ofNat 64 start.toNat.fib] :=
  example_prints fib_fits hgrants hfile rfl (fib_leadsTo start)

theorem fib_prints_ten :
    Prints (textHost ("; fibonacci: compute F(10) = 55\n\n" ++ "mov r0, 10     ; n\n" ++ "mov r1, 0      ; a\n" ++
      "mov r2, 1      ; b\n\n" ++ "loop:\n" ++ "  jz r0, done\n" ++ "  mov r3, r1\n" ++ "  add r3, r2\n" ++
      "  mov r1, r2\n" ++ "  mov r2, r3\n" ++ "  sub r0, 1\n" ++ "  jmp loop\n\n" ++ "done:\n" ++
      "  print r1\n" ++ "  halt\n")) ['s'] [55] := by
  refine @fib_prints _ _ 10 (textHost_grants _) (textHost_holds ?_)
  unfold fibExample Example.source Example.front
  dsimp only
  repeat rw [String.toList_append]
  repeat rw [String.toList_ofList]
  decide +kernel

/-! ## 4. `loop.wai` -/

/-- The program of `loop.wai` behind its first instruction. -/
def loopRest : List WaiInstruction :=
  [⟨WaiOpcode.print.value, 0, 0, 0, 0⟩, ⟨WaiOpcode.subImm.value, 0, 0, 0, 1⟩,
    ⟨WaiOpcode.jnz.value, 0, 0, 0, 1⟩, ⟨WaiOpcode.halt.value, 0, 0, 0, 0⟩]

/-- `loop.wai` -/
def loopExample : Example where
  comment := "; simple countdown".toList
  remark := []
  rest := ("loop:\n" ++ "  print r0\n" ++ "  sub r0, 1\n" ++ "  jnz r0, loop\n" ++ "halt\n").toList

theorem loop_fits : loopExample.Fits loopRest := by
  constructor
  case' length_le => rw [← List.length_append, ← List.length_append]
  all_goals
    unfold loopExample
    dsimp only
    repeat rw [String.toList_append]
    repeat rw [String.toList_ofList]
    decide

/-- The numbers from `n` down to `k + 1`. -/
def countdown (n k : Nat) : List WaiValue :=
  (List.range' (k + 1) (n - k)).reverse.map (BitVec.ofNat 64)

theorem countdown_round {n k : Nat} (h : k < n) :
    countdown n (k + 1) ++ [BitVec.ofNat 64 (k + 1)] = countdown n k := by
  have hlength : n - k = n - (k + 1) + 1 := by omega
  rw [countdown, countdown, hlength, List.range'_succ, List.reverse_cons, List.map_append]
  rfl

/-- `loop.wai` prints the numbers from any number other than zero down to one. -/
theorem loop_prints {host : Host} {path : Text} {start : WaiValue} (hgrants : host.load.Grants)
    (hfile : HoldsSource host path (loopExample.source start)) (hstart : start ≠ 0) :
    Prints host path (countdown start.toNat 0) := by
  have hround : ∀ k, k < start.toNat → LeadsTo (exampleStep start loopRest)
      (At 1 (InRegs [(0, BitVec.ofNat 64 (k + 1))] (countdown start.toNat (k + 1))))
      (At (if k = 0 then 4 else 1) (InRegs [(0, BitVec.ofNat 64 k)] (countdown start.toNat k))) := by
    intro k hk
    have hprint : LeadsTo (exampleStep start loopRest)
        (At 1 (InRegs [(0, BitVec.ofNat 64 (k + 1))] (countdown start.toNat (k + 1))))
        (At 2 (InRegs [(0, BitVec.ofNat 64 (k + 1))] (countdown start.toNat k))) :=
      countdown_round hk ▸ holds_print rfl rfl
    refine hprint.trans ((count_down rfl rfl (show 1 < 5 by decide) rfl hk).imp (fun _ h => h) ?_)
    exact At.imp fun d hd => hd.weaken ⟨rfl, trivial⟩
  have hloop : LeadsTo (exampleStep start loopRest) _ _ :=
    leadsTo_loop (I := fun k => At (if k = 0 then 4 else 1)
      (InRegs [(0, BitVec.ofNat 64 k)] (countdown start.toNat k))) hround
  rw [if_neg (start_ne_zero hstart), ← ofNat_start, countdown, Nat.sub_self] at hloop
  exact example_prints loop_fits hgrants hfile rfl hloop

theorem loop_prints_three :
    Prints (textHost ("; simple countdown\n\n" ++ "mov r0, 3\n" ++ "loop:\n" ++ "  print r0\n" ++
      "  sub r0, 1\n" ++ "  jnz r0, loop\n" ++ "halt\n")) ['s'] [3, 2, 1] := by
  refine @loop_prints _ _ 3 (textHost_grants _) (textHost_holds ?_) (by decide)
  unfold loopExample Example.source Example.front
  dsimp only
  repeat rw [String.toList_append]
  repeat rw [String.toList_ofList]
  decide

/-! ## 5. `modulo.wai` -/

/-- The program of `modulo.wai` behind its first instruction. -/
def moduloRest : List WaiInstruction :=
  [⟨WaiOpcode.movImm.value, 1, 0, 0, 0⟩, ⟨WaiOpcode.movReg.value, 2, 0, 0, 0⟩,
    ⟨WaiOpcode.modImm.value, 2, 0, 0, 2⟩, ⟨WaiOpcode.cmpImm.value, 2, 0, 0, 1⟩,
    ⟨WaiOpcode.jne.value, 0, 0, 0, 7⟩, ⟨WaiOpcode.addReg.value, 1, 0, 0, 0⟩,
    ⟨WaiOpcode.subImm.value, 0, 0, 0, 1⟩, ⟨WaiOpcode.jnz.value, 0, 0, 0, 2⟩,
    ⟨WaiOpcode.print.value, 1, 0, 0, 0⟩, ⟨WaiOpcode.halt.value, 0, 0, 0, 0⟩]

/-- `modulo.wai` -/
def moduloExample : Example where
  comment := "; remainder example: sum odd numbers below 10".toList
  remark := "       ; counter".toList
  rest := ("mov r1, 0       ; sum\n\n" ++ "loop:\n" ++ "  mov r2, r0\n" ++ "  mod r2, 2\n" ++
    "  cmp r2, 1\n" ++ "  jne skip\n" ++ "  add r1, r0\n" ++ "skip:\n" ++ "  sub r0, 1\n" ++
    "  jnz r0, loop\n\n" ++ "print r1\n" ++ "halt\n").toList

theorem modulo_fits : moduloExample.Fits moduloRest := by
  constructor
  case' length_le => rw [← List.length_append, ← List.length_append]
  all_goals
    unfold moduloExample
    dsimp only
    repeat rw [String.toList_append]
    repeat rw [String.toList_ofList]
    decide +kernel

/-- The sum of the odd numbers above `k`, up to `n`. -/
def oddSum (n k : Nat) : WaiValue :=
  BitVec.ofNat 64 (∑ i ∈ (Finset.Ioc k n).filter Odd, i)

theorem oddSum_round {n k : Nat} (h : k < n) :
    oddSum n k = if Odd (k + 1) then oddSum n (k + 1) + BitVec.ofNat 64 (k + 1) else oddSum n (k + 1) := by
  unfold oddSum
  rw [Finset.sum_filter, Finset.sum_filter, ← Finset.sum_Ioc_consecutive _ (Nat.le_succ k) h,
    Nat.Ioc_succ_singleton, Finset.sum_singleton]
  split
  · rw [← BitVec.ofNat_add, Nat.add_comm]
  · rw [Nat.zero_add]

theorem modOp_two {m : Nat} (hm : m < 2 ^ 63) :
    modOp (BitVec.ofNat 64 m) 2 = .ok (.ok (BitVec.ofNat 64 (m % 2))) := by
  have hm64 : m < 2 ^ 64 := Nat.lt_trans hm (by decide)
  have htoInt : (BitVec.ofNat 64 m).toInt = m := by
    rw [BitVec.toInt_eq_toNat_of_lt, BitVec.toNat_ofNat, Nat.mod_eq_of_lt hm64]
    rw [BitVec.toNat_ofNat, Nat.mod_eq_of_lt hm64]
    omega
  have htwo : (2 : WaiValue).toInt = 2 := by decide
  have hquotient : InInt64 ((m : Int).tdiv 2) := by
    rw [InInt64, Int.tdiv_eq_ediv_of_nonneg (Int.natCast_nonneg m)]
    omega
  have hremainder : (m : Int).tmod 2 = ((m % 2 : Nat) : Int) := by
    rw [Int.tmod_eq_emod_of_nonneg (Int.natCast_nonneg m)]
    rfl
  rw [modOp, if_neg (by decide), cMod, htoInt, htwo, if_pos hquotient, hremainder, BitVec.ofInt_natCast]
  rfl

/-- One round: the counter is odd, or the addition is skipped. -/
theorem modulo_round {start : WaiValue} {k : Nat} (hstart : start.toNat < 2 ^ 63) (hk : k < start.toNat) :
    LeadsTo (exampleStep start moduloRest)
      (At 2 (InRegs [(0, BitVec.ofNat 64 (k + 1)), (1, oddSum start.toNat (k + 1))] []))
      (At (if k = 0 then 9 else 2) (InRegs [(0, BitVec.ofNat 64 k), (1, oddSum start.toNat k)] [])) := by
  have htwo : validReg 2 = true := by decide
  have hbefore : LeadsTo (exampleStep start moduloRest)
      (At 2 (InRegs [(0, BitVec.ofNat 64 (k + 1)), (1, oddSum start.toNat (k + 1))] []))
      (At 5 fun d => InRegs [(0, BitVec.ofNat 64 (k + 1)), (1, oddSum start.toNat (k + 1))] [] d ∧
        d.zf = decide (BitVec.ofNat 64 ((k + 1) % 2) = 1)) := by
    refine (holds_mov rfl htwo rfl).trans ((holds_binary rfl rfl rfl
      (modOp_two (Nat.lt_of_le_of_lt hk hstart)) rfl).trans ((holds_compare rfl rfl rfl).imp
      (fun _ h => h) (At.imp fun d hd => ⟨hd.1.weaken ⟨rfl, rfl, trivial⟩, hd.2⟩)))
  have hafter : LeadsTo (exampleStep start moduloRest)
      (At 5 fun d => InRegs [(0, BitVec.ofNat 64 (k + 1)), (1, oddSum start.toNat (k + 1))] [] d ∧
        d.zf = decide (BitVec.ofNat 64 ((k + 1) % 2) = 1))
      (At 7 (InRegs [(0, BitVec.ofNat 64 (k + 1)), (1, oddSum start.toNat k)] [])) := by
    by_cases hodd : Odd (k + 1)
    · have hvalue : oddSum start.toNat (k + 1) + BitVec.ofNat 64 (k + 1) = oddSum start.toNat k := by
        rw [oddSum_round hk, if_pos hodd]
      refine LeadsTo.trans (leadsTo_untaken rfl fun d hd => ⟨?_, hd.1⟩)
        ((holds_binary rfl rfl rfl rfl hvalue).imp (fun _ h => h) ?_)
      · rw [Data.holds, hd.2, Nat.odd_iff.mp hodd]
        rfl
      · exact At.imp fun d hd => hd.weaken ⟨rfl, rfl, trivial⟩
    · have hvalue : oddSum start.toNat (k + 1) = oddSum start.toNat k := by
        rw [oddSum_round hk, if_neg hodd]
      refine leadsTo_taken rfl (show 7 < 11 by decide) fun d hd => ⟨?_, hvalue ▸ hd.1⟩
      rw [Data.holds, hd.2, Nat.not_odd_iff.mp hodd]
      rfl
  refine hbefore.trans (hafter.trans ((count_down rfl rfl (show 2 < 11 by decide) rfl hk).imp
    (fun _ h => h) ?_))
  exact At.imp fun d hd => hd.weaken ⟨rfl, rfl, trivial⟩

/-- `modulo.wai` adds the odd numbers up to any positive number. -/
theorem modulo_prints {host : Host} {path : Text} {start : WaiValue} (hgrants : host.load.Grants)
    (hfile : HoldsSource host path (moduloExample.source start)) (hstart : 0 < start.toInt) :
    Prints host path [oddSum start.toNat 0] := by
  have hbound : start.toNat < 2 ^ 63 := by
    have := BitVec.toInt_eq_toNat_cond start
    omega
  have hne : start ≠ 0 := by
    rintro rfl
    exact absurd hstart (by decide)
  have hmov : LeadsTo (exampleStep start moduloRest) (At 1 (InRegs [(0, start)] []))
      (At 2 (InRegs [(1, 0), (0, start)] [])) :=
    holds_mov rfl (show validReg 1 = true by decide) rfl
  have hloop : LeadsTo (exampleStep start moduloRest) _ _ :=
    leadsTo_loop (I := fun k => At (if k = 0 then 9 else 2)
      (InRegs [(0, BitVec.ofNat 64 k), (1, oddSum start.toNat k)] [])) fun k hk => modulo_round hbound hk
  rw [if_neg (start_ne_zero hne)] at hloop
  refine example_prints modulo_fits hgrants hfile rfl (hmov.trans (LeadsTo.trans ?_
    (hloop.trans (holds_print rfl rfl))))
  refine leadsTo_of_imp (At.imp fun d hd => hd.weaken ⟨congrArg some (ofNat_start start), ?_, trivial⟩)
  rw [oddSum, Finset.Ioc_self]
  rfl

theorem modulo_prints_nine :
    Prints (textHost ("; remainder example: sum odd numbers below 10\n\n" ++ "mov r0, 9       ; counter\n" ++
      "mov r1, 0       ; sum\n\n" ++ "loop:\n" ++ "  mov r2, r0\n" ++ "  mod r2, 2\n" ++ "  cmp r2, 1\n" ++
      "  jne skip\n" ++ "  add r1, r0\n" ++ "skip:\n" ++ "  sub r0, 1\n" ++ "  jnz r0, loop\n\n" ++
      "print r1\n" ++ "halt\n")) ['s'] [25] := by
  have hsum : oddSum (9 : WaiValue).toNat 0 = 25 := by decide
  refine hsum ▸ @modulo_prints _ _ 9 (textHost_grants _) (textHost_holds ?_) (by decide)
  unfold moduloExample Example.source Example.front
  dsimp only
  repeat rw [String.toList_append]
  repeat rw [String.toList_ofList]
  decide +kernel

end Waivm
