import Waivm.AssemblerOutput
import Waivm.Isa

/-!
# What a source text means

The meaning of a source, without its assembler: the lines are run as they stand. The position is what
is left of the text, a jump goes to the text behind the label that it names, and a `call` leaves the
number of instructions before the next line on the stack. Names are what is written; the label table
keeps 63 characters of them, so the two agree where long names are harmless.

Results:
1. `link_items`: the program that the assembler makes is the linked text, where long names are harmless.
2. `assembler_preserves_meaning`: that program runs on the engine as the source does, instruction
   by instruction, up to the same end.
-/

namespace Waivm

open CString Isa
open LabelledCode (Line textStep numberStep link AtText)
open X86 (Reg Val)
open Machine (Outcome LockStep ReachesIn Ends)

/-- A line of a source, in the instruction set. -/
def Item.line : Item → Line Text Operation
  | .label name => .label name
  | .instruction instr target => .instr (decode instr) target

/-- What a source text is while it runs: the data, and the lines that are left. -/
abbrev SourceState := Data ByteStack × List (Line Text Operation)

/-- One instruction of a source text. -/
def sourceStep (items : List Item) : SourceState → Outcome SourceState (Result ByteStack) :=
  textStep (language machineMemory) (items.map Item.line)

/-- A source text before its first instruction. -/
def sourceStart (items : List Item) : SourceState :=
  (.zero ⟨fun _ => 0, waiStackStart⟩, items.map Item.line)

/-! ## 1. The assembler links -/

section Link
variable {items : List Item} {line : WaiInstruction × Option Text}

theorem instrs_items (items : List Item) :
    LabelledCode.instrs (items.map Item.line) =
      (instructionLines items).map fun line => (decode line.1, line.2) := by
  induction items with
  | nil => rfl
  | cons item items ih =>
    cases item with
    | label name => exact ih
    | instruction instr target => exact congrArg ((decode instr, target) :: ·) ih

theorem length_instrs_items (items : List Item) :
    (LabelledCode.instrs (items.map Item.line)).length = (instructionLines items).length := by
  rw [instrs_items, List.length_map]

/-- The instructions behind a label, and those before it. -/
theorem length_behind (items : List Item) (name : Text) :
    (LabelledCode.instrs (LabelledCode.behind name (items.map Item.line))).length +
      labelTarget items name = (instructionLines items).length := by
  unfold labelTarget
  induction items with
  | nil => rfl
  | cons item items ih =>
    cases item with
    | label other =>
      rw [instructionsBefore_label, List.map_cons, Item.line, LabelledCode.behind]
      by_cases h : other = name
      · rw [if_pos h, if_pos (decide_eq_true h), Nat.add_zero]
        exact length_instrs_items items
      · rw [if_neg h, if_neg (Bool.not_eq_true _ ▸ decide_eq_false h)]
        exact ih
    | instruction instr target =>
      rw [instructionsBefore_instruction, ← Nat.add_assoc]
      exact congrArg Nat.succ ih

/-- A label stands for the position of the text behind it. -/
theorem position_behind (items : List Item) (name : Text) :
    LabelledCode.position (items.map Item.line) (LabelledCode.behind name (items.map Item.line)) =
      labelTarget items name := by
  have hlength := length_behind items name
  rw [LabelledCode.position, length_instrs_items]
  omega

/-- What a jump does is not in its immediate. -/
theorem decode_withTarget {ins : WaiInstruction} (h : ins.op ∈ WaiOpcode.jumps) (imm : WaiValue) :
    decode { ins with imm := imm } = decode ins := by
  unfold decode
  rw [show ({ ins with imm := imm } : WaiInstruction).op = ins.op from rfl]
  unfold WaiOpcode.jumps at h
  simp only [List.mem_cons, List.not_mem_nil, or_false] at h
  rcases h with h | h | h | h | h | h <;> rw [h]

/-- The instruction of a line, as numbered code. -/
theorem numbered_line {line : WaiInstruction × Option Text} {target : Text → Nat}
    (hjump : line.1.op ∈ WaiOpcode.jumps ↔ line.2.isSome = true)
    (htarget : ∀ name, target name < 2 ^ 64) :
    numbered (linkLine target line) = (decode line.1, line.2.map target) := by
  obtain ⟨instr, name⟩ := line
  cases name with
  | none => exact congrArg (decode instr, ·) (if_neg fun h => Bool.false_ne_true (hjump.mp h))
  | some name =>
    have hop : instr.op ∈ WaiOpcode.jumps := hjump.mpr rfl
    have himm : (BitVec.ofNat 64 (target name)).toNat = target name := Nat.mod_eq_of_lt (htarget name)
    show (decode { instr with imm := BitVec.ofNat 64 (target name) },
      if instr.op ∈ WaiOpcode.jumps then some (BitVec.ofNat 64 (target name)).toNat else none) = _
    rw [decode_withTarget hop, if_pos hop, himm]
    rfl

/-- Names of at most 63 characters are harmless. -/
theorem harmless_of_fit {source : Text} {items : List Item} {program : OwnedProgram}
    (h : Assembled source items program) (hfit : LabelNamesFit source) : LongNamesHarmless items where
  defined_once := by
    intro name hname hlong
    have hstored := congrArg List.length (stored_label hfit h.reads hname)
    have hle : (storedName name).length ≤ 63 := List.length_take_le _ _
    omega
  target := by
    intro name hname
    have hdefined := (tableAccepts_iff hfit h.reads).mp h.accepts
    exact ⟨hdefined.defined name hname, sharedTarget_eq hfit h.reads hname⟩

/-- The assembler links the text. -/
theorem link_items {source : Text} {items : List Item} {program : OwnedProgram}
    (h : Assembled source items program) (hharmless : LongNamesHarmless items) :
    program.instructions.map numbered = link (items.map Item.line) := by
  have hbound : ∀ name, sharedTarget items name < 2 ^ 64 := fun name =>
    calc
      sharedTarget items name ≤ (instructionLines items).length := instructionsBefore_le _ _
      _ = program.count := h.count_eq.symm
      _ ≤ maxInstructions := WaiProgram.count_le _
      _ < 2 ^ 64 := maxInstructions_lt
  rw [h.instructions, link, instrs_items, List.map_map, List.map_map]
  refine List.map_congr_left fun line hline => ?_
  refine (numbered_line (h.fits hline).2 hbound).trans (congrArg (decode line.1, ·) ?_)
  obtain ⟨instr, target⟩ := line
  cases target with
  | none => rfl
  | some name =>
    have hname : name ∈ references items := mem_references_iff.mpr ⟨instr, hline⟩
    have htarget : sharedTarget items name = labelTarget items name := (hharmless.target name hname).2
    exact congrArg some (htarget.trans (position_behind items name).symm)

end Link

/-! ## 2. The engine runs the source -/

/-- The machine and the source text are in the same state of a run. -/
def SameText (code : List WaiInstruction) (items : List Item) (vm : WaiVm) (a : SourceState) : Prop :=
  ∃ c, SameRun code vm c ∧ AtText (items.map Item.line) c a

theorem source_lockStep {source : Text} {items : List Item} {program : OwnedProgram}
    (h : Assembled source items program) (hharmless : LongNamesHarmless items) :
    LockStep instructionStep (sourceStep items) (SameText program.instructions items) SameEnd := by
  have hisa := isa_lockStep program.length_le
  rw [link_items h hharmless] at hisa
  refine (hisa.comp (LabelledCode.linked_lockStep _ _)).imp ?_
  rintro r r' ⟨u, hsame, rfl⟩
  exact hsame

/-- What the assembler makes of a source runs on the engine as the source itself does, with jumps to
the labels as they are written, where long names are harmless. -/
theorem assembler_preserves_meaning (alloc : AssemblerAlloc) (source : Text)
    (hok : (waiAssembleSource alloc source).1.error = .ok) :
    ∃ items, ReadsAs (sourceLines source) items ∧
      (LabelNamesFit source → LongNamesHarmless items) ∧
      (LongNamesHarmless items →
        RunsAs (waiAssembleSource alloc source).2 (sourceStep items) (sourceStart items) Prod.fst) := by
  obtain ⟨items, h⟩ := assembled_of_accepted hok
  refine ⟨items, h.reads, harmless_of_fit h, fun hharmless => ?_⟩
  refine runsAs_of_lockStep (source_lockStep h hharmless) ?_ ?_
  · exact ⟨_, sameRun_start _, LabelledCode.atText_start _ _⟩
  · rintro vm a ⟨c, ⟨rfl, _⟩, _, hc⟩
    exact (congrArg Prod.fst hc).symm

theorem assembler_preserves_meaning_loop :
    ∃ items, ReadsAs (sourceLines loopSource) items ∧
      RunsAs (waiAssembleSource .unlimited loopSource).2 (sourceStep items) (sourceStart items)
        Prod.fst := by
  have hfit : LabelNamesFit loopSource := labelNamesFit_of_short (by decide)
  obtain ⟨items, hreads, hharmless, hruns⟩ :=
    assembler_preserves_meaning .unlimited loopSource (by decide)
  exact ⟨items, hreads, hruns (hharmless hfit)⟩

end Waivm
