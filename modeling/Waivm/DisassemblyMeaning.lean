import Waivm.CliCommands
import Waivm.DisassemblyRoundTrip
import Waivm.Linking

/-!
# What a disassembly says about a program

A line of a disassembly shows the fields that its opcode uses, and no others. What it leaves out has
no meaning for the machine, so the text of `dis` says all that a run depends on.

Results:
1. `disassembleSwitch_injective`: a line determines its instruction, but for the fields that are not used.
2. `same_listing_iff`: the disassemblies of two programs are the same exactly when the programs are, up
   to these fields.
3. `engine_reports`: programs that are the same up to these fields run to the same report.
4. `dis_determines_run`: two files with the same disassembly have the same runs.
-/

namespace Waivm

open CString Printf Isa
open LittleEndian (Byte)
open LabelledCode (numberStep)
open X86 (Reg Val)
open Machine (ReachesIn Ends)

/-- An instruction with zero in the fields that its opcode does not use. -/
def canonical (ins : WaiInstruction) : WaiInstruction where
  opcode := ins.opcode
  a := if ins.op ∈ WaiOpcode.usesA then ins.a else 0
  b := if ins.op ∈ WaiOpcode.usesB then ins.b else 0
  c := 0
  imm := if ins.op ∈ WaiOpcode.usesImm then ins.imm else 0

/-- The opcode is known, and the registers that it uses exist. -/
structure OperandsKnown (ins : WaiInstruction) : Prop where
  opcode_known : ins.op ≠ .invalid
  register_a : ins.op ∈ WaiOpcode.usesA → validReg ins.a = true
  register_b : ins.op ∈ WaiOpcode.usesB → validReg ins.b = true

/-! ## 1. Lines -/

section Lines
variable {ins other : WaiInstruction}

theorem canonical_fits (h : OperandsKnown ins) : OperandsFit (canonical ins) where
  reserved_zero := rfl
  opcode_known := h.opcode_known
  register_a hop := (congrArg validReg (if_pos hop)).trans (h.register_a hop)
  register_b hop := (congrArg validReg (if_pos hop)).trans (h.register_b hop)
  unused_a hop := if_neg hop
  unused_b hop := if_neg hop
  unused_imm hop := if_neg hop

/-- The fields that are not used are not printed. -/
theorem disassembleSwitch_canonical (ins : WaiInstruction) :
    disassembleSwitch (canonical ins) = disassembleSwitch ins := by
  unfold disassembleSwitch canonical printImm printRegReg printOne printTarget
  simp only
  rw [show ins.op = WaiOpcode.ofByte ins.opcode from rfl]
  cases WaiOpcode.ofByte ins.opcode <;> rfl

theorem signed_injective {x y : WaiValue} (h : signed x.toInt = signed y.toInt) : x = y := by
  have hfree (value : WaiValue) (c : Char) (hc : c ∈ signed value.toInt) : isspace c = false :=
    (Bool.or_eq_false_iff.mp
      (not_separator_of_word (word_of_integer (integer_signed value)) c hc)).1
  have hx := (parseI64_iff (hfree x)).mpr (integer_signed x)
  have hy := (parseI64_iff (hfree y)).mpr (integer_signed y)
  rw [h] at hx
  exact Option.some.inj (hx.symm.trans hy)

theorem same_of_items {line : Text} {target target' : Option Text}
    (h : LineItem (stripLine line) (.instruction ins target))
    (h' : LineItem (stripLine line) (.instruction other target')) : ins = other := by
  cases lineItem_unique (fun _ => head_trim) h h'
  rfl

/-- A jump is not printed as another instruction is. -/
theorem jump_of_same (h : OperandsFit ins) (h' : OperandsFit other)
    (hsame : disassembleSwitch ins = disassembleSwitch other) (hjump : ins.op ∈ WaiOpcode.jumps) :
    other.op ∈ WaiOpcode.jumps := by
  by_contra hplain
  obtain ⟨mnemonic, before, _, hline, hforms⟩ := form_of_jump h hjump
  obtain ⟨mnemonic', operands, _, hline', hform⟩ := form_of_plain h' hplain
  have hjumps := hforms _ (identifier_targetLabel 0)
  have hmnemonic : mnemonic = mnemonic' := by
    rw [← takeWhile_operation (words_of_form hjumps _ List.mem_cons_self), ← hline, hsame, hline']
    exact takeWhile_operation (words_of_form hform _ List.mem_cons_self)
  subst hmnemonic
  exact Bool.false_ne_true ((jumpMnemonic_iff hform).mp ((jumpMnemonic_iff hjumps).mpr rfl))

theorem same_jump (h : OperandsFit ins) (h' : OperandsFit other)
    (hsame : disassembleSwitch ins = disassembleSwitch other) (hjump : ins.op ∈ WaiOpcode.jumps)
    (hjump' : other.op ∈ WaiOpcode.jumps) : ins = other := by
  obtain ⟨mnemonic, before, hlength, hline, hforms⟩ := form_of_jump h hjump
  obtain ⟨mnemonic', before', hlength', hline', hforms'⟩ := form_of_jump h' hjump'
  obtain ⟨front, hfront⟩ := @operation_concat mnemonic before hlength
  obtain ⟨front', hfront'⟩ := @operation_concat mnemonic' before' hlength'
  have hlast {imm : WaiValue} (front : Text) :=
    @last_word front _ (ne_blank_of_word (word_of_integer (integer_signed imm)))
  rw [hline, hline', hfront, hfront'] at hsame
  have himm : ins.imm = other.imm := by
    refine signed_injective ?_
    rw [← (hlast front).1, hsame, (hlast front').1]
  have hrest : front = front' := by
    have hblank : front ++ [' '] = front' ++ [' '] := by
      rw [← (hlast front).2, hsame, (hlast front').2]
    exact List.append_cancel_right hblank
  -- with the same label for their targets the two lines say the same
  have hlabel := identifier_targetLabel 0
  have hitem := lineItem_operation (by simpa using hlength) (hforms _ hlabel)
  have hitem' := lineItem_operation (by simpa using hlength') (hforms' _ hlabel)
  rw [hfront, hrest, ← hfront'] at hitem
  have hunlinked := same_of_items hitem hitem'
  calc ins = { ins with imm := other.imm } := by rw [← himm]
    _ = other := congrArg (fun i : WaiInstruction => { i with imm := other.imm }) hunlinked

/-- The line of an instruction determines the instruction. -/
theorem disassembleSwitch_injective (h : OperandsFit ins) (h' : OperandsFit other)
    (hsame : disassembleSwitch ins = disassembleSwitch other) : ins = other := by
  by_cases hjump : ins.op ∈ WaiOpcode.jumps
  · exact same_jump h h' hsame hjump (jump_of_same h h' hsame hjump)
  · have hplain : other.op ∉ WaiOpcode.jumps := fun hother =>
      hjump (jump_of_same h' h hsame.symm hother)
    obtain ⟨mnemonic, operands, hlength, hline, hform⟩ := form_of_plain h hjump
    obtain ⟨mnemonic', operands', hlength', hline', hform'⟩ := form_of_plain h' hplain
    have hitem' := lineItem_operation hlength' hform'
    rw [← hline', ← hsame, hline] at hitem'
    exact same_of_items (lineItem_operation hlength hform) hitem'

end Lines

/-! ## 2. Listings -/

section Listings
variable {ins : WaiInstruction} {program other : List WaiInstruction}

/-- No line of a listing contains a newline. -/
theorem newline_not_printed (h : OperandsKnown ins) : '\n' ∉ disassembleSwitch ins := by
  rw [← disassembleSwitch_canonical]
  have hfits := canonical_fits h
  by_cases hjump : (canonical ins).op ∈ WaiOpcode.jumps
  · obtain ⟨mnemonic, before, _, hline, hforms⟩ := form_of_jump hfits hjump
    have hwords := words_of_form (hforms _ (identifier_targetLabel 0))
    rw [hline]
    refine newline_not_mem fun word hword => ?_
    rcases List.mem_append.mp (List.cons_append ▸ hword) with hword | hnumber
    · exact hwords word (List.cons_append ▸ List.mem_append_left _ hword)
    · exact List.mem_singleton.mp hnumber ▸ word_of_integer (integer_signed _)
  · obtain ⟨_, _, _, hline, hform⟩ := form_of_plain hfits hjump
    exact hline ▸ newline_not_mem (words_of_form hform)

theorem disassembleFrom_congr (hsame : program.map disassembleSwitch = other.map disassembleSwitch)
    (n : Nat) : disassembleFrom n program = disassembleFrom n other := by
  induction program generalizing n other with
  | nil =>
    cases List.map_eq_nil_iff.mp hsame.symm
    rfl
  | cons ins rest ih =>
    obtain ⟨ins', rest', rfl, hins, hrest⟩ := List.map_eq_cons_iff.mp hsame.symm
    rw [disassembleFrom, disassembleFrom, waiDisassembleInstruction, waiDisassembleInstruction,
      hins, ih hrest.symm]

theorem canonical_same (h : ∀ ins ∈ program, OperandsKnown ins) (h' : ∀ ins ∈ other, OperandsKnown ins)
    (hsame : program.map disassembleSwitch = other.map disassembleSwitch) :
    program.map canonical = other.map canonical := by
  induction program generalizing other with
  | nil =>
    cases List.map_eq_nil_iff.mp hsame.symm
    rfl
  | cons ins rest ih =>
    obtain ⟨ins', rest', rfl, hins, hrest⟩ := List.map_eq_cons_iff.mp hsame.symm
    obtain ⟨hknown, hknowns⟩ := List.forall_mem_cons.mp h
    obtain ⟨hknown', hknowns'⟩ := List.forall_mem_cons.mp h'
    rw [← disassembleSwitch_canonical ins', ← disassembleSwitch_canonical ins] at hins
    rw [List.map_cons, List.map_cons, ih hknowns hknowns' hrest.symm,
      disassembleSwitch_injective (canonical_fits hknown) (canonical_fits hknown') hins.symm]

/-- The disassemblies of two programs are the same exactly when the programs are, up to the fields
that are not used. -/
theorem same_listing_iff (h : ∀ ins ∈ program, OperandsKnown ins)
    (h' : ∀ ins ∈ other, OperandsKnown ins) :
    disassembleFrom 0 program = disassembleFrom 0 other ↔
      program.map canonical = other.map canonical := by
  have hlines (l : List WaiInstruction) :
      (l.map canonical).map disassembleSwitch = l.map disassembleSwitch := by
    rw [List.map_map]
    exact List.map_congr_left fun ins _ => disassembleSwitch_canonical ins
  constructor
  · intro hsame
    have hprinted : program.map disassembleSwitch = other.map disassembleSwitch := by
      rw [← lines_disassembly fun ins hins => newline_not_printed (h ins hins), hsame,
        lines_disassembly fun ins hins => newline_not_printed (h' ins hins)]
    exact canonical_same h h' hprinted
  · intro hsame
    exact disassembleFrom_congr (by rw [← hlines program, hsame, hlines other]) 0

end Listings

/-! ## 3. Runs -/

/-- The fields that are not used have no meaning. `not` is given an operand, and does not read it. -/
theorem exec_canonical (ins : WaiInstruction) :
    (language machineMemory).exec (numbered (canonical ins)).1 =
      (language machineMemory).exec (numbered ins).1 := by
  have hop : (canonical ins).op = ins.op := rfl
  unfold numbered decode
  rw [hop]
  unfold canonical
  generalize ins.op = op
  cases op <;> rfl

theorem target_canonical (ins : WaiInstruction) :
    (numbered (canonical ins)).2 = (numbered ins).2 := by
  have hop : (canonical ins).op = ins.op := rfl
  unfold numbered
  rw [hop]
  unfold canonical
  generalize ins.op = op
  cases op <;> rfl

theorem numberStep_canonical (code : List WaiInstruction) :
    numberStep (language machineMemory) ((code.map canonical).map numbered) =
      numberStep (language machineMemory) (code.map numbered) := by
  rw [List.map_map]
  exact LabelledCode.numberStep_congr exec_canonical target_canonical code

/-- Two runs have ended in the same way: with the same output, and in a failure at the same `ip`. -/
inductive SameReport : StepEnd → StepEnd → Prop
  | stopped {status : WaiErrorCode} {vm vm' : WaiVm} : vm'.emitted = vm.emitted →
      (status ≠ .ok → vm'.ip = vm.ip) → SameReport (.stopped status vm) (.stopped status vm')
  | overflow : SameReport (.fault .divide) (.fault .divide)

section Ends
variable {program other : OwnedProgram} {entry entry' : Reg → Val Object} {e e' : AsmEnd}
  {r r' : StepEnd} {vm vm' : WaiVm} {n : Nat}

theorem codeCount_of_same (hcount : program.instructions.length = other.instructions.length)
    (h : ReachesIn instructionStep n program.initialVm vm)
    (h' : ReachesIn instructionStep n other.initialVm vm') : vm'.codeCount = vm.codeCount := by
  rw [codeCount_of_reach (stepReach_of_reachesIn h), codeCount_of_reach (stepReach_of_reachesIn h'),
    program.count_eq_length, other.count_eq_length, hcount]

/-- Where `ip` is after a failure. -/
theorem failed_ip_eq {status : WaiErrorCode} (h : ReachesIn instructionStep n program.initialVm vm)
    (hs : instructionStep vm = .done (.stopped status vm')) (hne : status ≠ .ok) :
    vm'.ip = if vm.ip < vm.codeCount then vm.ip + 1 else vm.ip := by
  rcases failed_ip h hs hne with ⟨hat, hlast⟩ | ⟨hlt, hlast⟩
  · rw [hlast, hat, if_neg (BitVec.lt_irrefl _)]
  · rw [hlast, if_pos hlt]

/-- What both machines end with after the same steps, with the same `ip` before the last one. -/
theorem sameReport_of_end {result : Result ByteStack}
    (hcount : program.instructions.length = other.instructions.length)
    (h : ReachesIn instructionStep n program.initialVm vm)
    (h' : ReachesIn instructionStep n other.initialVm vm') (hip : vm'.ip = vm.ip)
    (hdone : instructionStep vm = .done r) (hdone' : instructionStep vm' = .done r')
    (hsame : SameEnd r result) (hsame' : SameEnd r' result) : SameReport r r' := by
  generalize hend : result = result' at hsame'
  cases hsame with
  | halted last =>
    cases hsame' with
    | halted last' =>
      have hdata := Result.halted.inj hend
      exact .stopped (congrArg Data.printed hdata.symm) fun hne => absurd rfl hne
    | stopped last' hne => cases hend
    | overflow d => cases hend
  | stopped last hne =>
    cases hsame' with
    | halted last' => cases hend
    | overflow d => cases hend
    | stopped last' hne' =>
      obtain ⟨hstatus, hdata⟩ := Result.stopped.inj hend
      cases hstatus
      refine .stopped (congrArg Data.printed hdata.symm) fun _ => ?_
      rw [failed_ip_eq h hdone hne, failed_ip_eq h' hdone' hne', hip, codeCount_of_same hcount h h']
  | overflow d =>
    cases hsame' with
    | halted last' => cases hend
    | stopped last' hne => cases hend
    | overflow d' => exact .overflow

/-- Programs of the same steps end in the same way. -/
theorem machine_ends (hcount : program.instructions.length = other.instructions.length)
    (hstep : isaStep program = isaStep other)
    (h : Ends instructionStep program.initialVm r) :
    ∃ r', SameReport r r' ∧ Ends instructionStep other.initialVm r' := by
  obtain ⟨m, h⟩ := h
  obtain ⟨n, vm, _, hreach, hdone⟩ := Machine.endsIn_cases h
  have hprogram := isa_lockStep program.length_le
  have hother := isa_lockStep other.length_le
  obtain ⟨c, hc, hreachC⟩ := hprogram.reachesIn_reflect (sameRun_start program) hreach
  unfold isaStep at hstep
  rw [hstep] at hprogram hreachC
  obtain ⟨vm', hc', hreach'⟩ := hother.reachesIn (sameRun_start other) hreachC
  have hip : vm'.ip = vm.ip := BitVec.eq_of_toNat_eq
    (congrArg Prod.snd (hc'.1.symm.trans hc.1))
  have hend := hprogram vm c hc
  have hend' := hother vm' c hc'
  rw [hdone] at hend
  generalize hx : numberStep (language machineMemory) (other.instructions.map numbered) c = x
    at hend hend'
  cases hend with
  | done hsame =>
    generalize hdone' : instructionStep vm' = y at hend'
    cases hend' with
    | done hsame' =>
      exact ⟨_, sameReport_of_end hcount hreach hreach' hip hdone hdone' hsame hsame',
        Machine.ends_of_reaches ⟨n, hreach'⟩ (Machine.ends_of_done hdone')⟩

/-- The command reports the same. -/
theorem runEnd_of_same (host : Host) (hend : EngineEnd entry e r) (hend' : EngineEnd entry' e' r')
    (hsame : SameReport r r') : runEnd host e' = runEnd host e := by
  cases hsame with
  | stopped hemitted hip =>
    cases e with
    | trapped t => cases t <;> exact absurd hend.1 id
    | returned c =>
      cases e' with
      | trapped t => cases t <;> exact absurd hend'.1 id
      | returned c' =>
        obtain ⟨rfl, hcode⟩ := execute_of_returned hend.1 (hend.2 rfl)
        obtain ⟨rfl, hcode'⟩ := execute_of_returned hend'.1 (hend'.2 rfl)
        rw [runEnd, runEnd, hcode, hcode', Option.map_some, Option.map_some, hemitted]
        split
        · rfl
        · next hne => rw [hip hne]
  | overflow =>
    cases e with
    | returned c => exact absurd hend.1 id
    | trapped t =>
      cases e' with
      | returned c' => exact absurd hend'.1 id
      | trapped t' =>
        cases t <;> first | exact absurd hend.1 id | skip
        cases t' <;> first | exact absurd hend'.1 id | rfl

/-- The engine runs programs of the same steps to the same report. -/
theorem engine_reports (host : Host) (hcount : program.instructions.length = other.instructions.length)
    (hstep : isaStep program = isaStep other)
    (h : Ends asmStep (asmEntry host.regs program.initialVm) e) :
    ∃ e', Ends asmStep (asmEntry host.regs other.initialVm) e' ∧ runEnd host e' = runEnd host e := by
  obtain ⟨c, hc, hentry⟩ := entry_between host.regs program.initialVm
  obtain ⟨r, hend, hr⟩ := (result_simulation _).ends_reflect ⟨hc, initial_runnable program⟩
    (Machine.ends_from_reaches hentry.reaches h)
  obtain ⟨r', hsame, hr'⟩ := machine_ends hcount hstep hr
  obtain ⟨c', hc', hentry'⟩ := entry_between host.regs other.initialVm
  obtain ⟨e', hend', he'⟩ := (result_simulation _).ends ⟨hc', initial_runnable other⟩ hr'
  exact ⟨e', Machine.ends_of_reaches hentry'.reaches he', runEnd_of_same host hend hend' hsame⟩

end Ends

/-! ## 4. Files -/

section Files
variable {host : Host} {name path other listing stderr stderr' : Text} {files files' : FileSystem}
  {e : ProcessEnd}

theorem operandsKnown_of_loaded {program : OwnedProgram} {info : Option WaiBytecodeInfo}
    (hload : loadProgramAuto host.load host.files path waiProgramInit (some zeroInfo) =
      (.ok, program, info)) : ∀ ins ∈ program.instructions, OperandsKnown ins := by
  intro ins hins
  obtain ⟨hop, ha, hb⟩ := loaded_known hload hins
  exact ⟨hop, ha, hb⟩

/-- A file that is disassembled holds a program. -/
theorem loaded_of_dis (h : commandDis host path (.exited .ok listing stderr files)) :
    ∃ program info,
      loadProgramAuto host.load host.files path waiProgramInit (some zeroInfo) =
        (.ok, program, info) ∧ listing = disassembleFrom 0 program.instructions := by
  unfold commandDis withProgram at h
  split at h
  · next program info hload =>
    cases h
    exact ⟨program, info, hload, rfl⟩
  · cases h

theorem dis_of_loaded
    (hload : (loadProgramAuto host.load host.files path waiProgramInit (some zeroInfo)).1 = .ok)
    (hlisting : disassembleFrom 0 (loadProgramAuto host.load host.files path waiProgramInit
      (some zeroInfo)).2.1.instructions = listing) :
    commandDis host path (host.succeeds listing) := by
  unfold commandDis withProgram
  generalize loadProgramAuto host.load host.files path waiProgramInit (some zeroInfo) = loaded
    at hload hlisting
  obtain ⟨status, program, info⟩ := loaded
  cases hload
  cases hlisting
  rfl

/-- What one of two files does when it is run, the other does. -/
theorem run_of_dis (h : commandDis host path (.exited .ok listing stderr files))
    (h' : commandDis host other (.exited .ok listing stderr' files'))
    (hrun : commandRun host path e) : commandRun host other e := by
  obtain ⟨program, info, hload, rfl⟩ := loaded_of_dis h
  obtain ⟨program', info', hload', hlisting⟩ := loaded_of_dis h'
  have hcanonical :=
    (same_listing_iff (operandsKnown_of_loaded hload) (operandsKnown_of_loaded hload')).mp hlisting
  have hcount : program.instructions.length = program'.instructions.length := by
    rw [← List.length_map canonical, hcanonical, List.length_map]
  have hstep : isaStep program = isaStep program' := by
    unfold isaStep
    rw [← numberStep_canonical, hcanonical, numberStep_canonical]
  unfold commandRun withProgram at hrun ⊢
  rw [hload] at hrun
  rw [hload']
  obtain ⟨ended, hends, hreport⟩ := hrun
  obtain ⟨ended', hends', hsame⟩ := engine_reports host hcount hstep hends
  exact ⟨ended', hends', hsame.trans hreport⟩

/-- Two files with the same disassembly have the same runs: the same output, the same reports of
errors, and no end where the other has none. -/
theorem dis_determines_run
    (h : waiCliMain host [name, ['d', 'i', 's'], path] (.exited .ok listing stderr files))
    (h' : waiCliMain host [name, ['d', 'i', 's'], other] (.exited .ok listing stderr' files'))
    (e : ProcessEnd) :
    waiCliMain host [name, ['r', 'u', 'n'], path] e ↔
      waiCliMain host [name, ['r', 'u', 'n'], other] e :=
  ⟨run_of_dis h h', run_of_dis h' h⟩

end Files

/-- A directory with the source `halt`, and with a bytecode in which fields of the `halt` are set. -/
def twoHalts : FileSystem :=
  Function.update (onlySource haltSource) ['b']
    (some (encodeHeader 1 ++ encodeInstruction ⟨WaiOpcode.halt.value, 1, 2, 0, 3⟩))

/-- The host of this directory. -/
def twoHaltsHost : Host :=
  { sourceHost haltSource with files := twoHalts }

theorem dis_determines_run_halt : ∃ listing,
    waiCliMain twoHaltsHost [['w'], ['d', 'i', 's'], ['s']] (.exited .ok listing [] twoHalts) ∧
    waiCliMain twoHaltsHost [['w'], ['d', 'i', 's'], ['b']] (.exited .ok listing [] twoHalts) ∧
    ∀ e, waiCliMain twoHaltsHost [['w'], ['r', 'u', 'n'], ['s']] e ↔
      waiCliMain twoHaltsHost [['w'], ['r', 'u', 'n'], ['b']] e := by
  have hsource : commandDis twoHaltsHost ['s']
      (twoHaltsHost.succeeds ['0', '0', '0', '0', ' ', ' ', 'h', 'a', 'l', 't', '\n']) :=
    dis_of_loaded (by decide +kernel) (by decide +kernel)
  have hbytecode : commandDis twoHaltsHost ['b']
      (twoHaltsHost.succeeds ['0', '0', '0', '0', ' ', ' ', 'h', 'a', 'l', 't', '\n']) :=
    dis_of_loaded (by decide +kernel) (by decide +kernel)
  exact ⟨_, hsource, hbytecode, dis_determines_run hsource hbytecode⟩

end Waivm
